/-
  File:      AtomicSync/Lib/Progress.lean
  Subject:   What a system can always still reach.

  A lock that nobody can free any more, a call that nothing can end: that no reachable state is one
  of these says that from each of them SOME continuation leads to a good state. The argument is the
  same everywhere. A measure counts what is left to do; where something is left, some steps of the
  permitted kind (`C`) leave less of it and end where the invariant (`I`) that made them possible
  holds again.

  * `Within` -- so many permitted steps lead from here to there; its rules (`one`, `trans`,
    `invariant`);
  * `CanReach` -- some continuation by permitted steps leads there; its rules (`now`, `next`,
    `trans`);
  * `Drains` -- the obligation in one state;
  * **`Drains.run`** -- from every state with the invariant, permitted steps lead to one with
    nothing left, and there are at most `B` of them for each unit of the measure.
-/
import AtomicSync.Lib.Run

namespace AtomicSync

variable {σ α : Type*}

/-! ## 1. Reachability -/

/-- **At most `n` permitted steps lead from `s` to `s'`.** -/
def Within (step : σ → α → Option σ) (C : Trans σ α → Prop) (n : ℕ) (s s' : σ) : Prop :=
  ∃ ts, Run step s ts s' ∧ (∀ t ∈ ts, C t) ∧ ts.length ≤ n

namespace Within

variable {step : σ → α → Option σ} {C C' : Trans σ α → Prop} {m n : ℕ} {s s' s'' : σ}

theorem refl (s : σ) : Within step C 0 s s :=
  ⟨[], .start, fun _ ht => absurd ht List.not_mem_nil, Nat.le_refl _⟩

theorem one {a : α} (h : step s a = some s') (hC : C ⟨s, a, s'⟩) : Within step C 1 s s' := by
  refine ⟨_, Run.start.next h, fun t ht => ?_, Nat.le_refl _⟩
  rw [List.mem_singleton.mp ht]
  exact hC

theorem trans (h : Within step C m s s') (h' : Within step C n s' s'') :
    Within step C (m + n) s s'' := by
  obtain ⟨us, hr, hC, hlen⟩ := h
  obtain ⟨us', hr', hC', hlen'⟩ := h'
  refine ⟨us' ++ us, hr.append hr', fun t ht => ?_, ?_⟩
  · rcases List.mem_append.mp ht with ht | ht
    · exact hC' t ht
    · exact hC t ht
  · rw [List.length_append]
    omega

theorem weaken (h : Within step C m s s') (hmn : m ≤ n) : Within step C n s s' := by
  obtain ⟨us, hr, hC, hlen⟩ := h
  exact ⟨us, hr, hC, Nat.le_trans hlen hmn⟩

theorem mono (h : Within step C n s s') (hC : ∀ t, C t → C' t) : Within step C' n s s' := by
  obtain ⟨us, hr, hCt, hlen⟩ := h
  exact ⟨us, hr, fun t ht => hC t (hCt t ht), hlen⟩

theorem invariant {I : σ → Prop} (h : Within step C n s s')
    (hI : ∀ t : Trans σ α, step t.pre t.act = some t.post → C t → I t.pre → I t.post)
    (hs : I s) : I s' := by
  obtain ⟨us, hr, hC, -⟩ := h
  exact hr.invariant hs hI hC

end Within

/-- **Some run of permitted steps from `s` ends in a state with `P`.** -/
def CanReach (step : σ → α → Option σ) (C : Trans σ α → Prop) (s : σ) (P : σ → Prop) : Prop :=
  ∃ ts s', Run step s ts s' ∧ (∀ t ∈ ts, C t) ∧ P s'

namespace CanReach

variable {step : σ → α → Option σ} {C C' : Trans σ α → Prop} {s s' : σ} {P Q : σ → Prop}

theorem now (h : P s) : CanReach step C s P :=
  ⟨[], s, .start, fun _ ht => absurd ht List.not_mem_nil, h⟩

theorem of_run {ts : List (Trans σ α)} (hr : Run step s ts s') (hC : ∀ t ∈ ts, C t)
    (h : CanReach step C s' P) : CanReach step C s P := by
  obtain ⟨us, m, hrun, hC', hm⟩ := h
  refine ⟨us ++ ts, m, hr.append hrun, fun t ht => ?_, hm⟩
  rcases List.mem_append.mp ht with ht | ht
  · exact hC' t ht
  · exact hC t ht

theorem of_within {n : ℕ} (h : Within step C n s s') (h' : CanReach step C s' P) :
    CanReach step C s P := by
  obtain ⟨us, hr, hC, -⟩ := h
  exact of_run hr hC h'

/-- One step more. -/
theorem next {a : α} (hs : step s a = some s') (hC : C ⟨s, a, s'⟩) (h : CanReach step C s' P) :
    CanReach step C s P := by
  refine of_run (Run.start.next hs) (fun t ht => ?_) h
  rw [List.mem_singleton.mp ht]
  exact hC

theorem trans (h : CanReach step C s P) (h' : ∀ s', P s' → CanReach step C s' Q) :
    CanReach step C s Q := by
  obtain ⟨ts, m, hr, hC, hm⟩ := h
  exact of_run hr hC (h' m hm)

end CanReach

/-! ## 2. Measures -/

/-- **The measure `f` can always be lowered** by at most `B` steps of the kind `C` a unit, with the
    invariant `I` at the end again. -/
structure Drains (step : σ → α → Option σ) (I : σ → Prop) (C : Trans σ α → Prop) (f : σ → ℕ)
    (B : ℕ) : Prop where
  lowers : ∀ s, I s → 0 < f s → ∃ s', Within step C (B * (f s - f s')) s s' ∧ I s' ∧ f s' < f s

namespace Drains

variable {step : σ → α → Option σ} {I : σ → Prop} {C : Trans σ α → Prop} {f : σ → ℕ} {B : ℕ}

/-- **From every state with the invariant the measure can be drained.** -/
theorem run (hD : Drains step I C f B) {s : σ} (hs : I s) :
    ∃ s', Within step C (B * f s) s s' ∧ I s' ∧ f s' = 0 := by
  generalize hn : f s = n
  induction n using Nat.strongRecOn generalizing s with
  | ind n ih =>
      subst hn
      rcases Nat.eq_zero_or_pos (f s) with h0 | hpos
      · exact ⟨s, (Within.refl s).weaken (Nat.zero_le _), hs, h0⟩
      · obtain ⟨m, hm, hIm, hlt⟩ := hD.lowers s hs hpos
        obtain ⟨s', hs', hI, h0⟩ := ih (f m) hlt hIm rfl
        have hsplit : B * (f s - f m) + B * f m = B * f s := by
          rw [← Nat.mul_add, Nat.sub_add_cancel (Nat.le_of_lt hlt)]
        exact ⟨s', hsplit ▸ hm.trans hs', hI, h0⟩

/-- One step a unit, where every permitted step keeps the invariant. -/
theorem of_step (hkeep : ∀ t : Trans σ α, step t.pre t.act = some t.post → C t → I t.pre → I t.post)
    (hlow : ∀ s, I s → 0 < f s → ∃ a s', step s a = some s' ∧ C ⟨s, a, s'⟩ ∧ f s' < f s) :
    Drains step I C f 1 where
  lowers := by
    intro s hs hpos
    obtain ⟨a, s', hstep, hC, hlt⟩ := hlow s hs hpos
    exact ⟨s', (Within.one hstep hC).weaken (by omega), hkeep _ hstep hC hs, hlt⟩

end Drains

end AtomicSync
