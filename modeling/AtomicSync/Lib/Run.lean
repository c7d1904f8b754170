/-
  File:      AtomicSync/Lib/Run.lean
  Subject:   Runs of a partial step function, with the transitions they take.

  A system is a function `step : σ → α → Option σ`: `step s a = some s'` when the action `a` is
  possible in `s` and leads to `s'`. A run keeps the list of its transitions, so a property of
  the whole run ("no step of it ever …") is a statement about every member of that list:

  * `Run step s₀ ts s` -- a run from `s₀` to `s` taking `ts`, the newest transition first;
  * `Run.invariant`, `Run.invariant_mem` -- what holds at the start and is kept by every step
    that meets the run's condition `C` holds at the end and around every transition;
  * `Run.append`, `Run.split`, `Run.of_mem` -- runs compose and come apart, and every transition
    of a run is reached by a run whose transitions are among those of the whole;
  * `Run.final` -- where a run ends;
  * `Run.spent`, `Run.earned`, `Run.paid` -- a measure of which every transition spends, or to
    which it adds, a known part; one from which every transition takes its price, and which some
    transitions raise;
  * `exec`, `Run.of_exec` -- a list of actions, executed, is a run: concrete runs are computed.
-/
import Mathlib.Algebra.GroupWithZero.Nat
import Mathlib.Data.List.Basic

namespace AtomicSync

variable {σ α : Type*}

/-- One transition of a run: the state before, the action taken, the state after. -/
structure Trans (σ α : Type*) where
  pre : σ
  act : α
  post : σ

/-- **A run** of `step` from `s₀`: the transitions taken, the newest first, and the end state. -/
inductive Run (step : σ → α → Option σ) (s₀ : σ) : List (Trans σ α) → σ → Prop where
  | start : Run step s₀ [] s₀
  | next {ts : List (Trans σ α)} {s s' : σ} {a : α} (h : Run step s₀ ts s)
      (hs : step s a = some s') : Run step s₀ (⟨s, a, s'⟩ :: ts) s'

namespace Run

variable {step : σ → α → Option σ} {s₀ s s' : σ} {ts ts' : List (Trans σ α)}

/-! ## 1. Invariants -/

/-- **The induction rule of runs**: what the start has, and every step meeting `C` keeps, the
    end of a run has whose transitions all meet `C`. -/
theorem invariant {I : σ → Prop} {C : Trans σ α → Prop} (h0 : I s₀)
    (hI : ∀ t : Trans σ α, step t.pre t.act = some t.post → C t → I t.pre → I t.post)
    (hr : Run step s₀ ts s) (hC : ∀ t ∈ ts, C t) : I s := by
  induction hr with
  | start => exact h0
  | next _ hs ih =>
      have hC' := fun t ht => hC t (List.mem_cons_of_mem _ ht)
      exact hI _ hs (hC _ List.mem_cons_self) (ih hC')

/-- Every transition of a run is a step, and the state before it is reached by a run whose
    transitions are among the whole run's. -/
theorem of_mem (hr : Run step s₀ ts s) {t : Trans σ α} (ht : t ∈ ts) :
    step t.pre t.act = some t.post ∧ ∃ us, Run step s₀ us t.pre ∧ ∀ u ∈ us, u ∈ ts := by
  induction hr with
  | start => exact absurd ht List.not_mem_nil
  | next h hs ih =>
      rcases List.mem_cons.mp ht with rfl | ht
      · exact ⟨hs, _, h, fun u hu => List.mem_cons_of_mem _ hu⟩
      · obtain ⟨hstep, us, hus, hsub⟩ := ih ht
        exact ⟨hstep, us, hus, fun u hu => List.mem_cons_of_mem _ (hsub u hu)⟩

/-- The induction rule, read around every transition of the run. -/
theorem invariant_mem {I : σ → Prop} {C : Trans σ α → Prop} (h0 : I s₀)
    (hI : ∀ t : Trans σ α, step t.pre t.act = some t.post → C t → I t.pre → I t.post)
    (hr : Run step s₀ ts s) (hC : ∀ t ∈ ts, C t) {t : Trans σ α} (ht : t ∈ ts) :
    step t.pre t.act = some t.post ∧ I t.pre ∧ I t.post := by
  obtain ⟨hstep, us, hus, hsub⟩ := hr.of_mem ht
  have hpre := invariant h0 hI hus fun u hu => hC u (hsub u hu)
  exact ⟨hstep, hpre, hI t hstep (hC t ht) hpre⟩

/-! ## 2. Segments -/

/-- Runs compose: a segment continues the run that reached its start. -/
theorem append (hr : Run step s₀ ts s) (hr' : Run step s ts' s') :
    Run step s₀ (ts' ++ ts) s' := by
  induction hr' with
  | start => exact hr
  | next _ hs ih => exact ih.next hs

/-- … and come apart again at any of their transitions. -/
theorem split (hr : Run step s₀ (ts' ++ ts) s) : ∃ m, Run step s₀ ts m ∧ Run step m ts' s := by
  induction ts' generalizing s with
  | nil => exact ⟨s, hr, .start⟩
  | cons t ts' ih =>
      cases hr with
      | next h hs =>
          obtain ⟨m, hm, hseg⟩ := ih h
          exact ⟨m, hm, hseg.next hs⟩

/-- A run ends in its start, or in the state after one of its transitions. -/
theorem final (hr : Run step s₀ ts s) : s = s₀ ∨ ∃ t ∈ ts, t.post = s := by
  cases hr with
  | start => exact Or.inl rfl
  | next _ _ => exact Or.inr ⟨_, List.mem_cons_self, rfl⟩

/-- A measure of which every transition spends `g`: the whole segment spends the sum. -/
theorem spent (f : σ → ℕ) (g : Trans σ α → ℕ) (hr : Run step s₀ ts s)
    (hf : ∀ t ∈ ts, f t.post + g t = f t.pre) : f s + (ts.map g).sum = f s₀ := by
  induction hr with
  | start => rfl
  | next _ hs ih =>
      have hlast := hf _ List.mem_cons_self
      have hrest := ih fun t ht => hf t (List.mem_cons_of_mem _ ht)
      simp only [List.map_cons, List.sum_cons] at hlast ⊢
      omega

/-- The same for a measure every transition adds `g` to. -/
theorem earned (f : σ → ℕ) (g : Trans σ α → ℕ) (hr : Run step s₀ ts s)
    (hf : ∀ t ∈ ts, f t.post = f t.pre + g t) : f s = f s₀ + (ts.map g).sum := by
  induction hr with
  | start => rfl
  | next _ hs ih =>
      have hlast := hf _ List.mem_cons_self
      have hrest := ih fun t ht => hf t (List.mem_cons_of_mem _ ht)
      simp only [List.map_cons, List.sum_cons] at hlast ⊢
      omega

/-- **Costs paid out of a measure**, to which a transition adds at most its `gain`. -/
theorem paid (f : σ → ℕ) (cost gain : Trans σ α → ℕ) (hr : Run step s₀ ts s)
    (hf : ∀ t ∈ ts, f t.post + cost t ≤ f t.pre + gain t) :
    f s + (ts.map cost).sum ≤ f s₀ + (ts.map gain).sum := by
  induction hr with
  | start => exact Nat.le_refl _
  | next _ hs ih =>
      have hlast := hf _ List.mem_cons_self
      have hrest := ih fun t ht => hf t (List.mem_cons_of_mem _ ht)
      simp only [List.map_cons, List.sum_cons] at hlast ⊢
      omega

end Run

/-! ## 3. Executed runs -/

/-- Execute a list of actions: the transitions taken, the newest first, or `none` where an
    action is not possible. -/
def exec (step : σ → α → Option σ) : σ → List (Trans σ α) → List α → Option (List (Trans σ α) × σ)
  | s, ts, [] => some (ts, s)
  | s, ts, a :: as =>
    match step s a with
    | some s' => exec step s' (⟨s, a, s'⟩ :: ts) as
    | none => none

theorem Run.of_exec_from {step : σ → α → Option σ} {s₀ : σ} :
    ∀ {as : List α} {s s' : σ} {ts ts' : List (Trans σ α)}, Run step s₀ ts s →
      exec step s ts as = some (ts', s') → Run step s₀ ts' s'
  | [], s, s', ts, ts', hr, h => by
      simp only [exec, Option.some.injEq, Prod.mk.injEq] at h
      obtain ⟨rfl, rfl⟩ := h
      exact hr
  | a :: as, s, s', ts, ts', hr, h => by
      simp only [exec] at h
      cases hs : step s a with
      | none => simp [hs] at h
      | some s₁ =>
        simp only [hs] at h
        exact of_exec_from (hr.next hs) h

/-- **Executed actions are a run**: where the execution succeeds and a test `p` of its
    transitions and end state comes out true, there is a run that passes the test. -/
theorem Run.of_exec (step : σ → α → Option σ) (s₀ : σ) (as : List α)
    (p : List (Trans σ α) → σ → Prop) [∀ ts s, Decidable (p ts s)]
    (h : (exec step s₀ [] as).any (fun r => decide (p r.1 r.2)) = true) :
    ∃ ts s, Run step s₀ ts s ∧ p ts s := by
  cases hx : exec step s₀ [] as with
  | none => simp [hx] at h
  | some r =>
    obtain ⟨ts, s⟩ := r
    rw [hx] at h
    exact ⟨ts, s, of_exec_from .start hx, by simpa using h⟩

/-- The same for a run and a segment that continues it. -/
theorem Run.of_exec_segment (step : σ → α → Option σ) (s₀ : σ) (as bs : List α)
    (p : List (Trans σ α) → σ → List (Trans σ α) → σ → Prop)
    [∀ ts s us s', Decidable (p ts s us s')]
    (h : (exec step s₀ [] as).any (fun r =>
      (exec step r.2 [] bs).any fun q => decide (p r.1 r.2 q.1 q.2)) = true) :
    ∃ ts s us s', Run step s₀ ts s ∧ Run step s us s' ∧ p ts s us s' := by
  cases hx : exec step s₀ [] as with
  | none => simp [hx] at h
  | some r =>
    obtain ⟨ts, s⟩ := r
    rw [hx, Option.any_some] at h
    obtain ⟨us, s', hs, hp⟩ := Run.of_exec step s bs (p ts s) h
    exact ⟨ts, s, us, s', of_exec_from .start hx, hs, hp⟩

end AtomicSync
