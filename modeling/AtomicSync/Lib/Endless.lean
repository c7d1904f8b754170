/-
  File:      AtomicSync/Lib/Endless.lean
  Subject:   Endless executions, and the ones that go round in a circle.

  That something need never happen is shown by an execution without an end in which it does not. A
  finite cycle is enough: gone round again and again it passes each of its states, and takes each of
  its transitions, infinitely often.

  * `Endless` -- an infinite sequence of permitted transitions, each starting where the last ended;
  * `Endless.cons`, `Endless.after` -- steps may be put in front of it, and what recurs still does;
  * `Endless.invariant`, `Endless.runs_out` -- what holds all along an execution, and a measure that
    comes down to nothing in it;
  * **`Endless.of_cycle`** -- permitted steps that lead back where they started, repeated for ever.
-/
import Mathlib.Order.Filter.AtTopBot.Basic
import AtomicSync.Lib.Progress

namespace AtomicSync

variable {σ α : Type*}

/-- **An endless execution from `s`**, all of its transitions permitted. -/
structure Endless (step : σ → α → Option σ) (C : Trans σ α → Prop) (s : σ) (e : ℕ → Trans σ α) :
    Prop where
  start : (e 0).pre = s
  steps : ∀ n, step (e n).pre (e n).act = some (e n).post
  linked : ∀ n, (e (n + 1)).pre = (e n).post
  permitted : ∀ n, C (e n)

/-- The transition `t`, and then `e`. -/
def consTrans (t : Trans σ α) (e : ℕ → Trans σ α) : ℕ → Trans σ α
  | 0 => t
  | n + 1 => e n

namespace Run

variable {step : σ → α → Option σ} {s₀ s : σ} {ts : List (Trans σ α)}

/-! ## 1. Neighbours in a run -/

/-- The newest transition ends where the run does, -/
theorem newest {t : Trans σ α} (hr : Run step s₀ ts s) (ht : ts[0]? = some t) : t.post = s := by
  cases hr with
  | start => cases ht
  | next _ _ =>
      cases ht
      rfl

/-- the oldest starts where the run does, -/
theorem oldest {t : Trans σ α} (hr : Run step s₀ ts s) (ht : ts[ts.length - 1]? = some t) :
    t.pre = s₀ := by
  induction hr with
  | start => cases ht
  | @next ts m s a h hs ih =>
      cases h with
      | start =>
          cases ht
          rfl
      | next h' hs' => exact ih ht

/-- and each of the others where the one before it ended. -/
theorem neighbours {i : ℕ} {t u : Trans σ α} (hr : Run step s₀ ts s) (ht : ts[i + 1]? = some t)
    (hu : ts[i]? = some u) : u.pre = t.post := by
  induction hr generalizing i with
  | start => cases ht
  | next h hs ih =>
      cases i with
      | zero =>
          cases hu
          exact (h.newest ht).symm
      | succ i => exact ih ht hu

end Run

namespace Endless

variable {step : σ → α → Option σ} {C : Trans σ α → Prop} {s s' m m' : σ} {e : ℕ → Trans σ α}

/-! ## 2. Steps in front -/

theorem cons {a : α} (h : Endless step C s' e) (hs : step s a = some s') (hC : C ⟨s, a, s'⟩) :
    Endless step C s (consTrans ⟨s, a, s'⟩ e) where
  start := rfl
  steps n := by
    cases n with
    | zero => exact hs
    | succ n => exact h.steps n
  linked n := by
    cases n with
    | zero => exact h.start
    | succ n => exact h.linked n
  permitted n := by
    cases n with
    | zero => exact hC
    | succ n => exact h.permitted n

theorem recurs_cons {P : Trans σ α → Prop} {t : Trans σ α}
    (h : ∃ᶠ n in Filter.atTop, P (e n)) : ∃ᶠ n in Filter.atTop, P (consTrans t e n) := by
  rw [Filter.frequently_atTop] at h ⊢
  intro n
  obtain ⟨m, hm, hP⟩ := h n
  exact ⟨m + 1, Nat.le_succ_of_le hm, hP⟩

/-- **What recurs after some steps recurs.** -/
theorem after {ts : List (Trans σ α)} (hr : Run step s ts s') (hC : ∀ t ∈ ts, C t)
    (h : Endless step C s' e) :
    ∃ e', Endless step C s e' ∧ ∀ P : Trans σ α → Prop,
      (∃ᶠ n in Filter.atTop, P (e n)) → ∃ᶠ n in Filter.atTop, P (e' n) := by
  induction hr generalizing e with
  | start => exact ⟨e, h, fun _ hP => hP⟩
  | next hr hs ih =>
      have hfront := h.cons hs (hC _ List.mem_cons_self)
      obtain ⟨e', he', hrec⟩ := ih (fun t ht => hC t (List.mem_cons_of_mem _ ht)) hfront
      exact ⟨e', he', fun P hP => hrec P (recurs_cons hP)⟩

/-! ## 3. Cycles -/

/-- A run that ends where it began, gone round for ever, takes each of its transitions infinitely
    often. -/
theorem of_loop {ts : List (Trans σ α)} (hr : Run step s ts s) (hC : ∀ t ∈ ts, C t)
    (hne : 0 < ts.length) :
    ∃ e, Endless step C s e ∧ ∀ t ∈ ts, ∃ᶠ n in Filter.atTop, e n = t := by
  -- the oldest transition comes last in the list
  have hget : ∀ n, ∃ t, ts[ts.length - 1 - n % ts.length]? = some t := by
    intro n
    exact ⟨_, List.getElem?_eq_getElem (by omega)⟩
  choose e he using hget
  have hmem : ∀ n, e n ∈ ts := fun n => List.mem_of_getElem? (he n)
  refine ⟨e, ⟨?_, fun n => (hr.of_mem (hmem n)).1, fun n => ?_, fun n => hC _ (hmem n)⟩, ?_⟩
  · have h0 := he 0
    rw [Nat.zero_mod] at h0
    exact hr.oldest h0
  · have hn := he n
    have hn' := he (n + 1)
    have hlt := Nat.mod_lt n hne
    by_cases hlast : n % ts.length + 1 < ts.length
    · -- inside the loop
      have hmod : (n + 1) % ts.length = n % ts.length + 1 := by
        rw [Nat.add_mod, Nat.mod_eq_of_lt (a := 1) (by omega), Nat.mod_eq_of_lt hlast]
      refine hr.neighbours ?_ hn'
      rwa [show ts.length - 1 - (n + 1) % ts.length + 1 = ts.length - 1 - n % ts.length by omega]
    · -- at its end: the newest transition, and then the oldest
      have hend : n % ts.length = ts.length - 1 := by omega
      have hmod : (n + 1) % ts.length = 0 := by
        rw [← Nat.mod_add_div n ts.length, hend, Nat.add_right_comm, Nat.sub_add_cancel hne,
          Nat.add_mul_mod_self_left, Nat.mod_self]
      rw [hend, Nat.sub_self] at hn
      rw [hmod] at hn'
      rw [hr.newest hn]
      exact hr.oldest hn'
  · intro t ht
    obtain ⟨i, hi⟩ := List.getElem?_of_mem ht
    obtain ⟨hlt, -⟩ := List.getElem?_eq_some_iff.mp hi
    rw [Filter.frequently_atTop]
    intro n
    refine ⟨ts.length * n + (ts.length - 1 - i), ?_, ?_⟩
    · have := Nat.le_mul_of_pos_left n hne
      omega
    · have hm := he (ts.length * n + (ts.length - 1 - i))
      rw [Nat.mul_add_mod, Nat.mod_eq_of_lt (by omega),
        show ts.length - 1 - (ts.length - 1 - i) = i by omega, hi] at hm
      exact (Option.some.inj hm).symm

/-- **A cycle, gone round for ever**: it passes its start, and takes the step picked out on its way,
    infinitely often. -/
theorem of_cycle {a : α} {n n' : ℕ} (hin : Within step C n s m) (hstep : step m a = some m')
    (hC : C ⟨m, a, m'⟩) (hout : Within step C n' m' s) :
    ∃ e, Endless step C s e ∧ (∃ᶠ i in Filter.atTop, (e i).pre = s) ∧
      ∃ᶠ i in Filter.atTop, e i = ⟨m, a, m'⟩ := by
  obtain ⟨us, hr, hCu, -⟩ := hin
  obtain ⟨us', hr', hCu', -⟩ := hout
  have hloop := (hr.next hstep).append hr'
  have hne : 0 < (us' ++ ⟨m, a, m'⟩ :: us).length := by
    rw [List.length_append, List.length_cons]
    omega
  have hall : ∀ t ∈ us' ++ ⟨m, a, m'⟩ :: us, C t := by
    intro t ht
    rcases List.mem_append.mp ht with ht | ht
    · exact hCu' t ht
    · rcases List.mem_cons.mp ht with rfl | ht
      · exact hC
      · exact hCu t ht
  obtain ⟨e, he, hrec⟩ := of_loop hloop hall hne
  refine ⟨e, he, ?_, hrec _ (List.mem_append_right _ List.mem_cons_self)⟩
  have hold := List.getElem?_eq_getElem (Nat.sub_lt hne Nat.one_pos)
  exact (hrec _ (List.mem_of_getElem? hold)).mono fun i hi => hi ▸ hloop.oldest hold

/-! ## 4. What an execution comes to -/

/-- **The induction rule**: what the start has and every permitted step keeps, all states have. -/
theorem invariant {I : σ → Prop} (h : Endless step C s e)
    (hI : ∀ t : Trans σ α, step t.pre t.act = some t.post → C t → I t.pre → I t.post)
    (hs : I s) (n : ℕ) : I (e n).pre := by
  induction n with
  | zero =>
      rw [h.start]
      exact hs
  | succ n ih =>
      rw [h.linked]
      exact hI _ (h.steps n) (h.permitted n) ih

/-- **A measure that no step raises runs out**, if after every state in which there is some of it
    left a step takes of it. -/
theorem runs_out (h : Endless step C s e) {f : σ → ℕ} (hf : ∀ n, f (e n).post ≤ f (e n).pre)
    (hfall : ∀ n, 0 < f (e n).pre → ∃ m, n ≤ m ∧ f (e m).post < f (e m).pre) :
    ∃ n, ∀ m, n ≤ m → f (e m).pre = 0 := by
  have hanti : Antitone fun n => f (e n).pre := antitone_nat_of_succ_le fun n => by
    show f (e (n + 1)).pre ≤ f (e n).pre
    rw [h.linked]
    exact hf n
  suffices hzero : ∀ k n, f (e n).pre = k → ∃ m, f (e m).pre = 0 by
    obtain ⟨n, hn⟩ := hzero _ 0 rfl
    exact ⟨n, fun m hm => Nat.eq_zero_of_le_zero (hn ▸ hanti hm)⟩
  intro k
  induction k using Nat.strongRecOn with
  | ind k ih =>
      intro n hn
      rcases Nat.eq_zero_or_pos k with h0 | hpos
      · exact ⟨n, hn.trans h0⟩
      · obtain ⟨m, hm, hlt⟩ := hfall n (hn ▸ hpos)
        have hle : f (e m).pre ≤ k := hn ▸ hanti hm
        refine ih (f (e (m + 1)).pre) ?_ (m + 1) rfl
        rw [h.linked]
        omega

end Endless

end AtomicSync
