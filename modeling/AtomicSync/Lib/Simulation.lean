/-
  File:      AtomicSync/Lib/Simulation.lean
  Subject:   One system carried out by another: forward simulation along runs.

  A concrete system `step` carries out an abstract one `next` when every concrete transition is
  either ONE abstract action or none at all. `label` says which: the action the transition takes
  effect as, or `none` for a transition the abstract system does not see.

  * `Simulates` -- the obligation for one transition, for those that meet the run's condition;
  * **`Simulates.run`** -- every run is an abstract run over the same history: its actions are
    the labels of the transitions, in the order in which they were taken;
  * `Performs`, `Performs.run` -- the converse: every abstract action can be performed, so every
    abstract run is the history of some run;
  * `Maps` -- the case in which the abstract state is a function `f` of the concrete one;
  * **`Maps.run`** -- every run IS an abstract run, transition by transition: what the abstract
    system keeps under a condition on its transitions holds of the concrete one (`Maps.invariant`).
-/
import AtomicSync.Lib.Run

namespace AtomicSync

variable {σ α τ β : Type*}

/-! ## 1. Simulations -/

/-- **A forward simulation** of `step` by `next` along the relation `R`. -/
structure Simulates (step : σ → α → Option σ) (C : Trans σ α → Prop)
    (label : Trans σ α → Option β) (next : τ → β → Option τ) (R : σ → τ → Prop) : Prop where
  /-- a labelled transition is its abstract action -/
  action : ∀ t : Trans σ α, step t.pre t.act = some t.post → C t → ∀ a b, R t.pre a →
    label t = some b → ∃ a', next a b = some a' ∧ R t.post a'
  /-- the others are none -/
  silent : ∀ t : Trans σ α, step t.pre t.act = some t.post → C t → ∀ a, R t.pre a →
    label t = none → R t.post a

namespace Simulates

variable {step : σ → α → Option σ} {C : Trans σ α → Prop} {label : Trans σ α → Option β}
  {next : τ → β → Option τ} {R : σ → τ → Prop} {s₀ s : σ} {a₀ : τ} {ts : List (Trans σ α)}

/-- **The induction rule of simulations**: a run of the concrete system is a run of the abstract
    one that takes the labelled actions, and the two end related. -/
theorem run (hS : Simulates step C label next R) (h0 : R s₀ a₀) (hr : Run step s₀ ts s)
    (hC : ∀ t ∈ ts, C t) :
    ∃ us a, Run next a₀ us a ∧ R s a ∧ us.map Trans.act = ts.filterMap label := by
  induction hr with
  | start => exact ⟨[], a₀, .start, h0, rfl⟩
  | next _ hs ih =>
      obtain ⟨us, a, hrun, hR, hlabels⟩ := ih fun t ht => hC t (List.mem_cons_of_mem _ ht)
      have hCt := hC _ List.mem_cons_self
      cases hl : label ⟨_, _, _⟩ with
      | none =>
          refine ⟨us, a, hrun, hS.silent _ hs hCt a hR hl, ?_⟩
          rw [List.filterMap_cons_none hl, hlabels]
      | some b =>
          obtain ⟨a', hnext, hR'⟩ := hS.action _ hs hCt a b hR hl
          refine ⟨_, a', hrun.next hnext, hR', ?_⟩
          rw [List.filterMap_cons_some hl, List.map_cons, hlabels]

end Simulates

/-! ## 2. Every abstract run -/

/-- **Every abstract action can be performed** in the states that `R` relates: some segment takes
    effect as that action and nothing else. -/
def Performs (step : σ → α → Option σ) (label : Trans σ α → Option β) (next : τ → β → Option τ)
    (R : σ → τ → Prop) : Prop :=
  ∀ s a b a', R s a → next a b = some a' →
    ∃ us s', Run step s us s' ∧ us.filterMap label = [b] ∧ R s' a'

/-- **Every abstract run is a history.** -/
theorem Performs.run {step : σ → α → Option σ} {label : Trans σ α → Option β}
    {next : τ → β → Option τ} {R : σ → τ → Prop} (hP : Performs step label next R) {s : σ}
    {a a' : τ} {us : List (Trans τ β)} (h0 : R s a) (hr : Run next a us a') :
    ∃ ts s', Run step s ts s' ∧ ts.filterMap label = us.map Trans.act ∧ R s' a' := by
  induction hr with
  | start => exact ⟨[], s, .start, rfl, h0⟩
  | next _ hs ih =>
      obtain ⟨ts, m, hrun, hlabels, hm⟩ := ih
      obtain ⟨vs, s', hrun', hlabel, hR⟩ := hP _ _ _ _ hm hs
      refine ⟨vs ++ ts, s', hrun.append hrun', ?_, hR⟩
      rw [List.filterMap_append, hlabel, hlabels]
      rfl

/-- A run of one action is that action. -/
theorem Run.of_single {next : τ → β → Option τ} {a a' : τ} {us : List (Trans τ β)} {b : β}
    (hr : Run next a us a') (hb : us.map Trans.act = [b]) : next a b = some a' := by
  cases hr with
  | start => cases hb
  | next hpre hs =>
      cases hpre with
      | start =>
          cases hb
          exact hs
      | next _ _ => cases hb

/-- **A simulation needs a segment with the right history only**: the simulation itself says where
    it leads. -/
theorem Simulates.performs {step : σ → α → Option σ} {C : Trans σ α → Prop}
    {label : Trans σ α → Option β} {next : τ → β → Option τ} {R : σ → τ → Prop} {Q : σ → Prop}
    (hS : Simulates step C label next R)
    (hP : ∀ s a b a', R s a → Q s → next a b = some a' →
      ∃ us s', Run step s us s' ∧ (∀ t ∈ us, C t) ∧ us.filterMap label = [b] ∧ Q s') :
    Performs step label next fun s a => R s a ∧ Q s := by
  intro s a b a' hRQ hnext
  obtain ⟨us, s', hrun, hC, hlabel, hQ⟩ := hP s a b a' hRQ.1 hRQ.2 hnext
  obtain ⟨vs, m, hvs, hR, hacts⟩ := hS.run hRQ.1 hrun hC
  have hm := hvs.of_single (hacts.trans hlabel)
  obtain rfl := Option.some.inj (hnext.symm.trans hm)
  exact ⟨us, s', hrun, hlabel, hR, hQ⟩

/-! ## 3. Refinement mappings -/

section Maps

variable {step : σ → α → Option σ} {I : σ → Prop} {label : Trans σ α → Option β}
  {next : τ → β → Option τ} {f : σ → τ} {s₀ s : σ} {ts : List (Trans σ α)}

/-- What a run does in the system seen through `f`: its labelled transitions, the newest first. -/
def image (f : σ → τ) (label : Trans σ α → Option β) (ts : List (Trans σ α)) : List (Trans τ β) :=
  ts.filterMap fun t => (label t).map fun b => ⟨f t.pre, b, f t.post⟩

/-- **A refinement mapping** of `step` to `next`, under the invariant `I` of `step`. -/
structure Maps (step : σ → α → Option σ) (I : σ → Prop) (label : Trans σ α → Option β)
    (next : τ → β → Option τ) (f : σ → τ) : Prop where
  keeps : ∀ s a s', step s a = some s' → I s → I s'
  /-- a labelled transition is its abstract action, seen through `f` -/
  action : ∀ t : Trans σ α, step t.pre t.act = some t.post → I t.pre →
    ∀ b, label t = some b → next (f t.pre) b = some (f t.post)
  /-- the others cannot be seen -/
  silent : ∀ t : Trans σ α, step t.pre t.act = some t.post → I t.pre → label t = none →
    f t.post = f t.pre

/-- **A run, seen through `f`, is an abstract run.** -/
theorem Maps.run (hM : Maps step I label next f) (h0 : I s₀) (hr : Run step s₀ ts s) :
    I s ∧ Run next (f s₀) (image f label ts) (f s) := by
  induction hr with
  | start => exact ⟨h0, .start⟩
  | next _ hs ih =>
      obtain ⟨hI, hrun⟩ := ih
      refine ⟨hM.keeps _ _ _ hs hI, ?_⟩
      unfold image
      cases hl : label ⟨_, _, _⟩ with
      | none =>
          rw [List.filterMap_cons_none (by rw [hl]; rfl), hM.silent _ hs hI hl]
          exact hrun
      | some b =>
          rw [List.filterMap_cons_some (by rw [hl]; rfl)]
          exact hrun.next (hM.action _ hs hI b hl)

/-- What the abstract system keeps, the concrete one has, seen through `f`. -/
theorem Maps.invariant (hM : Maps step I label next f) (h0 : I s₀) (hr : Run step s₀ ts s)
    {J : τ → Prop} {C : Trans τ β → Prop} (hJ0 : J (f s₀))
    (hJ : ∀ t : Trans τ β, next t.pre t.act = some t.post → C t → J t.pre → J t.post)
    (hC : ∀ t ∈ image f label ts, C t) : J (f s) :=
  (hM.run h0 hr).2.invariant hJ0 hJ hC

end Maps

end AtomicSync
