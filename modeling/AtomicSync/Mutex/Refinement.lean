/-
  File:      AtomicSync/Mutex/Refinement.lean
  Subject:   The spinning mutex carries out an abstract mutex.

  `Owned` is a value and the one slot, if any, that owns it; only the owner stores, and only the
  owner gives it back. It knows no cell and no signal. A call of the machine takes effect in the
  exchange that succeeds, a guard's drop in its release (`takesEffect`); loads, failed exchanges
  and polls are no operation.

  * **`refines_owned`** -- the machine simulates the abstract mutex;
  * `mutex_history` -- so the operations along a run, in their order, are lock, stores and unlock
    of one slot after another, on the value the previous one left;
  * `performs_owned` -- and each operation of the abstract mutex can be performed;
  * **`mutex_histories`** -- so the histories of the machine are those of the abstract mutex.
-/
import AtomicSync.Lib.Simulation
import AtomicSync.Mutex.Serial

namespace AtomicSync.Mutex

variable {V ι T : Type}

/-! ## 1. The abstract mutex -/

/-- A value and its owner. -/
structure Owned (ι T : Type) where
  owner : Option ι
  value : T
  deriving DecidableEq, Repr

/-- The operations of a mutex, by the slot that performs them. -/
inductive Op (ι T : Type) where
  | lock (i : ι)
  | unlock (i : ι)
  | store (i : ι) (v : T)
  deriving DecidableEq, Repr

/-- **The abstract mutex.** -/
def Owned.next [DecidableEq ι] (a : Owned ι T) : Op ι T → Option (Owned ι T)
  | .lock i => if a.owner = none then some { a with owner := some i } else none
  | .unlock i => if a.owner = some i then some { a with owner := none } else none
  | .store i v => if a.owner = some i then some { a with value := v } else none

/-! ## 2. The machine -/

variable {S : MutexSignal V}

/-- **The state stands for the owned value**: the cell and the guards are as the invariant says,
    the guard is the owner's, the data the value. -/
structure Represents (S : MutexSignal V) (v₀ : V) (s : Config V ι T) (a : Owned ι T) : Prop where
  serial : Serial S v₀ s
  owner : ∀ i, s.slots i = .guard ↔ a.owner = some i
  value : s.value = a.value

/-- Where nobody holds the mutex, the owned value has no owner. -/
theorem Represents.free {v₀ : V} {s : Config V ι T} {a : Owned ι T} (hR : Represents S v₀ s a)
    (hn : ∀ j, s.slots j ≠ .guard) : a.owner = none :=
  Option.eq_none_iff_forall_ne_some.mpr fun i hi => hn i ((hR.owner i).mpr hi)

variable [DecidableEq V]

/-- The operation that takes effect in a transition. -/
def takesEffect (t : Trans (Config V ι T) (Act ι T)) : Option (Op ι T) :=
  match t.act with
  | .run i (.attempt _) => if t.post.slots i = .guard then some (.lock i) else none
  | .run i .drop => some (.unlock i)
  | .store i v => some (.store i v)
  | _ => none

/-- A transition without a guard gained, dropped or used is no operation. -/
theorem takesEffect_silent {t : Trans (Config V ι T) (Act ι T)} {b : Action} {i : ι}
    (ha : t.act = .run i b) (hb : b ≠ .drop) (hi : t.post.slots i ≠ .guard) :
    takesEffect t = none := by
  unfold takesEffect
  rw [ha]
  cases b with
  | attempt spurious => exact if_neg hi
  | drop => exact absurd rfl hb
  | _ => rfl

variable [DecidableEq ι]

/-- **The machine carries out the abstract mutex**, whatever the calls have read and whichever
    weak exchanges fail. -/
theorem refines_owned (hS : S.Lawful) {v₀ : V} (h0 : S.isReleased v₀ = true) :
    Simulates (step (ι := ι) (T := T) S) (fun _ => True) takesEffect Owned.next
      (Represents S v₀) where
  action := by
    intro t h _ a op hR hl
    have hs := serial_step hS h0 h hR.serial
    cases step_effect h with
    | acquired i ha hr hi hg hc hv =>
        have hfree := hR.free (hR.serial.free_of_released hS h0 hr).1
        have hop : op = .lock i := by
          have hpost := (hg i).mpr (Or.inl rfl)
          simpa [takesEffect, ha, hpost, eq_comm] using hl
        subst hop
        refine ⟨_, if_pos hfree, hs, fun j => ?_, hv.trans hR.value⟩
        rw [hg j, hR.owner j, hfree]
        simp [eq_comm]
    | dropped i ha hi hg hc hv =>
        have hown := (hR.owner i).mp hi
        have hop : op = .unlock i := by simpa [takesEffect, ha, eq_comm] using hl
        subst hop
        refine ⟨_, if_pos hown, hs, fun j => ?_, hv.trans hR.value⟩
        rw [hg j, hR.owner j, hown]
        simp [eq_comm]
    | stored i v ha hi hpost =>
        have hown := (hR.owner i).mp hi
        have hop : op = .store i v := by simpa [takesEffect, ha, eq_comm] using hl
        subst hop
        refine ⟨_, if_pos hown, hs, fun j => ?_, ?_⟩
        · rw [hpost]
          exact hR.owner j
        · rw [hpost]
    | silent b i ha hb hi hg hc hv =>
        rw [takesEffect_silent ha hb hi] at hl
        cases hl
  silent := by
    intro t h _ a hR hl
    have hs := serial_step hS h0 h hR.serial
    cases step_effect h with
    | acquired i ha hr hi hg hc hv =>
        have hpost := (hg i).mpr (Or.inl rfl)
        simp [takesEffect, ha, hpost] at hl
    | dropped i ha hi hg hc hv => simp [takesEffect, ha] at hl
    | stored i v ha hi hpost => simp [takesEffect, ha] at hl
    | silent b i ha hb hi hg hc hv =>
        exact ⟨hs, fun j => (hg j).trans (hR.owner j), hv.trans hR.value⟩

/-- **The history of a run**: the operations that take effect along it, in their order, are
    operations of the abstract mutex from the free one on; its owner is the slot that holds the
    guard, its value the data. -/
theorem mutex_history (hS : S.Lawful) {v₀ : V} (h0 : S.isReleased v₀ = true) {d : T}
    {ts : List (Trans (Config V ι T) (Act ι T))} {s : Config V ι T}
    (hr : Run (step S) (init ι v₀ d) ts s) :
    ∃ us a, Run Owned.next ⟨none, d⟩ us a ∧ us.map Trans.act = ts.filterMap takesEffect ∧
      (∀ i, s.slots i = .guard ↔ a.owner = some i) ∧ s.value = a.value := by
  have hinit : Represents S v₀ (init ι v₀ d) ⟨none, d⟩ :=
    ⟨serial_init v₀ d, fun i => iff_of_false nofun nofun, rfl⟩
  obtain ⟨us, a, hrun, hR, hacts⟩ := (refines_owned hS h0).run hinit hr fun _ _ => trivial
  exact ⟨us, a, hrun, hacts, hR.owner, hR.value⟩

/-! ## 3. Every history -/

/-- Nobody is under way. -/
def Resting (s : Config V ι T) : Prop := ∀ i, s.slots i = .idle ∨ s.slots i = .guard

omit [DecidableEq V] in
/-- A slot that comes to rest. -/
theorem resting_put {s s' : Config V ι T} (hs : Resting s) {i : ι} {c : Slot V}
    (hc : c = .idle ∨ c = .guard) (h : s'.slots = Function.update s.slots i c) : Resting s' := by
  intro j
  rw [h]
  by_cases hj : j = i
  · subst hj
    rw [Function.update_self]
    exact hc
  · rw [Function.update_of_ne hj]
    exact hs j

/-- A released cell, read and exchanged at once, gives the guard. -/
theorem locks (S : MutexSignal V) {s : Config V ι T} (hr : S.isReleased s.state = true) {i : ι}
    (hi : s.slots i = .idle) :
    ∃ us s', Run (step S) s us s' ∧ us.filterMap takesEffect = [.lock i] ∧
      s'.slots = Function.update s.slots i .guard := by
  let s₁ := s.put i (.loading .lock)
  let s₂ := s₁.put i (.trying .lock s.state)
  let s₃ : Config V ι T := { s₂.put i .guard with state := S.makeAcquired s.state }
  have h1 : step S s (.run i (.call .lock)) = some s₁ := by simp [step, hi, s₁]
  have h2 : step S s₁ (.run i .load) = some s₂ := by simp [step, s₁, s₂, Config.put]
  have h3 : step S s₂ (.run i (.attempt false)) = some s₃ := by
    simp [step, s₁, s₂, s₃, Config.put, Config.attempt,
      Atomics.tryOnceCompareExchangeWeak, hr]
  refine ⟨_, s₃, ((Run.start.next h1).next h2).next h3, ?_, ?_⟩
  · simp [takesEffect, s₃]
  · simp [s₁, s₂, s₃, Config.put]

/-- **Each operation of the abstract mutex can be performed** where nobody is under way. -/
theorem performs_owned (hS : S.Lawful) {v₀ : V} (h0 : S.isReleased v₀ = true) :
    Performs (step (ι := ι) (T := T) S) takesEffect Owned.next
      (fun s a => Represents S v₀ s a ∧ Resting s) := by
  refine (refines_owned hS h0).performs fun s a op a' hR hrest hnext => ?_
  cases op with
  | lock i =>
      have hfree : a.owner = none := by
        by_contra hne
        simp [Owned.next, hne] at hnext
      have hno : ∀ j, s.slots j ≠ .guard := by
        intro j hj
        rw [hR.owner j, hfree] at hj
        cases hj
      have hr : S.isReleased s.state = true := by
        cases hR.serial with
        | free _ hc => rwa [hc]
        | held j hj _ _ => exact absurd hj (hno j)
      obtain ⟨us, s', hrun, hlabel, hslots⟩ := locks S hr ((hrest i).resolve_right (hno i))
      exact ⟨us, s', hrun, fun _ _ => trivial, hlabel, resting_put hrest (Or.inr rfl) hslots⟩
  | unlock i =>
      have hown : a.owner = some i := by
        by_contra hne
        simp [Owned.next, hne] at hnext
      have hstep : step S s (.run i .drop) = some (s.dropGuard S i) := by
        simp [step, (hR.owner i).mpr hown]
      exact ⟨_, _, Run.start.next hstep, fun _ _ => trivial, rfl,
        resting_put hrest (Or.inl rfl) rfl⟩
  | store i v =>
      have hown : a.owner = some i := by
        by_contra hne
        simp [Owned.next, hne] at hnext
      have hstep : step S s (.store i v) = some { s with value := v } := by
        simp [step, (hR.owner i).mpr hown]
      exact ⟨_, _, Run.start.next hstep, fun _ _ => trivial, rfl, hrest⟩

/-- **The histories of the machine are the histories of the abstract mutex**: what takes effect
    along a run, in its order, is a run of the abstract mutex on the same data, and every run of
    the abstract mutex is what takes effect along some run. -/
theorem mutex_histories (hS : S.Lawful) {v₀ : V} (h0 : S.isReleased v₀ = true) {d : T}
    (ops : List (Op ι T)) (v : T) :
    (∃ ts s, Run (step S) (init ι v₀ d) ts s ∧ ts.filterMap takesEffect = ops ∧ s.value = v) ↔
      ∃ us a, Run Owned.next ⟨none, d⟩ us a ∧ us.map Trans.act = ops ∧ a.value = v := by
  constructor
  · rintro ⟨ts, s, hr, rfl, rfl⟩
    obtain ⟨us, a, hrun, hacts, -, hv⟩ := mutex_history hS h0 hr
    exact ⟨us, a, hrun, hacts, hv.symm⟩
  · rintro ⟨us, a, hr, rfl, rfl⟩
    have hinit : Represents S v₀ (init ι v₀ d) ⟨none, d⟩ ∧ Resting (init ι v₀ d) :=
      ⟨⟨serial_init v₀ d, fun i => iff_of_false nofun nofun, rfl⟩, fun _ => Or.inl rfl⟩
    obtain ⟨ts, s, hrun, hacts, hR, -⟩ := (performs_owned hS h0).run hinit hr
    exact ⟨ts, s, hrun, hacts, hR.value⟩

/-- An address as the cell: two holders, the second one on the value the first one left. -/
theorem mutex_histories_address :
    ∃ ts s, Run (step (ptrAsMutexSignal 8)) (init (Fin 2) 0x10#8 0) ts s ∧
      ts.filterMap takesEffect = [.store 1 8, .lock 1, .unlock 0, .store 0 7, .lock 0] ∧
      s.value = 8 := by
  refine (mutex_histories (ptr_lawful (by decide)) (by decide) _ _).mpr ?_
  obtain ⟨us, a, hr, hacts⟩ := Run.of_exec Owned.next (⟨none, 0⟩ : Owned (Fin 2) ℕ)
    [.lock 0, .store 0 7, .unlock 0, .lock 1, .store 1 8]
    (fun us a => us.map Trans.act = [.store 1 8, .lock 1, .unlock 0, .store 0 7, .lock 0] ∧
      a.value = 8) (by decide)
  exact ⟨us, a, hr, hacts⟩

end AtomicSync.Mutex
