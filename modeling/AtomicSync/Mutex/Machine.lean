/-
  File:      AtomicSync/Mutex/Machine.lean
  Subject:   The spinning mutex and its users as one machine, by single accesses of the cell.

  The users are a family of slots, each with at most one call or guard; nothing bounds their
  number. A call reads the cell once (`loading`) and works on what it read from then on:

  * `try_lock` makes one weak exchange against the value read and returns;
  * the loop of `try_spin_acquire_` (`lock`, waited for or cancelled) repeats it. Where the
    exchange fails it goes on with the value found; where the value it has is not a released
    one it keeps that value. Between two attempts it asks the token (`polling`);
  * dropping a guard makes the spinning exchange of `try_spin_release_` and discards the result;
  * `Act.store` writes the data through a live guard.
-/
import AtomicSync.Lib.Atomics
import AtomicSync.Lib.Run
import AtomicSync.Mutex.Signal

namespace AtomicSync.Mutex

open Atomics

/-- `try_lock`, or a `LockAcqTask`. -/
inductive Mode where
  | tryLock
  | lock
  deriving DecidableEq, Repr

/-- The contents of a slot; `current` is the value a call works on. -/
inductive Slot (V : Type) where
  | idle
  /-- a call, about to read the cell -/
  | loading (m : Mode)
  /-- about to make its weak exchange -/
  | trying (m : Mode) (current : V)
  /-- a task whose exchange did not succeed, about to ask the token -/
  | polling (current : V)
  | guard
  deriving DecidableEq, Repr

/-- What one slot does in one step; a weak exchange may fail spuriously. -/
inductive Action where
  | call (m : Mode)
  | load
  | attempt (spurious : Bool)
  | poll (cancelled : Bool)
  | drop
  deriving DecidableEq, Repr

/-- `SpinningMutex`: the cell and the data. -/
structure SpinningMutex (V T : Type) where
  state : V
  value : T
  deriving DecidableEq

/-- The mutex together with everything its users hold. -/
structure Config (V ι T : Type) extends SpinningMutex V T where
  slots : ι → Slot V

/-- A step of one slot, or a store through the guard in slot `i`. -/
inductive Act (ι T : Type) where
  | run (i : ι) (a : Action)
  | store (i : ι) (v : T)
  deriving DecidableEq, Repr

variable {V ι T : Type}

/-- A new mutex on a cell that holds `v₀`. -/
def init (ι : Type) (v₀ : V) (d : T) : Config V ι T := ⟨⟨v₀, d⟩, fun _ => .idle⟩

/-- What a call does after an exchange that did not succeed, with the value to go on with. -/
def retry (current : V) : Mode → Slot V
  | .tryLock => .idle
  | .lock => .polling current

/-- `try_spin_release_`; its result is discarded by the drop. -/
def trySpinRelease (S : MutexSignal V) (v : V) : Option V :=
  trySpinCompareExchangeWeak S.isAcquired S.makeReleased v

variable [DecidableEq ι]

/-- Slot `i` now holds `c`. -/
def Config.put (s : Config V ι T) (i : ι) (c : Slot V) : Config V ι T :=
  { s with slots := Function.update s.slots i c }

@[simp] theorem Config.put_slots_self (s : Config V ι T) (i : ι) (c : Slot V) :
    (s.put i c).slots i = c := by simp [Config.put]

theorem Config.put_slots_of_ne (s : Config V ι T) {i j : ι} (h : j ≠ i) (c : Slot V) :
    (s.put i c).slots j = s.slots j := by simp [Config.put, h]

/-- Dropping the guard in slot `i`. -/
def Config.dropGuard (S : MutexSignal V) (s : Config V ι T) (i : ι) : Config V ι T :=
  { s.put i .idle with state := (trySpinRelease S s.state).getD s.state }

variable [DecidableEq V]

/-- One weak exchange of a call in slot `i`. -/
def Config.attempt (S : MutexSignal V) (s : Config V ι T) (i : ι) (m : Mode) (current : V)
    (spurious : Bool) : Config V ι T :=
  match tryOnceCompareExchangeWeak S.isReleased S.makeAcquired spurious current s.state with
  | (.succ _, state') => { s.put i .guard with state := state' }
  | (.fail found, state') => { s.put i (retry found m) with state := state' }
  | (.unexpected _, state') => { s.put i (retry current m) with state := state' }

/-- **One step of the machine.** -/
def step (S : MutexSignal V) (s : Config V ι T) : Act ι T → Option (Config V ι T)
  | .run i a =>
    match s.slots i, a with
    | .idle, .call m => some (s.put i (.loading m))
    | .loading m, .load => some (s.put i (.trying m s.state))
    | .trying m current, .attempt spurious => some (s.attempt S i m current spurious)
    | .polling current, .poll cancelled =>
      some (s.put i (if cancelled then .idle else .trying .lock current))
    | .guard, .drop => some (s.dropGuard S i)
    | _, _ => none
  | .store i v =>
    match s.slots i with
    | .guard => some { s with value := v }
    | _ => none

/-- The shapes of a step, with everything it required and everything it changed. -/
inductive StepCase (S : MutexSignal V) (s : Config V ι T) : Act ι T → Config V ι T → Prop where
  | called (i : ι) (m : Mode) (hi : s.slots i = .idle) :
      StepCase S s (.run i (.call m)) (s.put i (.loading m))
  | loaded (i : ι) (m : Mode) (hi : s.slots i = .loading m) :
      StepCase S s (.run i .load) (s.put i (.trying m s.state))
  | acquired (i : ι) (m : Mode) (hi : s.slots i = .trying m s.state)
      (hr : S.isReleased s.state = true) :
      StepCase S s (.run i (.attempt false))
        { s.put i .guard with state := S.makeAcquired s.state }
  | failed (i : ι) (m : Mode) (current : V) (b : Bool) (hi : s.slots i = .trying m current)
      (hr : S.isReleased current = true) (hb : s.state = current → b = true) :
      StepCase S s (.run i (.attempt b)) (s.put i (retry s.state m))
  | refused (i : ι) (m : Mode) (current : V) (b : Bool) (hi : s.slots i = .trying m current)
      (hr : S.isReleased current = false) :
      StepCase S s (.run i (.attempt b)) (s.put i (retry current m))
  | polled (i : ι) (current : V) (b : Bool) (hi : s.slots i = .polling current) :
      StepCase S s (.run i (.poll b)) (s.put i (if b then .idle else .trying .lock current))
  | dropped (i : ι) (hi : s.slots i = .guard) : StepCase S s (.run i .drop) (s.dropGuard S i)
  | stored (i : ι) (v : T) (hi : s.slots i = .guard) :
      StepCase S s (.store i v) { s with value := v }

/-- **The inversion of a step.** -/
theorem step_cases {S : MutexSignal V} {s s' : Config V ι T} {a : Act ι T}
    (h : step S s a = some s') : StepCase S s a s' := by
  cases a with
  | run i a =>
      simp only [step] at h
      split at h
      · next m hi =>
        cases h
        exact .called i m hi
      · next m hi =>
        cases h
        exact .loaded i m hi
      · next m current b hi =>
        cases h
        unfold Config.attempt
        rcases tryOnce_cases S.isReleased S.makeAcquired b current s.state with
          ⟨hr, ⟨rfl, rfl⟩, ho⟩ | ⟨hr, hb, ho⟩ | ⟨hr, ho⟩
        · rw [ho]
          exact .acquired i m hi hr
        · rw [ho]
          exact .failed i m current b hi hr hb
        · rw [ho]
          exact .refused i m current b hi hr
      · next current b hi =>
        cases h
        exact .polled i current b hi
      · next hi =>
        cases h
        exact .dropped i hi
      · cases h
  | store i v =>
      simp only [step] at h
      split at h
      · next hi =>
        cases h
        exact .stored i v hi
      · cases h

/-- A step of another slot leaves this one as it is. -/
theorem slots_other {S : MutexSignal V} {s s' : Config V ι T} {a : Act ι T}
    (h : step S s a = some s') {i : ι} (hi : ∀ b, a ≠ .run i b) : s'.slots i = s.slots i := by
  have hput : ∀ {j b} c, a = .run j b → (s.put j c).slots i = s.slots i := by
    intro j b c ha
    refine Config.put_slots_of_ne s (fun e => ?_) c
    exact hi b (e ▸ ha)
  cases step_cases h with
  | stored j v hj => rfl
  | called j m hj => exact hput _ rfl
  | loaded j m hj => exact hput _ rfl
  | acquired j m hj hr => exact hput _ rfl
  | failed j m current b hj hr hb => exact hput _ rfl
  | refused j m current b hj hr => exact hput _ rfl
  | polled j current b hj => exact hput _ rfl
  | dropped j hj => exact hput _ rfl

end AtomicSync.Mutex
