/-
  File:      AtomicSync/RwLock/Machine.lean
  Subject:   The lock and its users as one machine: guards, calls in progress, atomic steps.

  The users are a finite family of SLOTS (`ι`): the variables of all threads that can hold a
  guard or run a call on the lock. Which thread a slot belongs to plays no role -- any
  interleaving of any number of threads is a run over enough slots. A slot holds at most one
  guard or one call; a step of the machine is one atomic step of one slot:

  * an acquisition is a call (`Slot.calling`) whose attempt makes the update of the `try_*`
    method. A refused `try_write` has its second update still to make (`Slot.refused`). The
    blocking tasks repeat the attempt, asking the cancellation token in between
    (`Slot.polling`, the loop of `may_cancel_with_impl_`);
  * `UpgradableReaderGuard::try_upgrade` consumes the guard: after the granted update the moved
    guard is still to be dropped (`Slot.consuming`, `Action.dropMoved`);
  * `Upgrade` keeps the guard and lends it: the granted update puts a WriterGuard into a second
    slot, marked as borrowing from the first (`Origin.pinned`). While a call on an `Upgrade`
    runs, its slot is busy with it (`Slot.upgrading`, `Slot.upgradePolling`);
  * a release or downgrade destructs the guard in every case; where its predicate refuses the
    word, the word stays as it is (`unreachable!` or a failed `debug_assert!` in the source);
  * `Action.forget` is `mem::forget`; `Act.store` writes the data through a live WriterGuard.

  Nothing here restricts WHEN an `Upgrade` may be used while a WriterGuard it lent is alive:
  the inherent signatures do not. The trait-level borrow rule is a condition on runs
  (`BreaksBorrow`, Conditions.lean).
-/
import Mathlib.Data.Fintype.Basic
import AtomicSync.Lib.Run
import AtomicSync.RwLock.State

namespace AtomicSync.RwLock

/-! ## 1. What a slot holds -/

/-- The three acquisitions of `Acquire`. -/
inductive Call where
  | read
  | write
  | upgradableRead
  deriving DecidableEq, Repr

/-- One attempt (`try_read`, …) or a task that repeats it (`ReadTask::may_cancel_with`, …). -/
inductive Mode where
  | once
  | task
  deriving DecidableEq, Repr

/-- How a WriterGuard came about: from an acquisition, from the consuming `try_upgrade`, or
    from the pinned `Upgrade` in slot `u`, whose guard it borrows. -/
inductive Origin (ι : Type) where
  | acquired
  | consumed
  | pinned (u : ι)
  deriving DecidableEq, Repr

/-- The contents of a slot. -/
inductive Slot (ι : Type) where
  | idle
  /-- an acquisition, about to make its attempt -/
  | calling (k : Call) (m : Mode)
  /-- `try_write` between its refused first update and its second -/
  | refused (m : Mode)
  /-- a task whose attempt failed, about to ask the token -/
  | polling (k : Call)
  | reader
  | upgradable
  /-- an `Upgrade`, holding its UpgradableReaderGuard -/
  | upgrade
  /-- an `Upgrade` with a call on it, about to make its attempt -/
  | upgrading (m : Mode)
  /-- an `UpgradeTask` whose attempt failed, about to ask the token -/
  | upgradePolling
  /-- the consuming `try_upgrade` after its update: the WriterGuard exists, the moved
      UpgradableReaderGuard is not yet dropped -/
  | consuming
  | writer (o : Origin ι)
  deriving DecidableEq, Repr

/-- What one slot does in one step. -/
inductive Action where
  | call (k : Call) (m : Mode)
  | attempt
  | queue
  | poll (cancelled : Bool)
  | tryUpgrade
  | dropMoved
  | upgrade
  | intoGuard
  | startUpgrade (m : Mode)
  | downgradeToReader
  | downgradeToUpgradable
  | downgrade
  | drop
  | forget
  deriving DecidableEq, Repr

/-- A step of one slot on the word: a move that leaves the word alone, or one update with the
    slot's contents after it is granted and after it is refused. -/
inductive Instr (ι : Type) where
  | move (c : Slot ι)
  | update (u : Update) (granted refused : Slot ι)
  deriving DecidableEq, Repr

variable {w : ℕ} {ι T : Type}

/-! ## 2. The methods of `Acquire` and of the guards -/

/-- What a caller does with `None` from its attempt: a `try_*` call returns it, the loop of
    `may_cancel_with_impl_` asks the token. -/
def refusal (k : Call) : Mode → Slot ι
  | .once => .idle
  | .task => .polling k

/-- The end of the loop body of `may_cancel_with_impl_`. -/
def mayCancelWithPoll (k : Call) (cancelled : Bool) : Slot ι :=
  if cancelled then .idle else .calling k .task

/-- The end of the loop body of `UpgradeTask::may_cancel_with`. -/
def upgradeTaskPoll (cancelled : Bool) : Slot ι :=
  if cancelled then .upgrade else .upgrading .task

/-- What a caller of the pinned upgrade is left with after a refused attempt. -/
def upgradeRefusal : Mode → Slot ι
  | .once => .upgrade
  | .task => .upgradePolling

namespace Acquire

def tryRead (m : Mode) : Instr ι := .update .tryRead .reader (refusal .read m)

def tryWrite (m : Mode) : Instr ι := .update .tryWrite (.writer .acquired) (.refused m)

/-- The second half of a refused `try_write`; the result of its update is discarded. -/
def tryWriteQueue (m : Mode) : Instr ι :=
  .update .tryWriteQueue (refusal .write m) (refusal .write m)

def tryUpgradableRead (m : Mode) : Instr ι :=
  .update .tryUpgradableRead .upgradable (refusal .upgradableRead m)

def downgradeWriterToReader : Instr ι := .update .downgradeWriteToRead .reader .idle

def downgradeWriterToUpgradable : Instr ι := .update .downgradeWriteToUpgradable .upgradable .idle

def downgradeUpgradableToReader : Instr ι := .update .downgradeUpgradableToRead .reader .idle

/-- `try_upgrade_to_writer` up to its update: on success the moved guard is still alive. -/
def tryUpgradeToWriter : Instr ι := .update .upgradeUpgradableToWrite .consuming .upgradable

/-- The implicit drop of the moved guard as `try_upgrade_to_writer` returns. -/
def dropMovedGuard : Instr ι := .update .upgradableReadDrop (.writer .consumed) (.writer .consumed)

def dropReaderGuard : Instr ι := .update .decreaseReaderCount .idle .idle

def dropWriterGuard : Instr ι := .update .writerGuardDrop .idle .idle

def dropUpgradableReadGuard : Instr ι := .update .upgradableReadDrop .idle .idle

end Acquire

/-- The step a slot's contents allow for an action, if any. -/
def Slot.instr : Slot ι → Action → Option (Instr ι)
  | .idle, .call k m => some (.move (.calling k m))
  | .calling .read m, .attempt => some (Acquire.tryRead m)
  | .calling .write m, .attempt => some (Acquire.tryWrite m)
  | .calling .upgradableRead m, .attempt => some (Acquire.tryUpgradableRead m)
  | .refused m, .queue => some (Acquire.tryWriteQueue m)
  | .polling k, .poll c => some (.move (mayCancelWithPoll k c))
  | .reader, .drop => some Acquire.dropReaderGuard
  | .reader, .forget => some (.move .idle)
  | .upgradable, .tryUpgrade => some Acquire.tryUpgradeToWriter
  | .upgradable, .upgrade => some (.move .upgrade)
  | .upgradable, .downgrade => some Acquire.downgradeUpgradableToReader
  | .upgradable, .drop => some Acquire.dropUpgradableReadGuard
  | .upgradable, .forget => some (.move .idle)
  | .upgrade, .intoGuard => some (.move .upgradable)
  | .upgrade, .startUpgrade m => some (.move (.upgrading m))
  | .upgrade, .drop => some Acquire.dropUpgradableReadGuard
  | .upgrade, .forget => some (.move .idle)
  | .upgradePolling, .poll c => some (.move (upgradeTaskPoll c))
  | .consuming, .dropMoved => some Acquire.dropMovedGuard
  | .writer _, .downgradeToReader => some Acquire.downgradeWriterToReader
  | .writer _, .downgradeToUpgradable => some Acquire.downgradeWriterToUpgradable
  | .writer _, .drop => some Acquire.dropWriterGuard
  | .writer _, .forget => some (.move .idle)
  | _, _ => none

/-! ## 3. The machine -/

/-- `SpinningRwLock`: the state word and the data. -/
structure SpinningRwLock (w : ℕ) (T : Type) where
  stat : BitVec w
  data : T
  deriving DecidableEq

/-- The lock together with everything its users hold. -/
structure Config (w : ℕ) (ι T : Type) extends SpinningRwLock w T where
  slots : ι → Slot ι

/-- A step: an action of one slot, the attempt of the `Upgrade` in slot `i` with the
    WriterGuard put into slot `j`, or a store through the WriterGuard in slot `i`. -/
inductive Act (ι T : Type) where
  | run (i : ι) (a : Action)
  | attemptUpgrade (i j : ι)
  | store (i : ι) (v : T)
  deriving DecidableEq, Repr

/-- The two steps of a one-shot acquisition in slot `i`. -/
def acquire (k : Call) (i : ι) : List (Act ι T) := [.run i (.call k .once), .run i .attempt]

/-- `SpinningRwLock::new_owned`, before anybody acquires. -/
def init (w : ℕ) (ι : Type) {T : Type} (d : T) : Config w ι T := ⟨⟨0#w, d⟩, fun _ => .idle⟩

variable [DecidableEq ι]

/-- Slot `i` now holds `c`. -/
def Config.put (s : Config w ι T) (i : ι) (c : Slot ι) : Config w ι T :=
  { s with slots := Function.update s.slots i c }

@[simp] theorem Config.put_slots_self (s : Config w ι T) (i : ι) (c : Slot ι) :
    (s.put i c).slots i = c := by simp [Config.put]

theorem Config.put_slots_of_ne (s : Config w ι T) {i j : ι} (h : j ≠ i) (c : Slot ι) :
    (s.put i c).slots j = s.slots j := by simp [Config.put, h]

/-- Slot `i` performs an instruction. -/
def Config.perform (s : Config w ι T) (i : ι) : Instr ι → Config w ι T
  | .move c => s.put i c
  | .update u granted refused =>
    match u.run s.stat with
    | some stat' => { s.put i granted with stat := stat' }
    | none => s.put i refused

/-- `Acquire::try_upgrade_pinned_to_writer` on the `Upgrade` in slot `i`: a granted update
    leaves the `Upgrade` where it is and puts the WriterGuard into slot `j`. -/
def Config.tryUpgradePinned (s : Config w ι T) (i j : ι) (m : Mode) : Config w ι T :=
  match Update.upgradeUpgradableToWrite.run s.stat with
  | some stat' => { (s.put i .upgrade).put j (.writer (.pinned i)) with stat := stat' }
  | none => s.put i (upgradeRefusal m)

/-- **One step of the machine.** -/
def step (s : Config w ι T) : Act ι T → Option (Config w ι T)
  | .run i a => ((s.slots i).instr a).map (s.perform i)
  | .attemptUpgrade i j =>
    match s.slots i, s.slots j with
    | .upgrading m, .idle => some (s.tryUpgradePinned i j m)
    | _, _ => none
  | .store i v =>
    match s.slots i with
    | .writer _ => some { s with data := v }
    | _ => none

/-- The six shapes of a step, with everything it required and everything it changed. -/
inductive StepCase (s : Config w ι T) : Act ι T → Config w ι T → Prop where
  | move (i : ι) (a : Action) (c : Slot ι) (hi : (s.slots i).instr a = some (.move c)) :
      StepCase s (.run i a) (s.put i c)
  | granted (i : ι) (a : Action) (u : Update) (g r : Slot ι) (stat' : BitVec w)
      (hi : (s.slots i).instr a = some (.update u g r)) (hu : u.run s.stat = some stat') :
      StepCase s (.run i a) { s.put i g with stat := stat' }
  | refused (i : ι) (a : Action) (u : Update) (g r : Slot ι)
      (hi : (s.slots i).instr a = some (.update u g r)) (hu : u.run s.stat = none) :
      StepCase s (.run i a) (s.put i r)
  | lent (i j : ι) (m : Mode) (stat' : BitVec w) (hi : s.slots i = .upgrading m)
      (hj : s.slots j = .idle) (hu : Update.upgradeUpgradableToWrite.run s.stat = some stat') :
      StepCase s (.attemptUpgrade i j)
        { (s.put i .upgrade).put j (.writer (.pinned i)) with stat := stat' }
  | notLent (i j : ι) (m : Mode) (hi : s.slots i = .upgrading m)
      (hj : s.slots j = .idle) (hu : Update.upgradeUpgradableToWrite.run s.stat = none) :
      StepCase s (.attemptUpgrade i j) (s.put i (upgradeRefusal m))
  | store (i : ι) (o : Origin ι) (v : T) (hi : s.slots i = .writer o) :
      StepCase s (.store i v) { s with data := v }

/-- **The inversion of a step.** -/
theorem step_cases {s s' : Config w ι T} {a : Act ι T} (h : step s a = some s') :
    StepCase s a s' := by
  cases a with
  | run i a =>
      obtain ⟨ins, hi, rfl⟩ := Option.map_eq_some_iff.mp h
      cases ins with
      | move c => exact .move i a c hi
      | update u g r =>
          simp only [Config.perform]
          split
          · next stat' hu => exact .granted i a u g r stat' hi hu
          · next hu => exact .refused i a u g r hi hu
  | attemptUpgrade i j =>
      simp only [step] at h
      split at h
      · next m hi hj =>
        cases h
        simp only [Config.tryUpgradePinned]
        split
        · next stat' hu => exact .lent i j m stat' hi hj hu
        · next hu => exact .notLent i j m hi hj hu
      · cases h
  | store i v =>
      simp only [step] at h
      split at h
      · next o hi =>
        cases h
        exact .store i o v hi
      · cases h

/-- A shape of a step is one. -/
theorem step_of_case {s s' : Config w ι T} {a : Act ι T} (h : StepCase s a s') :
    step s a = some s' := by
  cases h with
  | move i b c hi => simp only [step, hi, Option.map_some, Config.perform]
  | granted i b u g r stat' hi hu => simp only [step, hi, Option.map_some, Config.perform, hu]
  | refused i b u g r hi hu => simp only [step, hi, Option.map_some, Config.perform, hu]
  | lent i j m stat' hi hj hu => simp only [step, hi, hj, Config.tryUpgradePinned, hu]
  | notLent i j m hi hj hu => simp only [step, hi, hj, Config.tryUpgradePinned, hu]
  | store i o v hi => simp only [step, hi]

/-- The update of the state word a step makes, if any. -/
def updateAt (s : Config w ι T) : Act ι T → Option Update
  | .run i a =>
    match (s.slots i).instr a with
    | some (.update u _ _) => some u
    | _ => none
  | .attemptUpgrade _ _ => some .upgradeUpgradableToWrite
  | .store _ _ => none

omit [DecidableEq ι] in
/-- An update is made by a row of the step table or by the pinned upgrade. -/
theorem instr_of_updateAt {s : Config w ι T} {a : Act ι T} {u : Update}
    (h : updateAt s a = some u) :
    (∃ i b g r, a = .run i b ∧ (s.slots i).instr b = some (.update u g r)) ∨
      ∃ i j, a = .attemptUpgrade i j ∧ u = .upgradeUpgradableToWrite := by
  cases a with
  | run i b =>
      simp only [updateAt] at h
      split at h
      · next u' g r hi =>
        cases h
        exact Or.inl ⟨i, b, g, r, rfl, hi⟩
      · cases h
  | attemptUpgrade i j =>
      cases h
      exact Or.inr ⟨i, j, rfl, rfl⟩
  | store i v => cases h

/-- The pinned upgrade is attempted on an `Upgrade` with a call on it. -/
theorem upgrading_of_step {s s' : Config w ι T} {i j : ι}
    (h : step s (.attemptUpgrade i j) = some s') : ∃ m, s.slots i = .upgrading m := by
  cases step_cases h with
  | lent i j m stat' hi hj hu => exact ⟨m, hi⟩
  | notLent i j m hi hj hu => exact ⟨m, hi⟩

end AtomicSync.RwLock
