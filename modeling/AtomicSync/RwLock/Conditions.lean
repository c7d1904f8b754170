/-
  File:      AtomicSync/RwLock/Conditions.lean
  Subject:   What a run of the lock may be asked not to do.

  The machine takes every step the inherent signatures permit. The classes of runs the theorems
  speak about are cut out by conditions on single transitions, all decidable:

  * `Overflows` -- a `try_upgradable_read` granted at the maximal reader count;
  * `BreaksBorrow` -- a step on an `Upgrade` that has lent a WriterGuard still alive, which the
    trait-level signatures rule out; `Reupgrades`, an upgrade among them;
  * `Leaks`, `LeaksWriter` -- `mem::forget`;
  * `DowngradesPinned` -- `downgrade_to_upgradable` on the WriterGuard of a pinned `Upgrade`;
  * `Disciplined` -- no leak, no broken borrow, no overflow and no such downgrade.
-/
import AtomicSync.RwLock.Ledger

namespace AtomicSync.RwLock

variable {w : ℕ} {ι T : Type}

/-- The transitions of the lock machine. -/
abbrev LockTrans (w : ℕ) (ι T : Type) := Trans (Config w ι T) (Act ι T)

/-- **A `try_upgradable_read` granted at the maximal reader count**: the predicate admits the
    word, the counter has no room. -/
def Overflows (t : LockTrans w ι T) : Prop :=
  updateAt t.pre t.act = some .tryUpgradableRead ∧
    Update.tryUpgradableRead.admits (maxReaderCount w) (fields t.pre.stat) = true ∧
    (fields t.pre.stat).count = maxReaderCount w

instance (t : LockTrans w ι T) : Decidable (Overflows t) := inferInstanceAs (Decidable (_ ∧ _ ∧ _))

/-! ## 1. Borrows -/

/-- The slot a step acts on; for the pinned upgrade, the slot of the `Upgrade`. -/
def actor : Act ι T → ι
  | .run i _ => i
  | .attemptUpgrade i _ => i
  | .store i _ => i

/-- The `Upgrade` in slot `i` has lent a WriterGuard that is still alive. -/
def Lent (s : Config w ι T) (i : ι) : Prop := ∃ j, s.slots j = .writer (.pinned i)

instance [Fintype ι] [DecidableEq ι] (s : Config w ι T) (i : ι) : Decidable (Lent s i) :=
  inferInstanceAs (Decidable (∃ j, s.slots j = .writer (.pinned i)))

/-- A step on an `Upgrade` while a WriterGuard it lent is alive. -/
def BreaksBorrow (t : LockTrans w ι T) : Prop := Lent t.pre (actor t.act)

instance [Fintype ι] [DecidableEq ι] (t : LockTrans w ι T) : Decidable (BreaksBorrow t) :=
  inferInstanceAs (Decidable (Lent _ _))

/-- An upgrade attempted, consuming or pinned, on an upgradable guard whose WriterGuard is
    still alive. -/
def Reupgrades (t : LockTrans w ι T) : Prop :=
  updateAt t.pre t.act = some .upgradeUpgradableToWrite ∧ Lent t.pre (actor t.act)

instance [Fintype ι] [DecidableEq ι] (t : LockTrans w ι T) : Decidable (Reupgrades t) :=
  inferInstanceAs (Decidable (_ ∧ _))

theorem not_reupgrades {t : LockTrans w ι T} (h : ¬ BreaksBorrow t) : ¬ Reupgrades t :=
  fun hR => h hR.2

/-! ## 2. Leaks -/

/-- The action is `mem::forget`. -/
def Act.forgets : Act ι T → Bool
  | .run _ .forget => true
  | _ => false

/-- A guard is leaked. -/
def Leaks (t : LockTrans w ι T) : Prop := t.act.forgets = true

instance (t : LockTrans w ι T) : Decidable (Leaks t) := inferInstanceAs (Decidable (_ = _))

/-- A WriterGuard is leaked. -/
def LeaksWriter (t : LockTrans w ι T) : Prop :=
  Leaks t ∧ (t.pre.slots (actor t.act)).holds .writer = true

instance (t : LockTrans w ι T) : Decidable (LeaksWriter t) := inferInstanceAs (Decidable (_ ∧ _))

theorem not_leaksWriter {t : LockTrans w ι T} (h : ¬ Leaks t) : ¬ LeaksWriter t := fun hl => h hl.1

/-! ## 3. Downgrades -/

/-- The WriterGuard a pinned `Upgrade` has lent is downgraded to an UpgradableReaderGuard while
    the `Upgrade`'s own guard is alive. -/
def DowngradesPinned (t : LockTrans w ι T) : Prop :=
  updateAt t.pre t.act = some .downgradeWriteToUpgradable ∧
    ∃ u, t.pre.slots (actor t.act) = .writer (.pinned u) ∧
      (t.pre.slots u).holds .upgradable = true

instance [Fintype ι] [DecidableEq ι] (t : LockTrans w ι T) : Decidable (DowngradesPinned t) :=
  inferInstanceAs (Decidable (_ ∧ _))

/-! ## 4. All together -/

/-- **A transition that does none of this**: what the meaning of the word rests on. -/
structure Disciplined (t : LockTrans w ι T) : Prop where
  leak : ¬ Leaks t
  borrow : ¬ BreaksBorrow t
  overflow : ¬ Overflows t
  pinned : ¬ DowngradesPinned t

end AtomicSync.RwLock
