/-
  File:      AtomicSync/RwLock/Fields.lean
  Subject:   The state word read as four fields, and what each update does to them.

  The word packs three flags above a counter: `fields s` reads it through the source's own
  predicates (as its `Debug` output does). The upper layer never looks at the word again:

  * `Update.admits`, `Update.effect` -- the update as a transition on the fields, the counter a
    natural number (what the update is FOR; the word's version is `Update.run`);
  * `Update.fits` -- the counter has room for the update: the whole-word `+ 1` or `- 1` stays
    inside its bits;
  * `Update.isSome_run`, **`Update.fields_run`** -- the word's update is granted exactly when
    the fields admit it, and where it fits it has exactly the effect on the fields.
-/
import AtomicSync.Lib.PackedWord
import AtomicSync.RwLock.State

namespace AtomicSync.RwLock

/-- The four fields of the state word. -/
@[ext]
structure Fields where
  writerActive : Bool
  writerQueued : Bool
  upgradeActive : Bool
  count : ℕ
  deriving DecidableEq, Repr

open RwLockState

variable {w : ℕ}

/-- The word, read through the source's predicates. -/
def fields (s : BitVec w) : Fields where
  writerActive := expectWriterActive s
  writerQueued := expectWriterQueued s
  upgradeActive := expectUpgradeActive s
  count := (getReaderCount s).toNat

/-- `K_MAX_READER_COUNT` as a number. -/
def maxReaderCount (w : ℕ) : ℕ := (kMaxReaderCount w).toNat

/-! ## 1. The word's fields are its bits -/

theorem expectWriterActive_eq (hw : 8 ≤ w) (s : BitVec w) :
    expectWriterActive s = s.getLsbD (w - 1) := PackedWord.and_twoPow_beq s (by omega)

theorem expectWriterQueued_eq (hw : 8 ≤ w) (s : BitVec w) :
    expectWriterQueued s = s.getLsbD (w - 2) := PackedWord.and_twoPow_beq s (by omega)

theorem expectUpgradeActive_eq (hw : 8 ≤ w) (s : BitVec w) :
    expectUpgradeActive s = s.getLsbD (w - 3) := PackedWord.and_twoPow_beq s (by omega)

theorem getReaderCount_toNat (hw : 8 ≤ w) (s : BitVec w) :
    (getReaderCount s).toNat = PackedWord.low (w - 3) s := by
  have h := PackedWord.toNat_and_low_mask s (k := w - 3) (by omega)
  have e : w - (w - 3) = 3 := by omega
  rwa [e] at h

theorem maxReaderCount_eq (hw : 8 ≤ w) : maxReaderCount w = 2 ^ (w - 3) - 1 := by
  have h := PackedWord.toNat_low_mask (w := w) (k := w - 3) (by omega)
  have e : w - (w - 3) = 3 := by omega
  rwa [e] at h

theorem maxReaderCount_ge (hw : 8 ≤ w) : 31 ≤ maxReaderCount w := by
  have h : 2 ^ 5 ≤ 2 ^ (w - 3) := Nat.pow_le_pow_right (by omega) (by omega)
  rw [maxReaderCount_eq hw]
  omega

theorem count_le_max (hw : 8 ≤ w) (s : BitVec w) : (fields s).count ≤ maxReaderCount w := by
  have h := PackedWord.low_lt (w - 3) s
  show (getReaderCount s).toNat ≤ maxReaderCount w
  rw [getReaderCount_toNat hw, maxReaderCount_eq hw]
  omega

/-- The fields in terms of the bits: the form the bit lemmas rewrite. -/
theorem fields_eq (hw : 8 ≤ w) (s : BitVec w) :
    fields s = ⟨s.getLsbD (w - 1), s.getLsbD (w - 2), s.getLsbD (w - 3),
      PackedWord.low (w - 3) s⟩ := by
  unfold fields
  rw [expectWriterActive_eq hw, expectWriterQueued_eq hw, expectUpgradeActive_eq hw,
    getReaderCount_toNat hw]

/-- The fields determine the word. -/
theorem fields_injective (hw : 8 ≤ w) {s t : BitVec w} (h : fields s = fields t) : s = t := by
  rw [fields_eq hw, fields_eq hw] at h
  injection h with h1 h2 h3 h4
  refine PackedWord.ext_low_flags (w - 3) h4 fun j hk hj => ?_
  have hcases : j = w - 1 ∨ j = w - 2 ∨ j = w - 3 := by omega
  rcases hcases with rfl | rfl | rfl
  · exact h1
  · exact h2
  · exact h3

theorem fields_zero (hw : 8 ≤ w) : fields (0#w) = ⟨false, false, false, 0⟩ := by
  rw [fields_eq hw]
  simp [PackedWord.low]

/-! ## 2. The elementary transformations, on the fields -/

/-- Setting one flag: the test of every flag, and the counter, afterwards. -/
theorem fields_or_flag (hw : 8 ≤ w) (s : BitVec w) {j : ℕ} (hlo : w - 3 ≤ j) (hj : j < w) :
    fields (s ||| 1#w <<< j) =
      ⟨(fields s).writerActive || decide (j = w - 1), (fields s).writerQueued || decide (j = w - 2),
        (fields s).upgradeActive || decide (j = w - 3), (fields s).count⟩ := by
  rw [← BitVec.twoPow_eq, fields_eq hw, fields_eq hw s, PackedWord.low_or_twoPow s hlo]
  simp only [PackedWord.getLsbD_or_twoPow, hj, decide_true, Bool.true_and]

/-- Clearing one flag. -/
theorem fields_and_not_flag (hw : 8 ≤ w) (s : BitVec w) {j : ℕ} (hlo : w - 3 ≤ j) :
    fields (s &&& ~~~(1#w <<< j)) =
      ⟨(fields s).writerActive && !decide (j = w - 1), (fields s).writerQueued && !decide (j = w - 2),
        (fields s).upgradeActive && !decide (j = w - 3), (fields s).count⟩ := by
  rw [← BitVec.twoPow_eq, fields_eq hw, fields_eq hw s, PackedWord.low_and_not_twoPow s hlo]
  simp only [PackedWord.getLsbD_and_not_twoPow]

theorem flags_distinct (hw : 8 ≤ w) : w - 1 ≠ w - 2 ∧ w - 1 ≠ w - 3 ∧ w - 2 ≠ w - 3 :=
  ⟨by omega, by omega, by omega⟩

theorem fields_desireWriterActive (hw : 8 ≤ w) (s : BitVec w) :
    fields (desireWriterActive s) = { fields s with writerActive := true } := by
  obtain ⟨h12, h13, -⟩ := flags_distinct hw
  unfold desireWriterActive kWriterActive
  rw [fields_or_flag hw s (by omega) (by omega)]
  simp [h12, h13]

theorem fields_desireWriterInactive (hw : 8 ≤ w) (s : BitVec w) :
    fields (desireWriterInactive s) = { fields s with writerActive := false } := by
  obtain ⟨h12, h13, -⟩ := flags_distinct hw
  unfold desireWriterInactive kWriterActive
  rw [fields_and_not_flag hw s (by omega)]
  simp [h12, h13]

theorem fields_desireWriterQueued (hw : 8 ≤ w) (s : BitVec w) :
    fields (desireWriterQueued s) = { fields s with writerQueued := true } := by
  obtain ⟨h12, -, h23⟩ := flags_distinct hw
  unfold desireWriterQueued kWriterQueued
  rw [fields_or_flag hw s (by omega) (by omega)]
  simp [h12.symm, h23]

theorem fields_desireWriterNotQueued (hw : 8 ≤ w) (s : BitVec w) :
    fields (desireWriterNotQueued s) = { fields s with writerQueued := false } := by
  obtain ⟨h12, -, h23⟩ := flags_distinct hw
  unfold desireWriterNotQueued kWriterQueued
  rw [fields_and_not_flag hw s (by omega)]
  simp [h12.symm, h23]

theorem fields_desireUpgradeActive (hw : 8 ≤ w) (s : BitVec w) :
    fields (desireUpgradeActive s) = { fields s with upgradeActive := true } := by
  obtain ⟨-, h13, h23⟩ := flags_distinct hw
  unfold desireUpgradeActive kUpgradeActive
  rw [fields_or_flag hw s (by omega) (by omega)]
  simp [h13.symm, h23.symm]

theorem fields_desireUpgradeInactive (hw : 8 ≤ w) (s : BitVec w) :
    fields (desireUpgradeInactive s) = { fields s with upgradeActive := false } := by
  obtain ⟨-, h13, h23⟩ := flags_distinct hw
  unfold desireUpgradeInactive kUpgradeActive
  rw [fields_and_not_flag hw s (by omega)]
  simp [h13.symm, h23.symm]

/-- Plus one, below the maximum: the counter moves, no flag does. -/
theorem fields_desireIncReader (hw : 8 ≤ w) {s : BitVec w}
    (h : (fields s).count < maxReaderCount w) :
    fields (desireIncReader s) = { fields s with count := (fields s).count + 1 } := by
  rw [fields_eq hw s, maxReaderCount_eq hw] at h
  have hlt : PackedWord.low (w - 3) s + 1 < 2 ^ (w - 3) := by
    simp only at h
    omega
  unfold desireIncReader
  rw [fields_eq hw, fields_eq hw s, PackedWord.low_add_one (by omega) hlt,
    PackedWord.getLsbD_add_one (by omega) hlt (by omega),
    PackedWord.getLsbD_add_one (by omega) hlt (by omega),
    PackedWord.getLsbD_add_one (by omega) hlt (by omega)]

/-- Minus one, above zero: the counter moves, no flag does. -/
theorem fields_desireDecReader (hw : 8 ≤ w) {s : BitVec w} (h : 0 < (fields s).count) :
    fields (desireDecReader s) = { fields s with count := (fields s).count - 1 } := by
  rw [fields_eq hw s] at h
  unfold desireDecReader
  rw [fields_eq hw, fields_eq hw s, PackedWord.low_sub_one h,
    PackedWord.getLsbD_sub_one (by omega) h (by omega),
    PackedWord.getLsbD_sub_one (by omega) h (by omega),
    PackedWord.getLsbD_sub_one (by omega) h (by omega)]

/-! ## 3. The updates, on the fields -/

namespace Update

/-- When the fields admit the update; `m` is the maximal reader count. -/
def admits (m : ℕ) : Update → Fields → Bool
  | writerGuardDrop, f => f.writerActive
  | decreaseReaderCount, f => decide (0 < f.count)
  | tryRead, f => decide (f.count < m) && !f.writerQueued && !f.writerActive
  | tryWrite, f => decide (f.count = 0) && !f.writerActive
  | tryWriteQueue, f => !f.writerQueued
  | tryUpgradableRead, f => !f.writerQueued && !f.writerActive && !f.upgradeActive
  | upgradableReadDrop, f => f.upgradeActive
  | downgradeWriteToRead, f => f.writerActive
  | downgradeWriteToUpgradable, f => f.writerActive
  | downgradeUpgradableToRead, f => f.upgradeActive && !f.writerActive && decide (0 < f.count)
  | upgradeUpgradableToWrite, f => f.upgradeActive && decide (f.count = 1)

/-- What a granted update does to the fields. -/
def effect : Update → Fields → Fields
  | writerGuardDrop, f => { f with writerActive := false, writerQueued := false }
  | decreaseReaderCount, f => { f with count := f.count - 1 }
  | tryRead, f => { f with count := f.count + 1 }
  | tryWrite, f => { f with writerActive := true }
  | tryWriteQueue, f => { f with writerQueued := true }
  | tryUpgradableRead, f => { f with upgradeActive := true, count := f.count + 1 }
  | upgradableReadDrop, f => { f with upgradeActive := false, count := f.count - 1 }
  | downgradeWriteToRead, f => { f with writerActive := false, count := f.count + 1 }
  | downgradeWriteToUpgradable, f =>
    { f with writerActive := false, upgradeActive := true, count := f.count + 1 }
  | downgradeUpgradableToRead, f => { f with upgradeActive := false }
  | upgradeUpgradableToWrite, f => { f with writerActive := true }

/-- What the update adds to the reader count. -/
def gain : Update → ℕ
  | tryRead | tryUpgradableRead | downgradeWriteToRead | downgradeWriteToUpgradable => 1
  | _ => 0

/-- What the update takes off the reader count. -/
def loss : Update → ℕ
  | decreaseReaderCount | upgradableReadDrop => 1
  | _ => 0

/-- The counter has room for the update: nothing to borrow, nothing to carry. -/
def fits (m : ℕ) (u : Update) (f : Fields) : Prop := u.loss ≤ f.count ∧ f.count + u.gain ≤ m

instance (m : ℕ) (u : Update) (f : Fields) : Decidable (u.fits m f) :=
  inferInstanceAs (Decidable (_ ∧ _))

theorem getReaderCount_beq {n : ℕ} (hn : n < 2 ^ w) (s : BitVec w) :
    (getReaderCount s == BitVec.ofNat w n) = decide ((fields s).count = n) := by
  have hto : (BitVec.ofNat w n).toNat = n := by
    rw [BitVec.toNat_ofNat]
    exact Nat.mod_eq_of_lt hn
  rw [Bool.eq_iff_iff, beq_iff_eq, decide_eq_true_iff, BitVec.toNat_eq, hto]
  exact Iff.rfl

theorem getReaderCount_pos (s : BitVec w) :
    decide (getReaderCount s > 0#w) = decide (0 < (fields s).count) :=
  decide_eq_decide.mpr <| by
    rw [gt_iff_lt, BitVec.lt_def, BitVec.toNat_zero]
    exact Iff.rfl

/-- **The word grants an update exactly when its fields admit it.** -/
theorem isSome_run (hw : 8 ≤ w) (u : Update) (s : BitVec w) :
    (u.run s).isSome = u.admits (maxReaderCount w) (fields s) := by
  have hone : 1 < 2 ^ w := Nat.one_lt_two_pow (by omega)
  have hmax : decide (getReaderCount s < kMaxReaderCount w) =
      decide ((fields s).count < maxReaderCount w) := rfl
  cases u with
  | writerGuardDrop => exact Atomics.isSome_trySpin _ _ s
  | decreaseReaderCount => exact (Atomics.isSome_trySpin _ _ s).trans (getReaderCount_pos s)
  | tryRead =>
      refine (Atomics.isSome_trySpin _ _ s).trans ?_
      unfold expectCanRead expectReaderLtMax
      rw [hmax]
      rfl
  | tryWrite =>
      refine (Atomics.isSome_trySpin _ _ s).trans ?_
      unfold expectCanWrite
      rw [getReaderCount_beq (Nat.two_pow_pos w)]
      rfl
  | tryWriteQueue => exact Atomics.isSome_trySpin _ _ s
  | tryUpgradableRead => exact Atomics.isSome_trySpin _ _ s
  | upgradableReadDrop => exact Atomics.isSome_trySpin _ _ s
  | downgradeWriteToRead => exact Atomics.isSome_trySpin _ _ s
  | downgradeWriteToUpgradable => exact Atomics.isSome_trySpin _ _ s
  | downgradeUpgradableToRead =>
      refine (Atomics.isSome_trySpin _ _ s).trans ?_
      unfold expectCanDowngradeToRead
      rw [getReaderCount_pos]
      rfl
  | upgradeUpgradableToWrite =>
      refine (Atomics.isSome_trySpin _ _ s).trans ?_
      unfold expectCanUpgrade
      rw [getReaderCount_beq hone]
      rfl

/-- A granted update was admitted by the fields. -/
theorem admits_of_run (hw : 8 ≤ w) {u : Update} {s s' : BitVec w} (h : u.run s = some s') :
    u.admits (maxReaderCount w) (fields s) = true := by
  rw [← isSome_run hw, h]
  rfl

/-- A refused one was not. -/
theorem not_admits_of_run (hw : 8 ≤ w) {u : Update} {s : BitVec w} (h : u.run s = none) :
    u.admits (maxReaderCount w) (fields s) = false := by
  rw [← isSome_run hw, h]
  rfl

/-- **A granted update that fits has exactly its effect on the fields.** -/
theorem fields_run (hw : 8 ≤ w) {u : Update} {s s' : BitVec w} (h : u.run s = some s')
    (hfit : u.fits (maxReaderCount w) (fields s)) : fields s' = u.effect (fields s) := by
  obtain ⟨hlo, hhi⟩ := hfit
  cases u with
  | writerGuardDrop =>
      obtain ⟨-, rfl⟩ := Atomics.trySpin_some h
      unfold desireWriterNotQueuedInactive
      rw [fields_desireWriterNotQueued hw, fields_desireWriterInactive hw]
      rfl
  | decreaseReaderCount =>
      obtain ⟨-, rfl⟩ := Atomics.trySpin_some h
      exact fields_desireDecReader hw hlo
  | tryRead =>
      obtain ⟨-, rfl⟩ := Atomics.trySpin_some h
      exact fields_desireIncReader hw hhi
  | tryWrite =>
      obtain ⟨-, rfl⟩ := Atomics.trySpin_some h
      exact fields_desireWriterActive hw s
  | tryWriteQueue =>
      obtain ⟨-, rfl⟩ := Atomics.trySpin_some h
      exact fields_desireWriterQueued hw s
  | tryUpgradableRead =>
      obtain ⟨-, rfl⟩ := Atomics.trySpin_some h
      have e := fields_desireUpgradeActive hw s
      unfold desireUpgradeActiveAndReaderInc
      rw [fields_desireIncReader hw (by rw [e]; exact hhi), e]
      rfl
  | upgradableReadDrop =>
      obtain ⟨-, rfl⟩ := Atomics.trySpin_some h
      have e := fields_desireUpgradeInactive hw s
      unfold desireUpgradeInactiveAndReaderDec
      rw [fields_desireDecReader hw (by rw [e]; exact hlo), e]
      rfl
  | downgradeWriteToRead =>
      obtain ⟨-, rfl⟩ := Atomics.trySpin_some h
      have e := fields_desireWriterInactive hw s
      unfold desireWriteToRead
      rw [fields_desireIncReader hw (by rw [e]; exact hhi), e]
      rfl
  | downgradeWriteToUpgradable =>
      obtain ⟨-, rfl⟩ := Atomics.trySpin_some h
      have e : fields (desireUpgradeActive (desireWriterInactive s)) =
          { fields s with writerActive := false, upgradeActive := true } := by
        rw [fields_desireUpgradeActive hw, fields_desireWriterInactive hw]
      unfold desireWriteToUpgradable
      rw [fields_desireIncReader hw (by rw [e]; exact hhi), e]
      rfl
  | downgradeUpgradableToRead =>
      obtain ⟨-, rfl⟩ := Atomics.trySpin_some h
      exact fields_desireUpgradeInactive hw s
  | upgradeUpgradableToWrite =>
      obtain ⟨-, rfl⟩ := Atomics.trySpin_some h
      exact fields_desireWriterActive hw s

/-- The counter of the effect, by what the update gains and loses. -/
theorem effect_count (u : Update) (f : Fields) :
    (u.effect f).count = f.count + u.gain - u.loss := by
  cases u <;> rfl

end Update

end AtomicSync.RwLock
