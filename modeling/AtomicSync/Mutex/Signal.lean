/-
  File:      AtomicSync/Mutex/Signal.lean
  Subject:   `TrMutexSignal`: how a word says that the mutex is held, and its two encodings.

  A signal marks a released value as acquired and undoes the mark. `Lawful` is what the spinning
  mutex relies on: the mark shows, and undoing it gives the value back bit for bit. The two
  implementations mark by different arithmetic:

  * `msbAsMutexSignal` -- the most significant bit, by `|` and `& !`;
  * `ptrAsMutexSignal` -- the lowest bit of an address, by `+ 1` and `- 1`: an even address has
    room for the one and an acquired one has something to subtract from (`ptr_room`).
-/
import AtomicSync.Lib.PackedWord

namespace AtomicSync.Mutex

/-- The three functions a `TrMutexSignal` implements. -/
structure MutexSignal (V : Type*) where
  isAcquired : V → Bool
  makeAcquired : V → V
  makeReleased : V → V

namespace MutexSignal

variable {V : Type*}

/-- The default method of the trait. -/
def isReleased (S : MutexSignal V) (v : V) : Bool := !S.isAcquired v

/-- **What the mutex relies on.** -/
structure Lawful (S : MutexSignal V) : Prop where
  acquired : ∀ v, S.isReleased v = true → S.isAcquired (S.makeAcquired v) = true
  restored : ∀ v, S.isReleased v = true → S.makeReleased (S.makeAcquired v) = v

end MutexSignal

variable {w : ℕ}

/-! ## 1. The most significant bit -/

/-- `V::ONE << (V::BITS - 1)` -/
def kMsbFlag (w : ℕ) : BitVec w := 1#w <<< (w - 1)

def msbAsMutexSignal (w : ℕ) : MutexSignal (BitVec w) where
  isAcquired val := val &&& kMsbFlag w == kMsbFlag w
  makeAcquired val := val ||| kMsbFlag w
  makeReleased val := val &&& ~~~kMsbFlag w

theorem msb_isAcquired (hw : 0 < w) (v : BitVec w) :
    (msbAsMutexSignal w).isAcquired v = v.getLsbD (w - 1) :=
  PackedWord.and_twoPow_beq v (by omega)

theorem msb_lawful (hw : 0 < w) : (msbAsMutexSignal w).Lawful where
  acquired := by
    intro v _
    rw [msb_isAcquired hw]
    show (v ||| 1#w <<< (w - 1)).getLsbD (w - 1) = true
    rw [← BitVec.twoPow_eq, PackedWord.getLsbD_or_twoPow]
    simp [hw]
  restored := by
    intro v hv
    have hbit : v.getLsbD (w - 1) = false := by
      rw [← msb_isAcquired hw]
      simpa [MutexSignal.isReleased] using hv
    refine BitVec.eq_of_getLsbD_eq fun i hi => ?_
    show ((v ||| 1#w <<< (w - 1)) &&& ~~~(1#w <<< (w - 1))).getLsbD i = v.getLsbD i
    rw [← BitVec.twoPow_eq, PackedWord.getLsbD_and_not_twoPow, PackedWord.getLsbD_or_twoPow]
    by_cases hiw : w - 1 = i
    · rw [← hiw, hbit]
      simp
    · simp [hiw]

/-! ## 2. The lowest bit of an address -/

/-- Addresses of `w` bits; `K_MOD = 2`, `K_RES = 1`. -/
def ptrAsMutexSignal (w : ℕ) : MutexSignal (BitVec w) where
  isAcquired val := val % 2#w == 1#w
  makeAcquired val := val + 1#w
  makeReleased val := val - 1#w

theorem ptr_isAcquired (hw : 1 < w) (v : BitVec w) :
    (ptrAsMutexSignal w).isAcquired v = decide (v.toNat % 2 = 1) := by
  have hpow : 2 ^ 1 < 2 ^ w := Nat.pow_lt_pow_right (by omega) hw
  have h2 : (2#w).toNat = 2 := by
    rw [BitVec.toNat_ofNat]
    exact Nat.mod_eq_of_lt hpow
  have h1 : (1#w).toNat = 1 := by
    rw [BitVec.toNat_ofNat]
    exact Nat.mod_eq_of_lt (by omega)
  show (v % 2#w == 1#w) = decide (v.toNat % 2 = 1)
  rw [Bool.eq_iff_iff, beq_iff_eq, decide_eq_true_iff, BitVec.toNat_eq, BitVec.toNat_umod, h2, h1]

/-- A released address is an even one. -/
theorem ptr_isReleased (hw : 1 < w) (v : BitVec w) :
    (ptrAsMutexSignal w).isReleased v = true ↔ v.toNat % 2 = 0 := by
  unfold MutexSignal.isReleased
  rw [ptr_isAcquired hw, Bool.not_eq_true', decide_eq_false_iff_not]
  omega

/-- **The arithmetic on an even address does not overflow**: one fits above it, and the marked
    address is not zero. -/
theorem ptr_room (hw : 1 < w) {v : BitVec w} (hv : v.toNat % 2 = 0) :
    v.toNat + 1 < 2 ^ w ∧ ((ptrAsMutexSignal w).makeAcquired v).toNat = v.toNat + 1 := by
  have heven : 2 ^ w % 2 = 0 := by
    obtain ⟨k, rfl⟩ := Nat.exists_eq_add_of_lt hw
    rw [Nat.pow_succ]
    exact Nat.mul_mod_left _ _
  have hlt : v.toNat + 1 < 2 ^ w := by
    have := v.isLt
    omega
  have hlow : PackedWord.low w v = v.toNat := Nat.mod_eq_of_lt v.isLt
  exact ⟨hlt, PackedWord.toNat_add_one (Nat.le_refl w) (by rw [hlow]; exact hlt)⟩

theorem ptr_lawful (hw : 1 < w) : (ptrAsMutexSignal w).Lawful where
  acquired := by
    intro v hv
    have heven := (ptr_isReleased hw v).mp hv
    rw [ptr_isAcquired hw, (ptr_room hw heven).2]
    exact decide_eq_true (by omega)
  restored := by
    intro v _
    exact BitVec.add_sub_cancel v 1#w

end AtomicSync.Mutex
