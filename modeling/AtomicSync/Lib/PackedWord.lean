/-
  File:      AtomicSync/Lib/PackedWord.lean
  Subject:   A machine word that packs a counter below single-bit flags.

  A word `s : BitVec w` carries a counter in its low `k` bits (`low k s`) and one flag in each
  bit `j ≥ k` (`s.getLsbD j`). The masks a program uses on such a word are `BitVec.twoPow w j`
  for a flag and `BitVec.allOnes w >>> (w - k)` for the counter. This file says what the usual
  operations do to the two parts:

  * a flag test, a flag set, a flag clear: `and_twoPow_beq`, `low_or_twoPow`,
    `low_and_not_twoPow`, `getLsbD_or_twoPow`, `getLsbD_and_not_twoPow`;
  * the counter read through its mask: `toNat_and_low_mask`;
  * plus one below the counter's limit and minus one above zero stay inside the counter:
    `low_add_one`, `getLsbD_add_one`, `low_sub_one`, `getLsbD_sub_one`;
  * the two parts determine the word: `ext_low_flags`.
-/
import Mathlib.Data.Nat.Bitwise
import Mathlib.Tactic.Ring

namespace AtomicSync.PackedWord

variable {w : Nat}

/-- The counter: the low `k` bits, read as a number. -/
def low (k : Nat) (s : BitVec w) : Nat := s.toNat % 2 ^ k

theorem low_lt (k : Nat) (s : BitVec w) : low k s < 2 ^ k := Nat.mod_lt _ (Nat.two_pow_pos k)

theorem testBit_low (k : Nat) (s : BitVec w) (i : Nat) :
    (low k s).testBit i = (decide (i < k) && s.getLsbD i) := by
  rw [low, Nat.testBit_mod_two_pow, BitVec.testBit_toNat]

/-! ## 1. Flags -/

theorem and_twoPow_beq (s : BitVec w) {j : Nat} (hj : j < w) :
    (s &&& BitVec.twoPow w j == BitVec.twoPow w j) = s.getLsbD j := by
  have hne : BitVec.twoPow w j ≠ 0#w := fun e => by
    have h := congrArg (fun x => BitVec.getLsbD x j) e
    simp [hj] at h
  rw [BitVec.and_twoPow]
  cases s.getLsbD j
  · simpa using fun h => hne h.symm
  · simp

theorem getLsbD_or_twoPow (s : BitVec w) (j i : Nat) :
    (s ||| BitVec.twoPow w j).getLsbD i = (s.getLsbD i || (decide (j < w) && decide (j = i))) := by
  rw [BitVec.getLsbD_or, BitVec.getLsbD_twoPow]

theorem getLsbD_and_not_twoPow (s : BitVec w) (j i : Nat) :
    (s &&& ~~~ BitVec.twoPow w j).getLsbD i = (s.getLsbD i && !decide (j = i)) := by
  rw [BitVec.getLsbD_and, BitVec.getLsbD_not, BitVec.getLsbD_twoPow]
  by_cases hi : i < w
  · by_cases hj : j = i <;> simp [hi, hj]
  · simp [BitVec.getLsbD_of_ge s i (by omega)]

/-- Setting a flag leaves the counter alone. -/
theorem low_or_twoPow (s : BitVec w) {k j : Nat} (hj : k ≤ j) :
    low k (s ||| BitVec.twoPow w j) = low k s := by
  refine Nat.eq_of_testBit_eq fun i => ?_
  rw [testBit_low, testBit_low, getLsbD_or_twoPow]
  by_cases hi : i < k
  · have hne : j ≠ i := by omega
    simp [hne]
  · simp [hi]

/-- Clearing a flag leaves the counter alone. -/
theorem low_and_not_twoPow (s : BitVec w) {k j : Nat} (hj : k ≤ j) :
    low k (s &&& ~~~ BitVec.twoPow w j) = low k s := by
  refine Nat.eq_of_testBit_eq fun i => ?_
  rw [testBit_low, testBit_low, getLsbD_and_not_twoPow]
  by_cases hi : i < k
  · have hne : j ≠ i := by omega
    simp [hne]
  · simp [hi]

/-! ## 2. The counter -/

/-- The mask of the counter selects exactly the counter. -/
theorem toNat_and_low_mask (s : BitVec w) {k : Nat} (hk : k ≤ w) :
    (s &&& (BitVec.allOnes w >>> (w - k))).toNat = low k s := by
  refine Nat.eq_of_testBit_eq fun i => ?_
  rw [testBit_low, BitVec.testBit_toNat, BitVec.getLsbD_and, BitVec.getLsbD_ushiftRight,
    BitVec.getLsbD_allOnes, Bool.and_comm]
  congr 1
  exact decide_eq_decide.mpr ⟨fun _ => by omega, fun _ => by omega⟩

theorem toNat_low_mask {k : Nat} (hk : k ≤ w) :
    (BitVec.allOnes w >>> (w - k)).toNat = 2 ^ k - 1 := by
  rw [BitVec.toNat_ushiftRight, BitVec.toNat_allOnes, Nat.shiftRight_eq_div_pow]
  have h : 2 ^ w = 2 ^ k * 2 ^ (w - k) := by rw [← Nat.pow_add]; congr 1; omega
  have hp : 0 < 2 ^ (w - k) := Nat.two_pow_pos _
  have hq : 0 < 2 ^ k := Nat.two_pow_pos _
  rw [h, Nat.div_eq_iff hp]
  obtain ⟨a, ha⟩ := Nat.exists_eq_add_of_lt hq
  obtain ⟨b, hb⟩ := Nat.exists_eq_add_of_lt hp
  simp only [ha, hb, Nat.zero_add, Nat.add_sub_cancel]
  constructor <;> ring_nf <;> omega

/-- Below the counter's limit the whole word has room for one more. -/
theorem toNat_add_one_lt {s : BitVec w} {k : Nat} (hk : k ≤ w) (h : low k s + 1 < 2 ^ k) :
    s.toNat + 1 < 2 ^ w := by
  have hw : 2 ^ w = 2 ^ k * 2 ^ (w - k) := by rw [← Nat.pow_add]; congr 1; omega
  have hs : s.toNat / 2 ^ k < 2 ^ (w - k) := Nat.div_lt_of_lt_mul (hw ▸ s.isLt)
  have hd : 2 ^ k * (s.toNat / 2 ^ k) + low k s = s.toNat := Nat.div_add_mod _ _
  calc s.toNat + 1 = 2 ^ k * (s.toNat / 2 ^ k) + (low k s + 1) := by omega
    _ < 2 ^ k * (s.toNat / 2 ^ k) + 2 ^ k := by omega
    _ = 2 ^ k * (s.toNat / 2 ^ k + 1) := by ring
    _ ≤ 2 ^ w := by rw [hw]; exact Nat.mul_le_mul_left _ hs

theorem toNat_add_one {s : BitVec w} {k : Nat} (hk : k ≤ w) (h : low k s + 1 < 2 ^ k) :
    (s + 1#w).toNat = s.toNat + 1 := by
  have hlt := toNat_add_one_lt hk h
  have h1 : (1#w).toNat = 1 := by
    rw [BitVec.toNat_ofNat]
    exact Nat.mod_eq_of_lt (by omega)
  rw [BitVec.toNat_add, h1, Nat.mod_eq_of_lt hlt]

/-- Two numbers one apart inside one block of `2 ^ k` share everything above the block. -/
theorem testBit_succ_of_lt {n k j : Nat} (h : n % 2 ^ k + 1 < 2 ^ k) (hj : k ≤ j) :
    (n + 1).testBit j = n.testBit j := by
  have hdiv : (n + 1) / 2 ^ k = n / 2 ^ k := by
    rw [Nat.div_eq_iff (Nat.two_pow_pos k)]
    have hd : 2 ^ k * (n / 2 ^ k) + n % 2 ^ k = n := Nat.div_add_mod _ _
    rw [Nat.mul_comm] at hd
    constructor <;> omega
  have e : j = (j - k) + k := by omega
  rw [e, ← Nat.testBit_div_two_pow, ← Nat.testBit_div_two_pow, hdiv]

/-- Plus one below the limit raises the counter by one … -/
theorem low_add_one {s : BitVec w} {k : Nat} (hk : k ≤ w) (h : low k s + 1 < 2 ^ k) :
    low k (s + 1#w) = low k s + 1 := by
  have h2 : (1 : Nat) % 2 ^ k = 1 := Nat.mod_eq_of_lt (by omega)
  rw [low, toNat_add_one hk h, Nat.add_mod, h2]
  exact Nat.mod_eq_of_lt h

/-- … and carries into no flag. -/
theorem getLsbD_add_one {s : BitVec w} {k j : Nat} (hk : k ≤ w) (h : low k s + 1 < 2 ^ k)
    (hj : k ≤ j) : (s + 1#w).getLsbD j = s.getLsbD j := by
  rw [← BitVec.testBit_toNat, ← BitVec.testBit_toNat, toNat_add_one hk h]
  exact testBit_succ_of_lt h hj

/-- Minus one above zero undoes plus one: the predecessor sits below the limit. -/
theorem low_pred {s : BitVec w} {k : Nat} (h : 0 < low k s) :
    low k (s - 1#w) + 1 = low k s := by
  have hpos : 0 < s.toNat := Nat.pos_of_ne_zero fun e => by simp [low, e] at h
  have h1 : (1#w).toNat = 1 := by
    rw [BitVec.toNat_ofNat]
    exact Nat.mod_eq_of_lt (by have := s.isLt; omega)
  have hsub : (s - 1#w).toNat = s.toNat - 1 := by
    rw [BitVec.toNat_sub_of_le (by rw [BitVec.le_def, h1]; exact hpos), h1]
  have hlt := low_lt k s
  rw [low, hsub, low]
  have hd : 2 ^ k * (s.toNat / 2 ^ k) + low k s = s.toNat := Nat.div_add_mod _ _
  have e : s.toNat - 1 = (low k s - 1) + 2 ^ k * (s.toNat / 2 ^ k) := by omega
  rw [e, Nat.add_mul_mod_self_left, Nat.mod_eq_of_lt (by omega)]
  have : low k s = s.toNat % 2 ^ k := rfl
  omega

theorem sub_add_one (s : BitVec w) : s - 1#w + 1#w = s := BitVec.sub_add_cancel s 1#w

/-- Minus one above zero lowers the counter by one … -/
theorem low_sub_one {s : BitVec w} {k : Nat} (h : 0 < low k s) :
    low k (s - 1#w) = low k s - 1 := by
  have := low_pred h
  omega

/-- … and borrows from no flag. -/
theorem getLsbD_sub_one {s : BitVec w} {k j : Nat} (hk : k ≤ w) (h : 0 < low k s) (hj : k ≤ j) :
    (s - 1#w).getLsbD j = s.getLsbD j := by
  have hp := low_pred h
  have hlt := low_lt k s
  have e := getLsbD_add_one (s := s - 1#w) hk (by omega) hj
  rw [sub_add_one] at e
  exact e.symm

/-! ## 3. The parts determine the word -/

theorem ext_low_flags {s t : BitVec w} (k : Nat) (hl : low k s = low k t)
    (hf : ∀ j, k ≤ j → j < w → s.getLsbD j = t.getLsbD j) : s = t := by
  refine BitVec.eq_of_getLsbD_eq fun i hi => ?_
  by_cases hk : i < k
  · have h := congrArg (fun n => Nat.testBit n i) hl
    simpa [testBit_low, hk] using h
  · exact hf i (by omega) hi

end AtomicSync.PackedWord
