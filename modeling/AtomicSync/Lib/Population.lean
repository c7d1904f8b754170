/-
  File:      AtomicSync/Lib/Population.lean
  Subject:   Counting over a finite family of holders.

  A family `g : ι → κ` assigns to each of finitely many holders what it holds, and a weight
  `f : κ → ℕ` says how much of something that is. `total f g` is the sum over all holders. A
  step of one holder is `Function.update g i c`, and `total_update` is the only thing later
  counting arguments need to know about it (`total_change` where the weight changes too); the
  rest reads small totals back as facts about single holders.
-/
import Mathlib.Algebra.BigOperators.Group.Finset.Piecewise
import Mathlib.Algebra.Order.BigOperators.Group.Finset
import Mathlib.Data.Fintype.Basic

namespace AtomicSync.Population

variable {ι κ : Type*} [Fintype ι]

/-- The weight of the whole family. -/
def total (f : κ → ℕ) (g : ι → κ) : ℕ := ∑ i, f (g i)

/-- A holder weighs no more than the whole. -/
theorem le_total (f : κ → ℕ) (g : ι → κ) (i : ι) : f (g i) ≤ total f g :=
  Finset.single_le_sum (f := fun i => f (g i)) (fun _ _ => Nat.zero_le _) (Finset.mem_univ i)

theorem total_eq_zero {f : κ → ℕ} {g : ι → κ} : total f g = 0 ↔ ∀ i, f (g i) = 0 := by
  simp [total]

/-- A positive total has a holder that contributes. -/
theorem exists_of_total_pos {f : κ → ℕ} {g : ι → κ} (h : 0 < total f g) : ∃ i, 0 < f (g i) := by
  by_contra hn
  have hz : ∀ i, f (g i) = 0 := fun i => by
    have := not_exists.mp hn i
    omega
  have := total_eq_zero.mpr hz
  omega

/-- Where all others weigh nothing, one holder is the whole. -/
theorem total_eq_single (f : κ → ℕ) (g : ι → κ) (i : ι) (h : ∀ j, j ≠ i → f (g j) = 0) :
    total f g = f (g i) :=
  Finset.sum_eq_single (f := fun i => f (g i)) i (fun j _ hj => h j hj)
    fun hi => absurd (Finset.mem_univ i) hi

/-- A bound on the weights bounds the whole. -/
theorem total_le {f : κ → ℕ} {n : ℕ} (h : ∀ c, f c ≤ n) (g : ι → κ) :
    total f g ≤ n * Fintype.card ι := by
  have hsum := Finset.sum_le_card_nsmul Finset.univ (fun i => f (g i)) n fun i _ => h (g i)
  rw [Finset.card_univ, Nat.nsmul_eq_mul, Nat.mul_comm] at hsum
  exact hsum

variable [DecidableEq ι]

/-- The total, with one holder's share taken out of the sum. -/
theorem total_eq_add (f : κ → ℕ) (g : ι → κ) (i : ι) :
    total f g = f (g i) + ∑ x ∈ Finset.univ \ {i}, f (g x) :=
  Finset.sum_eq_add_sum_sdiff_singleton_of_mem (Finset.mem_univ i) fun x => f (g x)

/-- A bound on the weights of all holders but one. -/
theorem total_le_add {f : κ → ℕ} {n : ℕ} (h : ∀ c, f c ≤ n) (g : ι → κ) (i : ι) :
    total f g ≤ f (g i) + (Fintype.card ι - 1) * n := by
  rw [total_eq_add f g i]
  refine Nat.add_le_add_left ?_ _
  have hsum := Finset.sum_le_card_nsmul (Finset.univ \ {i}) (fun x => f (g x)) n fun x _ => h (g x)
  have hcard : (Finset.univ \ {i}).card = Fintype.card ι - 1 := by
    rw [Finset.card_sdiff_of_subset (Finset.subset_univ _), Finset.card_univ,
      Finset.card_singleton]
  rw [hcard, Nat.nsmul_eq_mul] at hsum
  exact hsum

/-- **One holder changes what it weighs**: its old weight leaves the total, its new one enters. -/
theorem total_change (f f' : κ → ℕ) (g g' : ι → κ) {i : ι}
    (h : ∀ j, j ≠ i → f' (g' j) = f (g j)) : total f' g' + f (g i) = total f g + f' (g' i) := by
  have hrest : ∑ x ∈ Finset.univ \ {i}, f' (g' x) = ∑ x ∈ Finset.univ \ {i}, f (g x) := by
    refine Finset.sum_congr rfl fun x hx => h x ?_
    simpa using hx
  rw [total_eq_add f' g' i, total_eq_add f g i, hrest]
  omega

/-- The holder changes what it holds. -/
theorem total_update (f : κ → ℕ) (g : ι → κ) (i : ι) (c : κ) :
    total f (Function.update g i c) + f (g i) = total f g + f c := by
  have h := total_change f f g (Function.update g i c) (i := i) fun j hj => by
    rw [Function.update_of_ne hj]
  rw [Function.update_self] at h
  exact h

/-- Two holders together weigh no more than the whole. -/
theorem add_le_total (f : κ → ℕ) (g : ι → κ) {i j : ι} (hij : i ≠ j) :
    f (g i) + f (g j) ≤ total f g := by
  have hj : j ∈ Finset.univ \ {i} := by simpa using hij.symm
  have h := Finset.single_le_sum (f := fun x => f (g x)) (fun _ _ => Nat.zero_le _) hj
  rw [total_eq_add f g i]
  exact Nat.add_le_add_left h _

end AtomicSync.Population
