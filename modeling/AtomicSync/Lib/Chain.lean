/-
  File:      AtomicSync/Lib/Chain.lean
  Subject:   Chains of links, and what setting one link does to them.

  `R m n` reads "the link of `n` names `m`". The links are in order as long as no chain of them
  comes back to the node it started from. Setting the link of one node is where that can be lost:

  * `Acyclic` -- no chain is closed;
  * `Relinked` -- the link of `c` now names `t`, all other links are as they were;
  * **`Relinked.acyclic_iff`** -- that closes a chain iff one led from `t` back to `c`.
-/
import Mathlib.Logic.Relation

namespace AtomicSync.Chain

open Relation

variable {ι : Type*} {R R' : ι → ι → Prop} {c t : ι}

/-- **No chain of links comes back.** -/
def Acyclic (R : ι → ι → Prop) : Prop := ∀ n, ¬ TransGen R n n

/-- The link of `c` has been set to `t`. -/
def Relinked (R R' : ι → ι → Prop) (c t : ι) : Prop :=
  ∀ m n, R' m n ↔ (n = c ∧ m = t) ∨ (n ≠ c ∧ R m n)

theorem Acyclic.congr (h : ∀ m n, R' m n ↔ R m n) : Acyclic R' ↔ Acyclic R := by
  have hR : R' = R := funext fun m => funext fun n => propext (h m n)
  rw [hR]

namespace Relinked

/-- A chain to `c` along the old links stays, from `t` on. -/
theorem keeps (h : Relinked R R' c t) (hR : Acyclic R) {n : ι} (hn : ReflTransGen R c n) :
    ReflTransGen R' c n := by
  induction hn with
  | refl => exact .refl
  | @tail m n hm hmn ih =>
      have hnc : n ≠ c := by
        intro e
        rw [e] at hmn
        exact hR c (.tail' hm hmn)
      exact ih.tail ((h m n).mpr (Or.inr ⟨hnc, hmn⟩))

/-- A chain of the new links up to `c` is one of the old links. -/
theorem before (h : Relinked R R' c t) {n : ι} (hn : ReflTransGen R' c n) :
    ReflTransGen R c n := by
  induction hn with
  | refl => exact .refl
  | @tail m n _ hmn ih =>
      rcases (h m n).mp hmn with ⟨rfl, -⟩ | ⟨-, hmn⟩
      · exact .refl
      · exact ih.tail hmn

/-- A chain of the new links does without the new one, or has it somewhere. -/
theorem through (h : Relinked R R' c t) {m n : ι} (hmn : TransGen R' m n) :
    TransGen R m n ∨ (ReflTransGen R' m t ∧ ReflTransGen R' c n) := by
  induction hmn with
  | @single n hmn =>
      rcases (h m n).mp hmn with ⟨rfl, rfl⟩ | ⟨-, hmn⟩
      · exact Or.inr ⟨.refl, .refl⟩
      · exact Or.inl (.single hmn)
  | @tail b n hb hbn ih =>
      rcases (h b n).mp hbn with ⟨rfl, rfl⟩ | ⟨-, hold⟩
      · exact Or.inr ⟨hb.to_reflTransGen, .refl⟩
      · rcases ih with ih | ⟨hmt, hcb⟩
        · exact Or.inl (ih.tail hold)
        · exact Or.inr ⟨hmt, hcb.tail hbn⟩

/-- **Setting a link closes a chain exactly where one led back**, the link itself included. -/
theorem acyclic_iff (h : Relinked R R' c t) (hR : Acyclic R) :
    Acyclic R' ↔ ¬ ReflTransGen R c t := by
  constructor
  · intro hR' hct
    have hnew : R' t c := (h t c).mpr (Or.inl ⟨rfl, rfl⟩)
    exact hR' c (.tail' (h.keeps hR hct) hnew)
  · intro hct n hn
    rcases h.through hn with hold | ⟨hnt, hcn⟩
    · exact hR n hold
    · exact hct (h.before (hcn.trans hnt))

end Relinked

end AtomicSync.Chain
