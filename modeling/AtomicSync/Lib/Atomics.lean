/-
  File:      AtomicSync/Lib/Atomics.lean
  Subject:   Compare-exchange on one cell: the weak exchange with a test, and its spinning form.

  Operations on an atomic cell, over any type of values, the first two given by a test of the
  value found and a function to the value wanted. They follow the documented behaviour of the
  external crate `atomex` (`CmpxchResult`, `try_once_compare_exchange_weak`,
  `try_spin_compare_exchange_weak`) and of the language's own `compare_exchange_weak`:

  * `tryOnceCompareExchangeWeak` -- one weak compare-exchange against a value read earlier: it is
    not attempted where the test refuses that value, and it may fail although the cell holds it;
  * `trySpinCompareExchangeWeak` -- repeat it from the value found until it succeeds or meets a
    value the test refuses. To all other threads this is ONE atomic step, and the definition is
    that step;
  * `compareExchangeWeak` -- the exchange underneath, with no test: the value found, as success
    or as failure.
-/
import Mathlib.Data.List.Basic

namespace AtomicSync.Atomics

/-- The outcome of a compare-exchange: done on the value expected, failed with the value found,
    or not attempted on a value that is not the expected kind. -/
inductive CmpxchResult (V : Type*) where
  | succ (found : V)
  | fail (found : V)
  | unexpected (current : V)
  deriving DecidableEq, Repr

variable {V : Type*}

/-! ## 1. The spinning exchange as one step -/

/-- The atomic step of the spinning exchange: the value written, or `none` for a refusal. -/
def trySpinCompareExchangeWeak (expect : V → Bool) (desire : V → V) (cell : V) : Option V :=
  if expect cell then some (desire cell) else none

theorem isSome_trySpin (expect : V → Bool) (desire : V → V) (cell : V) :
    (trySpinCompareExchangeWeak expect desire cell).isSome = expect cell := by
  unfold trySpinCompareExchangeWeak
  cases expect cell <;> rfl

theorem trySpin_some {expect : V → Bool} {desire : V → V} {cell cell' : V}
    (h : trySpinCompareExchangeWeak expect desire cell = some cell') :
    expect cell = true ∧ cell' = desire cell := by
  unfold trySpinCompareExchangeWeak at h
  cases hp : expect cell with
  | false => simp [hp] at h
  | true =>
    simp only [hp, if_true, Option.some.injEq] at h
    exact ⟨rfl, h.symm⟩

/-! ## 2. One weak exchange -/

variable [DecidableEq V]

/-- One weak compare-exchange of a cell against `current`: the outcome and the cell after it.
    `spurious` is the failure the weak exchange is allowed on an equal cell. -/
def tryOnceCompareExchangeWeak (expect : V → Bool) (desire : V → V) (spurious : Bool)
    (current cell : V) : CmpxchResult V × V :=
  if expect current then
    if cell = current ∧ spurious = false then (.succ current, desire current)
    else (.fail cell, cell)
  else (.unexpected current, cell)

/-- The three outcomes, each with all it says. -/
theorem tryOnce_cases (expect : V → Bool) (desire : V → V) (spurious : Bool) (current cell : V) :
    expect current = true ∧ (cell = current ∧ spurious = false) ∧
        tryOnceCompareExchangeWeak expect desire spurious current cell =
          (.succ current, desire current) ∨
      expect current = true ∧ (cell = current → spurious = true) ∧
        tryOnceCompareExchangeWeak expect desire spurious current cell = (.fail cell, cell) ∨
      expect current = false ∧
        tryOnceCompareExchangeWeak expect desire spurious current cell =
          (.unexpected current, cell) := by
  unfold tryOnceCompareExchangeWeak
  cases he : expect current with
  | false => exact Or.inr (Or.inr ⟨rfl, rfl⟩)
  | true =>
    by_cases hc : cell = current ∧ spurious = false
    · exact Or.inl ⟨rfl, hc, by simp [hc.1, hc.2]⟩
    · refine Or.inr (Or.inl ⟨rfl, fun e => ?_, by simp [hc]⟩)
      exact eq_true_of_ne_false fun hs => hc ⟨e, hs⟩

/-- The weak compare-exchange without a test: success or failure with the value found, and the
    cell after it. -/
def compareExchangeWeak (current new : V) (spurious : Bool) (cell : V) : Except V V × V :=
  if cell = current ∧ spurious = false then (.ok cell, new) else (.error cell, cell)

theorem compareExchangeWeak_cases (current new : V) (spurious : Bool) (cell : V) :
    (cell = current ∧ spurious = false) ∧
        compareExchangeWeak current new spurious cell = (.ok cell, new) ∨
      (cell = current → spurious = true) ∧
        compareExchangeWeak current new spurious cell = (.error cell, cell) := by
  unfold compareExchangeWeak
  by_cases hc : cell = current ∧ spurious = false
  · exact Or.inl ⟨hc, if_pos hc⟩
  · exact Or.inr ⟨fun e => eq_true_of_ne_false fun hs => hc ⟨e, hs⟩, if_neg hc⟩

end AtomicSync.Atomics
