/-
  File:      AtomicSync/Mutex/Waiting.lean
  Subject:   `try_spin_acquire_` against whatever the cell holds: the releases the loop notices.

  The loop works on the value it read last (`current`). An exchange that fails brings the value
  found; an exchange refused because `current` is an acquired value brings nothing, and the loop
  goes on with the value it had. So the first acquired value it reads is the last value it ever
  works on, and no later release of the cell reaches it.

  * `trySpinAcquire` -- the loop against a history: what each iteration finds in the cell, whether
    its exchange fails spuriously, what the token answers after it;
  * `Standing`, `standing` -- before each iteration the loop has its guard, or works on the newest
    value read, or on an acquired one for good;
  * **`notices_release_iff`** -- on a cell that keeps a released value for two iterations the loop
    has its guard iff it had read no acquired value before it could succeed;
  * `misses_release` -- the waiter that first saw the mutex held;
  * `history`, `follows_run` -- a lock call of the machine is this loop, on the history its own
    run writes;
  * **`lock_call_guard_iff`** -- so in every run of the machine the call has its guard iff one of
    its exchanges met the value last read, with no acquired value read up to there.
-/
import AtomicSync.Mutex.Machine

namespace AtomicSync.Mutex

open Atomics

variable {V : Type}

/-! ## 1. The loop -/

/-- What one iteration meets: the cell at its exchange, whether that fails spuriously, and the
    answer of `cancel.is_cancelled()` should the iteration come to ask. -/
structure Iteration (V : Type) where
  cell : V
  spurious : Bool
  cancelled : Bool

/-- The loop between two iterations: going on with `current`, or broken out of. -/
inductive Loop (V : Type) where
  | going (current : V)
  | acquired
  | cancelled
  deriving DecidableEq

/-- The last value read before iteration `n`; the first is the load in front of the loop. -/
def seen (v₀ : V) (h : ℕ → Iteration V) : ℕ → V
  | 0 => v₀
  | n + 1 => (h n).cell

section Loop

variable [DecidableEq V] (S : MutexSignal V)

/-- The body of the loop. -/
def iterate (current : V) (it : Iteration V) : Loop V :=
  match (tryOnceCompareExchangeWeak S.isReleased S.makeAcquired it.spurious current it.cell).1 with
  | .succ _ => .acquired
  | .fail x => if it.cancelled then .cancelled else .going x
  | .unexpected _ => if it.cancelled then .cancelled else .going current

/-- `try_spin_acquire_` before iteration `n`. -/
def trySpinAcquire (v₀ : V) (h : ℕ → Iteration V) : ℕ → Loop V
  | 0 => .going v₀
  | n + 1 =>
    match trySpinAcquire v₀ h n with
    | .going current => iterate S current (h n)
    | ended => ended

end Loop

/-- Iteration `j` finds the value last read, and its exchange does not fail spuriously: on a
    released value it succeeds. -/
def Meets (v₀ : V) (h : ℕ → Iteration V) (j : ℕ) : Prop :=
  (h j).cell = seen v₀ h j ∧ (h j).spurious = false

variable [DecidableEq V] {S : MutexSignal V}

/-! ## 2. One iteration -/

theorem iterate_meets {v : V} {it : Iteration V} (hv : S.isReleased v = true) (hc : it.cell = v)
    (hs : it.spurious = false) : iterate S v it = .acquired := by
  unfold iterate tryOnceCompareExchangeWeak
  simp [hv, hc, hs]

theorem iterate_fails {v : V} {it : Iteration V} (hv : S.isReleased v = true)
    (hm : ¬ (it.cell = v ∧ it.spurious = false)) :
    iterate S v it = if it.cancelled then .cancelled else .going it.cell := by
  unfold iterate tryOnceCompareExchangeWeak
  simp [hv, hm]

/-- On an acquired value the iteration learns nothing. -/
theorem iterate_refuses {v : V} {it : Iteration V} (hv : S.isAcquired v = true) :
    iterate S v it = if it.cancelled then .cancelled else .going v := by
  unfold iterate tryOnceCompareExchangeWeak
  simp [MutexSignal.isReleased, hv]

/-- Only on a released value, found again and exchanged, an iteration ends with the guard. -/
theorem meets_of_iterate {v : V} {it : Iteration V} (hi : iterate S v it = .acquired) :
    S.isReleased v = true ∧ it.cell = v ∧ it.spurious = false := by
  cases ha : S.isAcquired v with
  | true =>
      rw [iterate_refuses ha] at hi
      cases hc : it.cancelled <;> rw [hc] at hi <;> cases hi
  | false =>
      have hv : S.isReleased v = true := by simp [MutexSignal.isReleased, ha]
      by_cases hm : it.cell = v ∧ it.spurious = false
      · exact ⟨hv, hm⟩
      · rw [iterate_fails hv hm] at hi
        cases hc : it.cancelled <;> rw [hc] at hi <;> cases hi

theorem trySpinAcquire_succ {v₀ : V} {h : ℕ → Iteration V} {n : ℕ} {current : V}
    (hn : trySpinAcquire S v₀ h n = .going current) :
    trySpinAcquire S v₀ h (n + 1) = iterate S current (h n) := by
  simp [trySpinAcquire, hn]

/-- A loop that has ended stays as it ended. -/
theorem trySpinAcquire_ended {v₀ : V} {h : ℕ → Iteration V} {n : ℕ} {l : Loop V}
    (hn : trySpinAcquire S v₀ h n = l) (hl : ∀ current, l ≠ .going current) :
    trySpinAcquire S v₀ h (n + 1) = l := by
  cases l with
  | going current => exact absurd rfl (hl current)
  | acquired => simp only [trySpinAcquire, hn]
  | cancelled => simp only [trySpinAcquire, hn]

/-! ## 3. What the loop works on -/

/-- **Where the loop stands before iteration `n`**, as long as the token has said nothing. -/
inductive Standing (S : MutexSignal V) (v₀ : V) (h : ℕ → Iteration V) (n : ℕ) : Prop where
  /-- it has its guard since iteration `j`, having read released values only -/
  | acquired (j : ℕ) (hj : j < n) (hr : ∀ i ≤ j, S.isReleased (seen v₀ h i) = true)
      (hm : Meets v₀ h j) (hl : trySpinAcquire S v₀ h n = .acquired)
  /-- it works on the newest value, all older ones released and gone -/
  | fresh (hr : ∀ i < n, S.isReleased (seen v₀ h i) = true) (hm : ∀ j < n, ¬ Meets v₀ h j)
      (hl : trySpinAcquire S v₀ h n = .going (seen v₀ h n))
  /-- it works on an acquired value, read before iteration `i` -/
  | stale (i : ℕ) (hi : i < n) (ha : S.isAcquired (seen v₀ h i) = true)
      (hm : ∀ j < i, ¬ Meets v₀ h j) (hl : trySpinAcquire S v₀ h n = .going (seen v₀ h i))

/-- **The step lemma**: an iteration after which the token is silent. -/
theorem standing_succ {v₀ : V} {h : ℕ → Iteration V} {n : ℕ} (hc : (h n).cancelled = false)
    (hn : Standing S v₀ h n) : Standing S v₀ h (n + 1) := by
  cases hn with
  | acquired j hj hr hm hl =>
      exact .acquired j (Nat.lt_succ_of_lt hj) hr hm (trySpinAcquire_ended hl nofun)
  | stale i hi ha hm hl =>
      refine .stale i (Nat.lt_succ_of_lt hi) ha hm ?_
      rw [trySpinAcquire_succ hl, iterate_refuses ha, hc]
      rfl
  | fresh hr hm hl =>
      cases ha : S.isAcquired (seen v₀ h n) with
      | true =>
          refine .stale n (Nat.lt_succ_self n) ha hm ?_
          rw [trySpinAcquire_succ hl, iterate_refuses ha, hc]
          rfl
      | false =>
          have hrel : S.isReleased (seen v₀ h n) = true := by simp [MutexSignal.isReleased, ha]
          have hr' : ∀ i ≤ n, S.isReleased (seen v₀ h i) = true := by
            intro i hi
            rcases Nat.lt_or_eq_of_le hi with hi | rfl
            · exact hr i hi
            · exact hrel
          by_cases hmeet : Meets v₀ h n
          · refine .acquired n (Nat.lt_succ_self n) hr' hmeet ?_
            rw [trySpinAcquire_succ hl, iterate_meets hrel hmeet.1 hmeet.2]
          · refine .fresh (fun i hi => hr' i (Nat.le_of_lt_succ hi)) (fun j hj => ?_) ?_
            · rcases Nat.lt_or_eq_of_le (Nat.le_of_lt_succ hj) with hj | rfl
              · exact hm j hj
              · exact hmeet
            · rw [trySpinAcquire_succ hl, iterate_fails hrel hmeet, hc]
              rfl

/-- **The run lemma**: every history, as far as the token is silent. -/
theorem standing {v₀ : V} {h : ℕ → Iteration V} {n : ℕ}
    (hc : ∀ i < n, (h i).cancelled = false) : Standing S v₀ h n := by
  induction n with
  | zero => exact .fresh nofun nofun rfl
  | succ n ih =>
      have hn := ih fun i hi => hc i (Nat.lt_succ_of_lt hi)
      exact standing_succ (hc n (Nat.lt_succ_self n)) hn

/-! ## 4. The releases it notices -/

/-- **Iterations `k` and `k + 1` find one released value**, and the weak exchange does not fail
    spuriously in them. -/
structure Quiet (S : MutexSignal V) (h : ℕ → Iteration V) (k : ℕ) (v : V) : Prop where
  released : S.isReleased v = true
  cell : (h k).cell = v ∧ (h (k + 1)).cell = v
  strong : (h k).spurious = false ∧ (h (k + 1)).spurious = false

/-- **The loop has its guard by the end of two quiet iterations iff it had read no acquired value
    before it could succeed.** Every history, every first value, every `k`. -/
theorem notices_release_iff {v₀ v : V} {h : ℕ → Iteration V} {k : ℕ} (hq : Quiet S h k v)
    (hc : ∀ i ≤ k, (h i).cancelled = false) :
    trySpinAcquire S v₀ h (k + 2) = .acquired ↔
      ∀ i ≤ k, S.isAcquired (seen v₀ h i) = true → ∃ j < i, Meets v₀ h j := by
  have hv : S.isAcquired v = false := by simpa [MutexSignal.isReleased] using hq.released
  have hseen : seen v₀ h (k + 1) = v := hq.cell.1
  have hstand : Standing S v₀ h (k + 1) := standing fun i hi => hc i (Nat.le_of_lt_succ hi)
  cases hstand with
  | acquired j hj hr hm hl =>
      have hdone := trySpinAcquire_ended hl fun _ e => by cases e
      refine iff_of_true hdone fun i _ ha => ⟨j, Nat.lt_of_not_le fun hij => ?_, hm⟩
      have := hr i hij
      simp [MutexSignal.isReleased, ha] at this
  | fresh hr hm hl =>
      rw [hseen] at hl
      refine iff_of_true ?_ fun i hi ha => ?_
      · rw [trySpinAcquire_succ hl, iterate_meets hq.released hq.cell.2 hq.strong.2]
      · have := hr i (Nat.lt_succ_of_le hi)
        simp [MutexSignal.isReleased, ha] at this
  | stale i hi ha hm hl =>
      refine iff_of_false ?_ fun hcond => ?_
      · rw [trySpinAcquire_succ hl, iterate_refuses ha]
        intro e
        cases hcan : (h (k + 1)).cancelled <;> rw [hcan] at e <;> cases e
      · obtain ⟨j, hj, hmj⟩ := hcond i (Nat.le_of_lt_succ hi) ha
        exact hm j hj hmj

/-- **A loop that starts on an acquired value never gets a guard**, whatever it meets. -/
theorem never_acquired {v₀ : V} (ha : S.isAcquired v₀ = true) (h : ℕ → Iteration V) (n : ℕ) :
    trySpinAcquire S v₀ h n = .going v₀ ∨ trySpinAcquire S v₀ h n = .cancelled := by
  induction n with
  | zero => exact Or.inl rfl
  | succ n ih =>
      rcases ih with hl | hl
      · rw [trySpinAcquire_succ hl, iterate_refuses ha]
        cases (h n).cancelled with
        | true => exact Or.inr rfl
        | false => exact Or.inl rfl
      · exact Or.inr (trySpinAcquire_ended hl nofun)

/-- The criterion at work: the loop loads 5, two other threads have passed before its first
    exchange (the cell is 6) and its second (7), and then the cell is left alone. -/
theorem notices_release_iff_changing :
    trySpinAcquire (msbAsMutexSignal 8) 5#8
      (fun n => ⟨if n = 0 then 6#8 else 7#8, false, false⟩) 3 = .acquired := by
  refine (notices_release_iff (k := 1) (v := 7#8) ⟨by decide, by decide, by decide⟩
    (fun _ _ => rfl)).mpr fun i hi ha => ?_
  have hi : i = 0 ∨ i = 1 := by omega
  rcases hi with rfl | rfl
  · exact absurd ha (by decide)
  · exact absurd ha (by decide)

/-- **The waiter that first saw the mutex held**: from its first iteration on the cell is released
    for good, no exchange fails spuriously, nobody cancels -- and it never has a guard. -/
theorem misses_release :
    ∃ (v₀ : BitVec 8) (h : ℕ → Iteration (BitVec 8)),
      (msbAsMutexSignal 8).isAcquired v₀ = true ∧ (∀ k, Quiet (msbAsMutexSignal 8) h k 0#8) ∧
      (∀ i, (h i).cancelled = false) ∧
      ∀ k, trySpinAcquire (msbAsMutexSignal 8) v₀ h (k + 2) ≠ .acquired := by
  have hheld : (msbAsMutexSignal 8).isAcquired 0x80#8 = true := by decide
  refine ⟨0x80#8, fun _ => ⟨0#8, false, false⟩, hheld, fun k => ?_, fun _ => rfl, fun k => ?_⟩
  · exact ⟨by decide, ⟨rfl, rfl⟩, ⟨rfl, rfl⟩⟩
  · rcases never_acquired hheld (fun _ => ⟨0#8, false, false⟩) (k + 2) with hl | hl
    · rw [hl]
      nofun
    · rw [hl]
      nofun

/-! ## 5. When it has its guard -/

/-- What is acquired stays so. -/
theorem acquired_mono {v₀ : V} {h : ℕ → Iteration V} {m n : ℕ} (hmn : m ≤ n)
    (hm : trySpinAcquire S v₀ h m = .acquired) : trySpinAcquire S v₀ h n = .acquired := by
  induction hmn with
  | refl => exact hm
  | step _ ih => exact trySpinAcquire_ended ih fun _ e => by cases e

/-- A loop still going has heard nothing from the token. -/
theorem uncancelled_of_going {v₀ : V} {h : ℕ → Iteration V} {n : ℕ} :
    ∀ {current : V}, trySpinAcquire S v₀ h n = .going current →
      ∀ i < n, (h i).cancelled = false := by
  induction n with
  | zero =>
      intro _ _ i hi
      exact absurd hi (Nat.not_lt_zero i)
  | succ n ih =>
      intro current hl i hi
      cases hn : trySpinAcquire S v₀ h n with
      | going x =>
          rcases Nat.lt_or_eq_of_le (Nat.le_of_lt_succ hi) with hi | rfl
          · exact ih hn i hi
          · rw [trySpinAcquire_succ hn] at hl
            cases hc : (h i).cancelled with
            | false => rfl
            | true =>
                unfold iterate at hl
                rw [hc] at hl
                split at hl <;> cases hl
      | acquired =>
          rw [trySpinAcquire_ended hn fun _ e => by cases e] at hl
          cases hl
      | cancelled =>
          rw [trySpinAcquire_ended hn fun _ e => by cases e] at hl
          cases hl

/-- Iteration `j` gives the guard: it meets the value last read, all values read up to there are
    released, and the token has said nothing before. -/
structure Wins (S : MutexSignal V) (v₀ : V) (h : ℕ → Iteration V) (j : ℕ) : Prop where
  meets : Meets v₀ h j
  released : ∀ i ≤ j, S.isReleased (seen v₀ h i) = true
  silent : ∀ i < j, (h i).cancelled = false

instance (v₀ : V) (h : ℕ → Iteration V) (j : ℕ) : Decidable (Wins S v₀ h j) :=
  decidable_of_iff (((h j).cell = seen v₀ h j ∧ (h j).spurious = false) ∧
      (∀ i ≤ j, S.isReleased (seen v₀ h i) = true) ∧ ∀ i < j, (h i).cancelled = false)
    ⟨fun hw => ⟨hw.1, hw.2.1, hw.2.2⟩, fun hw => ⟨hw.meets, hw.released, hw.silent⟩⟩

/-- **The loop has its guard iff an iteration gave it.** -/
theorem acquired_iff_wins {v₀ : V} {h : ℕ → Iteration V} {n : ℕ} :
    trySpinAcquire S v₀ h n = .acquired ↔ ∃ j < n, Wins S v₀ h j := by
  constructor
  · intro hl
    induction n with
    | zero => cases hl
    | succ n ih =>
        cases hn : trySpinAcquire S v₀ h n with
        | acquired =>
            obtain ⟨j, hj, hw⟩ := ih hn
            exact ⟨j, Nat.lt_succ_of_lt hj, hw⟩
        | cancelled =>
            rw [trySpinAcquire_ended hn fun _ e => by cases e] at hl
            cases hl
        | going current =>
            have hc := uncancelled_of_going hn
            have hstand : Standing S v₀ h n := standing hc
            cases hstand with
            | acquired _ _ _ _ hl' => cases hn.symm.trans hl'
            | fresh hr _ hl' =>
                rw [trySpinAcquire_succ hl'] at hl
                obtain ⟨hrel, hm⟩ := meets_of_iterate hl
                refine ⟨n, Nat.lt_succ_self n, hm, fun i hi => ?_, hc⟩
                rcases Nat.lt_or_eq_of_le hi with hi | rfl
                · exact hr i hi
                · exact hrel
            | stale i _ ha _ hl' =>
                rw [trySpinAcquire_succ hl'] at hl
                have hrel := (meets_of_iterate hl).1
                simp [MutexSignal.isReleased, ha] at hrel
  · intro hw
    obtain ⟨j, hj, hm, hr, hc⟩ := hw
    refine acquired_mono (Nat.succ_le_of_lt hj) ?_
    have hstand : Standing S v₀ h j := standing hc
    cases hstand with
    | acquired _ _ _ _ hl => exact trySpinAcquire_ended hl fun _ e => by cases e
    | fresh _ _ hl =>
        rw [trySpinAcquire_succ hl]
        exact iterate_meets (hr j (Nat.le_refl j)) hm.1 hm.2
    | stale i hi ha _ _ =>
        have := hr i (Nat.le_of_lt hi)
        simp [MutexSignal.isReleased, ha] at this

/-! ## 6. The loop in the machine -/

theorem trySpinAcquire_congr {v₀ : V} {h h' : ℕ → Iteration V} {n : ℕ}
    (hh : ∀ i < n, h' i = h i) : trySpinAcquire S v₀ h' n = trySpinAcquire S v₀ h n := by
  induction n with
  | zero => rfl
  | succ n ih =>
      have hn := ih fun i hi => hh i (Nat.lt_succ_of_lt hi)
      simp only [trySpinAcquire, hn, hh n (Nat.lt_succ_self n)]

/-- What is recorded as iteration `n` does not matter before it. -/
theorem trySpinAcquire_record (v₀ : V) (h : ℕ → Iteration V) (n : ℕ) (it : Iteration V) :
    trySpinAcquire S v₀ (Function.update h n it) n = trySpinAcquire S v₀ h n :=
  trySpinAcquire_congr fun i hi => by rw [Function.update_of_ne (Nat.ne_of_lt hi)]

/-- One more iteration on top of a history. -/
theorem trySpinAcquire_update {v₀ : V} {h : ℕ → Iteration V} {n : ℕ} {current : V}
    (hl : trySpinAcquire S v₀ h n = .going current) (it : Iteration V) :
    trySpinAcquire S v₀ (Function.update h n it) (n + 1) = iterate S current it := by
  rw [trySpinAcquire_succ ((trySpinAcquire_record v₀ h n it).trans hl), Function.update_self]

variable {ι T : Type} [DecidableEq ι]

/-- The history with its number of iterations, after one more transition: an exchange of slot `i`
    begins an iteration, the answer of the token it asks for belongs to the last one. -/
def record (i : ι) (t : Trans (Config V ι T) (Act ι T)) (h : ℕ → Iteration V) (n : ℕ) :
    (ℕ → Iteration V) × ℕ :=
  match t.act with
  | .run j (.attempt b) =>
    if j = i then (Function.update h n ⟨t.pre.state, b, false⟩, n + 1) else (h, n)
  | .run j (.poll d) =>
    if j = i then (Function.update h (n - 1) { h (n - 1) with cancelled := d }, n) else (h, n)
  | _ => (h, n)

/-- **What the lock call in slot `i` has met along a run**, and the number of its iterations. -/
def history (i : ι) (v₀ : V) : List (Trans (Config V ι T) (Act ι T)) → (ℕ → Iteration V) × ℕ
  | [] => (fun _ => ⟨v₀, false, false⟩, 0)
  | t :: ts => record i t (history i v₀ ts).1 (history i v₀ ts).2

omit [DecidableEq V] in
theorem record_other {i : ι} {t : Trans (Config V ι T) (Act ι T)} {h : ℕ → Iteration V} {n : ℕ}
    (ha : ∀ b, t.act ≠ .run i b) : record i t h n = (h, n) := by
  unfold record
  split
  · next j b hj => exact if_neg fun e => ha _ (e ▸ hj)
  · next j d hj => exact if_neg fun e => ha _ (e ▸ hj)
  · rfl

/-- A slot of the machine and the loop: between two iterations, or in front of the question to
    the token, whose answer `d` alone is missing. -/
inductive Follows (S : MutexSignal V) (v₀ : V) (h : ℕ → Iteration V) : ℕ → Slot V → Prop where
  | trying (n : ℕ) (current : V) (hl : trySpinAcquire S v₀ h n = .going current) :
      Follows S v₀ h n (.trying .lock current)
  | polling (n : ℕ) (x current : V) (hl : trySpinAcquire S v₀ h n = .going current)
      (hd : ∀ d, iterate S current { h n with cancelled := d } =
        if d then .cancelled else .going x) : Follows S v₀ h (n + 1) (.polling x)
  | guard (n : ℕ) (hl : trySpinAcquire S v₀ h n = .acquired) : Follows S v₀ h n .guard
  | idle (n : ℕ) (hl : trySpinAcquire S v₀ h n = .cancelled) : Follows S v₀ h n .idle

/-- A slot that follows the loop has a guard when the loop has. -/
theorem Follows.guard_iff {v₀ : V} {h : ℕ → Iteration V} {n : ℕ} {c : Slot V}
    (hf : Follows S v₀ h n c) : c = .guard ↔ trySpinAcquire S v₀ h n = .acquired := by
  cases hf with
  | guard n hl => exact iff_of_true rfl hl
  | trying n current hl =>
      refine iff_of_false (fun e => by cases e) fun e => ?_
      cases hl.symm.trans e
  | idle n hl =>
      refine iff_of_false (fun e => by cases e) fun e => ?_
      cases hl.symm.trans e
  | polling n x current hl hd =>
      refine iff_of_false (fun e => by cases e) fun e => ?_
      have hnext := (trySpinAcquire_succ hl).symm.trans e
      rw [show h n = { h n with cancelled := (h n).cancelled } from rfl, hd] at hnext
      cases hc : (h n).cancelled <;> rw [hc] at hnext <;> cases hnext

/-- A step in which slot `i` does nothing but go on with its lock call. -/
def Act.waits (i : ι) : Act ι T → Bool
  | .run _ (.attempt _) | .run _ (.poll _) => true
  | .run j _ => decide (j ≠ i)
  | .store _ _ => true

/-- **The step lemma**: what a step does to a slot in the loop is recorded, and the slot follows. -/
theorem follows_step {t : Trans (Config V ι T) (Act ι T)} (hs : step S t.pre t.act = some t.post)
    {i : ι} (ha : t.act.waits i = true) {v₀ : V} {h : ℕ → Iteration V} {n : ℕ}
    (hf : Follows S v₀ h n (t.pre.slots i)) :
    Follows S v₀ (record i t h n).1 (record i t h n).2 (t.post.slots i) := by
  obtain ⟨s, a, s'⟩ := t
  replace hs : step S s a = some s' := hs
  replace hf : Follows S v₀ h n (s.slots i) := hf
  show Follows S v₀ _ _ (s'.slots i)
  by_cases hown : ∃ b, a = .run i b
  · obtain ⟨b, rfl⟩ := hown
    cases step_cases hs with
    | called _ m hi => simp [Act.waits] at ha
    | loaded _ m hi => simp [Act.waits] at ha
    | dropped _ hi => simp [Act.waits] at ha
    | acquired _ m hi hr =>
        rw [hi] at hf
        cases hf with
        | trying _ _ hl =>
            simp only [record, if_true]
            rw [show ({ s.put i .guard with state := S.makeAcquired s.state } :
              Config V ι T).slots i = .guard from s.put_slots_self i .guard]
            exact .guard _ ((trySpinAcquire_update hl _).trans (iterate_meets hr rfl rfl))
    | failed _ m current b hi hr hb =>
        rw [hi] at hf
        cases hf with
        | trying _ _ hl =>
            simp only [record, if_true]
            rw [Config.put_slots_self]
            have hn := (trySpinAcquire_record v₀ h n ⟨s.state, b, false⟩).trans hl
            refine .polling n s.state current hn fun d => ?_
            rw [Function.update_self]
            refine iterate_fails hr fun hm => ?_
            obtain ⟨hc, hb'⟩ := hm
            exact absurd ((hb hc).symm.trans hb') Bool.true_eq_false.mp
    | refused _ m current b hi hr =>
        rw [hi] at hf
        cases hf with
        | trying _ _ hl =>
            simp only [record, if_true]
            rw [Config.put_slots_self]
            have hn := (trySpinAcquire_record v₀ h n ⟨s.state, b, false⟩).trans hl
            refine .polling n current current hn fun d => ?_
            rw [Function.update_self]
            exact iterate_refuses (by simpa [MutexSignal.isReleased] using hr)
    | polled _ x d hi =>
        rw [hi] at hf
        cases hf with
        | polling n _ current hl hd =>
            have hnext := (trySpinAcquire_update hl { h n with cancelled := d }).trans (hd d)
            simp only [record, if_true, Nat.add_sub_cancel]
            rw [Config.put_slots_self]
            cases d with
            | true => exact .idle _ hnext
            | false => exact .trying _ x hnext
  · rw [slots_other hs fun b hb => hown ⟨b, hb⟩, record_other fun b hb => hown ⟨b, hb⟩]
    exact hf

/-- **The run lemma**: between its load and its end a lock call of the machine is the loop, on the
    history its run has written, whatever the other slots do. -/
theorem follows_run {s₀ s : Config V ι T} {ts : List (Trans (Config V ι T) (Act ι T))}
    (hr : Run (step S) s₀ ts s) {i : ι} {v₀ : V} (h0 : s₀.slots i = .trying .lock v₀)
    (ha : ∀ t ∈ ts, t.act.waits i = true) :
    Follows S v₀ (history i v₀ ts).1 (history i v₀ ts).2 (s.slots i) := by
  induction hr with
  | start =>
      rw [h0]
      exact .trying 0 v₀ rfl
  | next _ hs ih =>
      have hf := ih fun t ht => ha t (List.mem_cons_of_mem _ ht)
      exact follows_step (t := ⟨_, _, _⟩) hs (ha _ List.mem_cons_self) hf

/-- **When a lock call has its guard.** From the load of `v₀` on, along every run in which slot `i`
    goes on with its call and the other slots do what they like: it has its guard iff one of its
    exchanges found the value read last and did not fail spuriously, every value read up to there
    was released, and the token had said nothing. A call that loads an acquired value has none. -/
theorem lock_call_guard_iff {s₀ s : Config V ι T} {ts : List (Trans (Config V ι T) (Act ι T))}
    (hr : Run (step S) s₀ ts s) {i : ι} {v₀ : V} (h0 : s₀.slots i = .trying .lock v₀)
    (ha : ∀ t ∈ ts, t.act.waits i = true) :
    s.slots i = .guard ↔ ∃ j < (history i v₀ ts).2, Wins S v₀ (history i v₀ ts).1 j :=
  (follows_run hr h0 ha).guard_iff.trans acquired_iff_wins

/-- The criterion at work: slot 0 has loaded the released cell, slot 1 locks and drops, the first
    exchange of slot 0 fails spuriously and the second gives it the guard. -/
theorem lock_call_guard_iff_second :
    ∃ ts s us s', Run (step (msbAsMutexSignal 8)) (init (Fin 2) 0#8 ()) ts s ∧
      s.slots 0 = .trying .lock 0#8 ∧ Run (step (msbAsMutexSignal 8)) s us s' ∧
      (history 0 0#8 us).2 = 2 ∧ s'.slots 0 = .guard := by
  obtain ⟨ts, s, us, s', hr, hseg, h0, ha, hn, hw⟩ :=
    Run.of_exec_segment (step (msbAsMutexSignal 8)) (init (Fin 2) 0#8 ())
      [.run 0 (.call .lock), .run 0 .load]
      [.run 1 (.call .lock), .run 1 .load, .run 1 (.attempt false), .run 1 .drop,
        .run 0 (.attempt true), .run 0 (.poll false), .run 0 (.attempt false)]
      (fun _ s us _ => s.slots 0 = .trying .lock 0#8 ∧ (∀ t ∈ us, t.act.waits 0 = true) ∧
        (history 0 0#8 us).2 = 2 ∧
        Wins (msbAsMutexSignal 8) 0#8 (history 0 0#8 us).1 1) (by decide)
  have hg := (lock_call_guard_iff hseg h0 ha).mpr ⟨1, by rw [hn]; exact Nat.one_lt_two, hw⟩
  exact ⟨ts, s, us, s', hr, h0, hseg, hn, hg⟩

end AtomicSync.Mutex
