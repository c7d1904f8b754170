/-
  File:      AtomicSync/RwLock/LockFree.lean
  Subject:   The update loops make progress together: what one of them loses another has won.

  Nothing bounds how often ONE loop of `try_spin_update_` loses its exchange. But it loses only to
  a word that has changed since it read it last, it has the new word then, and the word changes in
  an exchange that succeeds. So a loop is behind the word at most once for each success of another
  one, and the losses of all loops together are paid by the successes. The same count bounds the
  loads: a slot loads once for each update it has ended. Spurious failures are left out; the code
  makes nothing of them, and nothing bounds them.

  * `event` -- what an access is, for its loop;
  * `Config.Spinning.behind` -- the loops that have not read the word as it is, with a weight for
    the slots that have no loop;
  * `behind_step` -- what each event costs or adds, one lemma for both weights;
  * **`lost_exchanges_paid`**, **`accesses_paid`** -- along every run. In particular among any
    `n + 1` accesses of the loops of `n` slots that do not fail spuriously, some update ends.
-/
import Mathlib.Algebra.BigOperators.Ring.List
import AtomicSync.RwLock.Accesses
import AtomicSync.RwLock.Counter

namespace AtomicSync.RwLock

open Atomics

variable {w : ℕ} {ι T : Type} [DecidableEq ι]

/-! ## 1. Events -/

/-- What an access is for the loop it belongs to. -/
inductive Event where
  /-- the load an update begins with -/
  | began
  /-- an exchange that succeeds -/
  | won
  /-- an exchange that finds another word than the loop has read -/
  | lost
  /-- one that fails on the word it expects -/
  | spurious
  /-- the predicate refuses the value at hand, and the loop returns -/
  | refused
  /-- an access of no loop -/
  | plain
  deriving DecidableEq, Repr

/-- The event of an access. -/
def event (t : Trans (Config.Spinning w ι T) (Access ι T)) : Event :=
  match t.act with
  | .load _ => .began
  | .plain _ => .plain
  | .exchange a b =>
    match t.pre.spins (actor a), (site a).bind (t.pre.slots (actor a)).atSite with
    | some sp, some (u, _) =>
      match (tryOnceCompareExchangeWeak u.expect u.desire b sp.current t.pre.stat).1 with
      | .succ _ => .won
      | .fail found => if found = sp.current then .spurious else .lost
      | .unexpected _ => .refused
    | _, _ => .plain

/-- 1 for the event `e`. -/
def tally (e : Event) (t : Trans (Config.Spinning w ι T) (Access ι T)) : ℕ :=
  if event t = e then 1 else 0

/-! ## 2. Loops behind the word -/

omit [DecidableEq ι] in
/-- The weight of a loop: 1 if it has read another word than `stat`. A slot without one weighs
    `b`. -/
def behind (b : ℕ) (stat : BitVec w) : Option (Spin w) → ℕ
  | none => b
  | some sp => if sp.current = stat then 0 else 1

theorem behind_le {b : ℕ} (hb : b ≤ 1) (stat : BitVec w) (sp : Option (Spin w)) :
    behind b stat sp ≤ 1 := by
  unfold behind
  split
  · exact hb
  · split
    · exact Nat.zero_le _
    · exact Nat.le_refl _

variable [Fintype ι]

/-- **The loops that have not read the word as it is**, and `b` for every slot without one. -/
def Config.Spinning.behind (b : ℕ) (s : Config.Spinning w ι T) : ℕ :=
  Population.total (RwLock.behind b s.stat) s.spins

/-- A slot's update begins, goes on or ends on the word as it is. -/
theorem behind_spin (b : ℕ) (s : Config.Spinning w ι T) (i : ι) (sp : Option (Spin w)) :
    (s.spin i sp).behind b + RwLock.behind b s.stat (s.spins i) =
      s.behind b + RwLock.behind b s.stat sp :=
  Population.total_update (RwLock.behind b s.stat) s.spins i sp

omit [Fintype ι] [DecidableEq ι] in
theorem tally_of {t : Trans (Config.Spinning w ι T) (Access ι T)} {e : Event} (h : event t = e)
    (e' : Event) : tally e' t = if e = e' then 1 else 0 := by
  rw [tally, h]

/-- **The step lemma**: a load costs the weight of a slot without a loop, a lost exchange costs 1;
    a success may put all the other loops behind, and gives the weight of its slot back, as a
    refusal does. -/
theorem behind_step {b : ℕ} (hb : b ≤ 1) {t : Trans (Config.Spinning w ι T) (Access ι T)}
    (h : spinStep t.pre t.act = some t.post) :
    t.post.behind b + (b * tally .began t + tally .lost t) ≤
      t.pre.behind b + ((Fintype.card ι - 1 + b) * tally .won t + b * tally .refused t) := by
  obtain ⟨s, x, s'⟩ := t
  change spinStep s x = some s' at h
  simp only
  cases spinStep_cases h with
  | loaded a st u c hn hst ha hc =>
      have hspin := behind_spin b s (actor a) (some ⟨st, s.stat⟩)
      rw [hn, show RwLock.behind b s.stat (some ⟨st, s.stat⟩) = 0 from if_pos rfl] at hspin
      have hev : event ⟨s, .load a, s.spin (actor a) (some ⟨st, s.stat⟩)⟩ = .began := rfl
      have hone : RwLock.behind b s.stat (none : Option (Spin w)) = b := rfl
      simp only [tally_of hev, reduceCtorEq, if_true, if_false]
      omega
  | swapped a k sp u r c hsp hst hu he ho hc =>
      have hev : event ⟨s, .exchange a k, { s with toConfig := c }.spin (actor a) none⟩ =
          .won := by
        simp [event, hsp, hst, hu, ho]
      -- wherever the other loops are
      have hpost := Population.total_le_add (behind_le hb c.stat)
        (Function.update s.spins (actor a) none) (actor a)
      rw [Function.update_self] at hpost
      have hone : RwLock.behind b c.stat (none : Option (Spin w)) = b := rfl
      simp only [tally_of hev, reduceCtorEq, if_true, if_false]
      show Population.total (RwLock.behind b c.stat) (Function.update s.spins (actor a) none) + _
        ≤ _
      omega
  | failed a k sp u r c hsp hst hu he ho hc =>
      have hspin := behind_spin b s (actor a) (some { sp with current := s.stat })
      rw [hsp, show RwLock.behind b s.stat (some { sp with current := s.stat }) = 0 from
        if_pos rfl] at hspin
      by_cases hcur : s.stat = sp.current
      · have hev : event ⟨s, .exchange a k, s.spin (actor a) (some { sp with current := s.stat })⟩ =
            .spurious := by
          simp only [event, hsp, hst, Option.bind_some, hu, ho]
          exact if_pos hcur
        simp only [tally_of hev, reduceCtorEq, if_false]
        omega
      · have hev : event ⟨s, .exchange a k, s.spin (actor a) (some { sp with current := s.stat })⟩ =
            .lost := by
          simp [event, hsp, hst, hu, ho, hcur]
        have hone : RwLock.behind b s.stat (some sp) = 1 := if_neg fun e => hcur e.symm
        simp only [tally_of hev, reduceCtorEq, if_true, if_false]
        omega
  | returned a k sp u r c hsp hst hu he ho hc =>
      have hev : event ⟨s, .exchange a k,
          { s with toConfig := s.put (actor a) r }.spin (actor a) none⟩ = .refused := by
        simp [event, hsp, hst, hu, ho]
      have hspin := behind_spin b s (actor a) none
      have hone : RwLock.behind b s.stat (none : Option (Spin w)) = b := rfl
      simp only [tally_of hev, reduceCtorEq, if_true, if_false]
      show (s.spin (actor a) none).behind b + _ ≤ _
      omega
  | plain a c hn ha hc =>
      have hstat : c.stat = s.stat := by
        rw [stat_of_step hc, ha]
      have hsame : Config.Spinning.behind b { s with toConfig := c } = s.behind b := by
        unfold Config.Spinning.behind
        rw [hstat]
      have hev : event ⟨s, .plain a, { s with toConfig := c }⟩ = .plain := rfl
      simp only [tally_of hev, reduceCtorEq, if_false]
      omega

/-! ## 3. Along a run -/

omit [DecidableEq ι] [Fintype ι] in
/-- How often `e` comes along `us`. -/
def times (e : Event) (us : List (Trans (Config.Spinning w ι T) (Access ι T))) : ℕ :=
  (us.map (tally e)).sum

omit [DecidableEq ι] [Fintype ι] in
/-- Every access is one of them. -/
theorem length_eq_times (us : List (Trans (Config.Spinning w ι T) (Access ι T))) :
    us.length = times .began us + times .won us + times .lost us + times .spurious us +
      times .refused us + times .plain us := by
  induction us with
  | nil => rfl
  | cons t us ih =>
      simp only [times, List.map_cons, List.sum_cons, List.length_cons] at ih ⊢
      cases he : event t <;> simp only [tally_of he, reduceCtorEq, if_true, if_false] <;> omega

/-- **The run lemma.** -/
theorem behind_run {b : ℕ} (hb : b ≤ 1) {s s' : Config.Spinning w ι T}
    {us : List (Trans (Config.Spinning w ι T) (Access ι T))} (hr : Run spinStep s us s') :
    s'.behind b + (b * times .began us + times .lost us) ≤
      s.behind b + ((Fintype.card ι - 1 + b) * times .won us + b * times .refused us) := by
  have hpaid := hr.paid (Config.Spinning.behind b)
    (fun t => b * tally .began t + tally .lost t)
    (fun t => (Fintype.card ι - 1 + b) * tally .won t + b * tally .refused t) fun t ht =>
      behind_step hb (hr.of_mem ht).1
  simp only [List.sum_map_add, List.sum_map_mul_left] at hpaid
  exact hpaid

/-- **Lost exchanges are paid by exchanges that succeed**: along every run by accesses from a lock
    at rest, over `n` slots, at most `n - 1` are lost for each success, all slots taken together,
    whatever the updates are and in whatever order the accesses come. -/
theorem lost_exchanges_paid {c : Config w ι T}
    {ts : List (Trans (Config.Spinning w ι T) (Access ι T))} {s : Config.Spinning w ι T}
    (hr : Run spinStep c.atRest ts s) :
    times .lost ts ≤ (Fintype.card ι - 1) * times .won ts := by
  have hpaid := behind_run (Nat.zero_le 1) hr
  have hrest : c.atRest.behind 0 = 0 := Population.total_eq_zero.mpr fun _ => rfl
  rw [Nat.add_zero (Fintype.card ι - 1)] at hpaid
  omega

/-- Two readers load the same word: one of them loses to the other, and comes second. -/
theorem lost_exchanges_paid_readers :
    ∃ ts s, Run spinStep (init 8 (Fin 2) ()).atRest ts s ∧ s.stat = 2#8 ∧ times .lost ts = 1 ∧
      times .lost ts ≤ (2 - 1) * times .won ts := by
  obtain ⟨ts, s, hr, hs, hl⟩ := Run.of_exec spinStep (init 8 (Fin 2) ()).atRest
    [.plain (.run 0 (.call .read .once)), .plain (.run 1 (.call .read .once)),
      .load (.run 0 .attempt), .load (.run 1 .attempt), .exchange (.run 0 .attempt) false,
      .exchange (.run 1 .attempt) false, .exchange (.run 1 .attempt) false]
    (fun ts s => s.stat = 2#8 ∧ times .lost ts = 1) (by decide)
  exact ⟨ts, s, hr, hs, hl, lost_exchanges_paid hr⟩

/-- **All accesses are paid by the updates that end**: along every run, from any state in which any
    loops are under way. With no update ending, no spurious failure and no other access the loops of
    `n` slots come to a stop after `n` accesses; so some update ends among any `n + 1`. -/
theorem accesses_paid {s s' : Config.Spinning w ι T}
    {us : List (Trans (Config.Spinning w ι T) (Access ι T))} (hr : Run spinStep s us s') :
    us.length ≤ Fintype.card ι + (Fintype.card ι + 1) * times .won us + 2 * times .refused us +
      times .spurious us + times .plain us := by
  cases hus : us with
  | nil => exact Nat.zero_le _
  | cons t us' =>
      -- some slot makes the first of them
      have hpos : 0 < Fintype.card ι := by
        refine Fintype.card_pos_iff.mpr ⟨?_⟩
        cases t.act with
        | load a => exact actor a
        | exchange a b => exact actor a
        | plain a => exact actor a
      rw [← hus]
      have hpaid := behind_run (Nat.le_refl 1) hr
      have hstart : s.behind 1 ≤ 1 * Fintype.card ι :=
        Population.total_le (behind_le (Nat.le_refl 1) s.stat) s.spins
      rw [Nat.sub_add_cancel hpos] at hpaid
      rw [length_eq_times us, Nat.add_mul]
      omega

/-- Three readers are about to exchange the same word. One success makes two of them lose: with it
    there are three accesses, of at most seven. -/
theorem accesses_paid_readers :
    ∃ s us s', Run (spinStep (w := 8) (ι := Fin 3) (T := Unit)) s us s' ∧ us.length = 3 ∧
      times .lost us = 2 ∧ us.length ≤ 3 + 4 * times .won us + 2 * times .refused us +
        times .spurious us + times .plain us := by
  obtain ⟨-, s, us, s', -, hseg, hlen, hl⟩ := Run.of_exec_segment spinStep
    (init 8 (Fin 3) ()).atRest
    [.plain (.run 0 (.call .read .once)), .plain (.run 1 (.call .read .once)),
      .plain (.run 2 (.call .read .once)), .load (.run 0 .attempt), .load (.run 1 .attempt),
      .load (.run 2 .attempt)]
    [.exchange (.run 0 .attempt) false, .exchange (.run 1 .attempt) false,
      .exchange (.run 2 .attempt) false]
    (fun _ _ us _ => us.length = 3 ∧ times .lost us = 2) (by decide)
  exact ⟨s, us, s', hseg, hlen, hl, accesses_paid hseg⟩

end AtomicSync.RwLock
