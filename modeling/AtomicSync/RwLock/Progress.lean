/-
  File:      AtomicSync/RwLock/Progress.lean
  Subject:   The lock is never stuck: from every reachable state its users can free it, and every
             task that waits can still be served.

  Nothing here is about schedulers. A state from which NO continuation frees the lock, or none
  serves a waiter, would be a deadlock of the protocol itself: a flag with nobody to clear it, a
  unit of the counter with nobody to return it, two upgrades that wait for one another. There is
  none, in the runs that keep the word's meaning (`Disciplined`).

  A slot is finished by the step that ends what it is doing: an attempt, the second half of a
  refused write, a cancelled poll, a drop (`Slot.finish`); each of them lowers `Slot.cost`. The
  ORDER matters in two places. A pending `upgradable_read` may overflow the counter, so the readers
  go first; a pending pinned upgrade needs a slot for its WriterGuard, so it goes last.

  * `drains` -- finishing steps leave less to do, whatever slots are kept as they are;
  * **`can_be_freed`** -- the lock can always be brought back to word 0 with nobody in it;
  * **`every_waiter_can_be_served`** -- a waiting task gets its guard in some continuation that
    does not cancel it.
-/
import AtomicSync.Lib.Progress
import AtomicSync.RwLock.Data
import AtomicSync.RwLock.ReaderCount

namespace AtomicSync.RwLock

variable {w : ℕ} {ι T : Type}

/-! ## 1. Finishing a slot -/

/-- The step that ends what the slot is doing. A call on an `Upgrade` ends with its attempt, which
    is no step of the slot alone. -/
def Slot.finish : Slot ι → Option Action
  | .idle | .upgrading _ => none
  | .calling _ _ => some .attempt
  | .refused _ => some .queue
  | .polling _ | .upgradePolling => some (.poll true)
  | .reader | .upgradable | .upgrade | .writer _ => some .drop
  | .consuming => some .dropMoved

/-- How many steps a slot is from idle, at most. -/
def Slot.cost : Slot ι → ℕ
  | .idle => 0
  | .polling _ | .reader | .upgradable | .upgrade | .writer _ => 1
  | .refused _ | .upgradePolling | .consuming => 2
  | .calling _ _ | .upgrading _ => 3

/-- What a slot contains after an instruction is less than `n` steps from idle. -/
def Instr.Below (n : ℕ) : Instr ι → Prop
  | .move c => c.cost < n
  | .update _ g r => g.cost < n ∧ r.cost < n

/-- **Finishing lowers the cost**, whatever the outcome. -/
theorem Slot.finish_lowers {c : Slot ι} {a : Action} (h : c.finish = some a) :
    ∃ ins, c.instr a = some ins ∧ ins.Below c.cost := by
  cases c with
  | idle => cases h
  | upgrading m => cases h
  | calling k m =>
      cases h
      cases k <;> exact ⟨_, rfl, by simp [Slot.cost], by cases m <;> simp [Slot.cost, refusal]⟩
  | refused m =>
      cases h
      cases m <;> exact ⟨_, rfl, by simp [Slot.cost, refusal], by simp [Slot.cost, refusal]⟩
  | polling k =>
      cases h
      exact ⟨_, rfl, Nat.one_pos⟩
  | upgradePolling =>
      cases h
      exact ⟨_, rfl, Nat.one_lt_two⟩
  | consuming =>
      cases h
      exact ⟨_, rfl, Nat.one_lt_two, Nat.one_lt_two⟩
  | _ =>
      cases h
      exact ⟨_, rfl, Nat.one_pos, Nat.one_pos⟩

/-- Only a pending `upgradable_read` is finished by its update, -/
theorem Slot.finish_upgradableRead {c g r : Slot ι} {a : Action} (h : c.finish = some a)
    (hi : c.instr a = some (.update .tryUpgradableRead g r)) :
    ∃ m, c = .calling .upgradableRead m := by
  cases c with
  | idle => cases h
  | upgrading m => cases h
  | calling k m =>
      cases h
      cases k with
      | upgradableRead => exact ⟨m, rfl⟩
      | _ => cases hi
  | _ =>
      cases h
      cases hi

/-- and nothing by a downgrade. -/
theorem Slot.finish_not_downgrade {c g r : Slot ι} {a : Action} (h : c.finish = some a) :
    c.instr a ≠ some (.update .downgradeWriteToUpgradable g r) := by
  intro hi
  obtain ⟨o, rfl, -⟩ := (Slot.instr_from hi).2.2 rfl
  cases h
  cases hi

section Steps

variable [DecidableEq ι]

/-- **A slot with something to finish can finish it.** -/
theorem finish_step {s : Config w ι T} {i : ι} {a : Action} (h : (s.slots i).finish = some a) :
    ∃ s' c, step s (.run i a) = some s' ∧ s'.slots = Function.update s.slots i c ∧
      s'.data = s.data ∧ c.cost < (s.slots i).cost := by
  obtain ⟨ins, hi, hb⟩ := Slot.finish_lowers h
  cases ins with
  | move c => exact ⟨_, c, step_of_case (.move i a c hi), rfl, rfl, hb⟩
  | update u g r =>
      cases hu : u.run s.stat with
      | some stat' => exact ⟨_, g, step_of_case (.granted i a u g r stat' hi hu), rfl, rfl, hb.1⟩
      | none => exact ⟨_, r, step_of_case (.refused i a u g r hi hu), rfl, rfl, hb.2⟩

/-- The pinned upgrade is attempted, with another slot at hand for its WriterGuard. -/
theorem attemptUpgrade_step {s : Config w ι T} {i j : ι} {m : Mode} (hi : s.slots i = .upgrading m)
    (hj : s.slots j = .idle) : ∃ s' c c', step s (.attemptUpgrade i j) = some s' ∧
      s'.slots = Function.update (Function.update s.slots i c) j c' ∧ s'.data = s.data ∧
      c.cost + c'.cost ≤ 2 := by
  have hij : j ≠ i := by
    rintro rfl
    rw [hi] at hj
    cases hj
  cases hu : Update.upgradeUpgradableToWrite.run s.stat with
  | some stat' =>
      exact ⟨_, .upgrade, .writer (.pinned i), step_of_case (.lent i j m stat' hi hj hu), rfl, rfl,
        Nat.le_refl 2⟩
  | none =>
      refine ⟨_, upgradeRefusal m, .idle, step_of_case (.notLent i j m hi hj hu), ?_, rfl, ?_⟩
      · have hkeep : Function.update s.slots i (upgradeRefusal m) j = .idle := by
          rw [Function.update_of_ne hij, hj]
        rw [← hkeep, Function.update_eq_self]
        rfl
      · cases m <;> simp [Slot.cost, upgradeRefusal]

end Steps

/-! ## 2. What a finishing step may do -/

/-- The action begins a call. -/
def Act.begins : Act ι T → Bool
  | .run _ (.call _ _) | .run _ (.startUpgrade _) => true
  | _ => false

/-- **A finishing step**: it begins nothing, leaves the data alone, keeps to the rules of a
    disciplined run, and does not touch the slots of `K`. -/
structure Finishing (K : Finset ι) (t : LockTrans w ι T) : Prop where
  disciplined : Disciplined t
  begins : t.act.begins = false
  data : t.post.data = t.pre.data
  kept : ∀ i ∈ K, t.post.slots i = t.pre.slots i

/-- **A slot that has lent nothing is finished with discipline**, if an `upgradable_read` finds
    room in the counter. -/
theorem finish_disciplined {s s' : Config w ι T} {i : ι} {a : Action}
    (h : (s.slots i).finish = some a) (hL : ¬ Lent s i)
    (hO : (∃ m, s.slots i = .calling .upgradableRead m) →
      (fields s.stat).count < maxReaderCount w) : Disciplined ⟨s, .run i a, s'⟩ where
  leak hl := by
    cases hi : s.slots i <;> rw [hi] at h <;> cases h <;> cases hl
  borrow := hL
  overflow := by
    rintro ⟨hu, -, hc⟩
    rcases instr_of_updateAt hu with ⟨k, b, g, r, e, hi⟩ | ⟨k, l, e, -⟩
    · cases e
      have := hO (Slot.finish_upgradableRead h hi)
      exact absurd hc (Nat.ne_of_lt this)
    · cases e
  pinned := by
    rintro ⟨hu, -⟩
    rcases instr_of_updateAt hu with ⟨k, b, g, r, e, hi⟩ | ⟨k, l, e, -⟩
    · cases e
      exact Slot.finish_not_downgrade h hi
    · cases e

theorem attemptUpgrade_disciplined {s s' : Config w ι T} {i j : ι} (hL : ¬ Lent s i) :
    Disciplined ⟨s, .attemptUpgrade i j, s'⟩ where
  leak hl := by cases hl
  borrow := hL
  overflow hO := by cases hO.1
  pinned hP := by cases hP.1

theorem finish_begins {c : Slot ι} {a : Action} (h : c.finish = some a) (i : ι) :
    (Act.run i a : Act ι T).begins = false := by
  cases c <;> cases h <;> rfl

/-! ## 3. Draining -/

/-- The slots that are finished first: nothing stands in their way. -/
def Slot.first : Slot ι → Bool
  | .reader | .writer _ | .consuming | .refused _ | .polling _ => true
  | _ => false

/-- A call that waits: it may be kept while everybody else leaves. -/
def Slot.waits : Slot ι → Bool
  | .calling _ _ | .refused _ | .polling _ | .upgrading _ | .upgradePolling => true
  | _ => false

theorem Slot.cost_pos {c : Slot ι} : 0 < c.cost ↔ c ≠ .idle := by
  cases c <;> simp [Slot.cost]

theorem Slot.cost_le (c : Slot ι) : c.cost ≤ 3 := by
  cases c <;> simp [Slot.cost]

/-- Neither a waiting call nor a slot that is not among the first holds a reader or a writer. -/
theorem Slot.holds_of_waits {c : Slot ι} (h : c.waits = true ∨ c.first = false) :
    c.holds .reader = false ∧ c.holds .writer = false := by
  cases c with
  | reader => rcases h with h | h <;> cases h
  | writer o => rcases h with h | h <;> cases h
  | consuming => rcases h with h | h <;> cases h
  | _ => exact ⟨rfl, rfl⟩

/-- What is left when the first slots and the pending calls are gone. -/
theorem Slot.rest {c : Slot ι} (h : c.first = false) (hc : ∀ k m, c ≠ .calling k m)
    (h0 : c ≠ .idle) :
    c.holds .upgradable = true := by
  cases c with
  | idle => exact absurd rfl h0
  | calling k m => exact absurd rfl (hc k m)
  | upgradable => rfl
  | upgrade => rfl
  | upgrading m => rfl
  | upgradePolling => rfl
  | _ => cases h

/-- Every slot is idle, attempts a pinned upgrade, or can be finished. -/
theorem Slot.finish_or (c : Slot ι) :
    c = .idle ∨ (∃ m, c = .upgrading m) ∨ ∃ a, c.finish = some a := by
  cases c with
  | idle => exact Or.inl rfl
  | upgrading m => exact Or.inr (Or.inl ⟨m, rfl⟩)
  | _ => exact Or.inr (Or.inr ⟨_, rfl⟩)

/-- The first slots can be finished, and none of them is an `upgradable_read`. -/
theorem Slot.finish_of_first {c : Slot ι} (h : c.first = true) :
    (∃ a, c.finish = some a) ∧ ∀ k m, c ≠ .calling k m := by
  cases c with
  | reader => exact ⟨⟨_, rfl⟩, fun k m e => by cases e⟩
  | writer o => exact ⟨⟨_, rfl⟩, fun k m e => by cases e⟩
  | consuming => exact ⟨⟨_, rfl⟩, fun k m e => by cases e⟩
  | refused m => exact ⟨⟨_, rfl⟩, fun k m e => by cases e⟩
  | polling k => exact ⟨⟨_, rfl⟩, fun k m e => by cases e⟩
  | _ => cases h

section Drains

variable [Fintype ι] [DecidableEq ι]

/-- What is left to finish, the slots of `K` apart. -/
def Config.toFinish (K : Finset ι) (s : Config w ι T) : ℕ :=
  Population.total Slot.cost fun i => if i ∈ K then .idle else s.slots i

theorem toFinish_le (K : Finset ι) (s : Config w ι T) : s.toFinish K ≤ 3 * Fintype.card ι :=
  Population.total_le Slot.cost_le _

theorem toFinish_pos {K : Finset ι} {s : Config w ι T} :
    0 < s.toFinish K ↔ ∃ i, i ∉ K ∧ s.slots i ≠ .idle := by
  constructor
  · intro h
    obtain ⟨i, hi⟩ := Population.exists_of_total_pos h
    by_cases hK : i ∈ K
    · rw [if_pos hK] at hi
      cases hi
    · rw [if_neg hK] at hi
      exact ⟨i, hK, Slot.cost_pos.mp hi⟩
  · rintro ⟨i, hK, hi⟩
    have h := Population.le_total Slot.cost (fun i => if i ∈ K then .idle else s.slots i) i
    rw [if_neg hK] at h
    exact Nat.lt_of_lt_of_le (Slot.cost_pos.mpr hi) h

/-- One slot outside `K` changes. -/
theorem toFinish_update {K : Finset ι} {s t : Config w ι T} {i : ι} {c : Slot ι} (hi : i ∉ K)
    (h : t.slots = Function.update s.slots i c) :
    t.toFinish K + (s.slots i).cost = s.toFinish K + c.cost := by
  have hmask : (fun j => if j ∈ K then .idle else t.slots j) =
      Function.update (fun j => if j ∈ K then .idle else s.slots j) i c := by
    funext j
    by_cases hji : j = i
    · rw [hji, if_neg hi, h, Function.update_self, Function.update_self]
    · rw [Function.update_of_ne hji, h, Function.update_of_ne hji]
  have hsum := Population.total_update Slot.cost (fun j => if j ∈ K then .idle else s.slots j) i c
  rw [if_neg hi, ← hmask] at hsum
  exact hsum

/-- **What the drain keeps**: the meaning of the word, and the slots of `K`. -/
structure Ebbing (K : Finset ι) (slots : ι → Slot ι) (s : Config w ι T) : Prop where
  faithful : Faithful s
  suspended : Suspended s
  kept : ∀ i ∈ K, s.slots i = slots i

theorem ebbing_step (hw : 8 ≤ w) {K : Finset ι} {slots : ι → Slot ι} (t : LockTrans w ι T)
    (h : step t.pre t.act = some t.post) (hF : Finishing K t) (hs : Ebbing K slots t.pre) :
    Ebbing K slots t.post where
  faithful := faithful_step hw t h hF.disciplined hs.faithful
  suspended := suspended_step h hF.disciplined.borrow hs.suspended
  kept i hi := (hF.kept i hi).trans (hs.kept i hi)

/-- **A slot outside `K` that can be finished is finished.** -/
theorem lowers_of_finish {K : Finset ι} {s : Config w ι T} {i : ι} (hi : i ∉ K) {a : Action}
    (h : (s.slots i).finish = some a) (hL : ¬ Lent s i)
    (hO : (∃ m, s.slots i = .calling .upgradableRead m) →
      (fields s.stat).count < maxReaderCount w) :
    ∃ b s', step s b = some s' ∧ Finishing K ⟨s, b, s'⟩ ∧ s'.toFinish K < s.toFinish K := by
  obtain ⟨s', c, hstep, hslots, hdata, hcost⟩ := finish_step h
  refine ⟨_, s', hstep, ⟨finish_disciplined h hL hO, finish_begins h i, hdata, fun k hk => ?_⟩, ?_⟩
  · have hki : k ≠ i := fun e => hi (e ▸ hk)
    show s'.slots k = s.slots k
    rw [hslots, Function.update_of_ne hki]
  · have := toFinish_update hi hslots
    omega

/-- A pinned upgrade outside `K` is attempted, in a slot outside `K`. -/
theorem lowers_of_upgrading {K : Finset ι} {s : Config w ι T} {i j : ι} (hi : i ∉ K) (hj : j ∉ K)
    {m : Mode} (hsi : s.slots i = .upgrading m) (hsj : s.slots j = .idle) (hL : ¬ Lent s i) :
    ∃ b s', step s b = some s' ∧ Finishing K ⟨s, b, s'⟩ ∧ s'.toFinish K < s.toFinish K := by
  obtain ⟨s', c, c', hstep, hslots, hdata, hcost⟩ := attemptUpgrade_step hsi hsj
  have hji : j ≠ i := by
    rintro rfl
    rw [hsi] at hsj
    cases hsj
  refine ⟨_, s', hstep, ⟨attemptUpgrade_disciplined hL, rfl, hdata, fun k hk => ?_⟩, ?_⟩
  · have hki : k ≠ i := fun e => hi (e ▸ hk)
    have hkj : k ≠ j := fun e => hj (e ▸ hk)
    show s'.slots k = s.slots k
    rw [hslots, Function.update_of_ne hkj, Function.update_of_ne hki]
  · have h1 := toFinish_update (s := s) (t := ⟨s.toSpinningRwLock, Function.update s.slots i c⟩)
      hi rfl
    have h2 := toFinish_update (s := ⟨s.toSpinningRwLock, Function.update s.slots i c⟩) (t := s')
      hj hslots
    have h3 : (Function.update s.slots i c j).cost = 0 := by
      rw [Function.update_of_ne hji, hsj]
      rfl
    have h4 : (s.slots i).cost = 3 := by
      rw [hsi]
      rfl
    simp only [h3] at h2
    omega

omit [DecidableEq ι] in
/-- With the first slots gone there is no writer left, and at most one guard in the counter. -/
theorem ebb_of_no_first {K : Finset ι} {slots : ι → Slot ι} (hK : ∀ i ∈ K, (slots i).waits = true)
    {s : Config w ι T} (hs : Ebbing K slots s) (hfirst : ∀ i, i ∉ K → (s.slots i).first = false) :
    (∀ i, ¬ Lent s i) ∧ (fields s.stat).count ≤ 1 := by
  have hnone : ∀ i, (s.slots i).holds .reader = false ∧ (s.slots i).holds .writer = false := by
    intro i
    refine Slot.holds_of_waits ?_
    by_cases hi : i ∈ K
    · rw [hs.kept i hi]
      exact Or.inl (hK i hi)
    · exact Or.inr (hfirst i hi)
  refine ⟨?_, ?_⟩
  · rintro i ⟨j, hj⟩
    have := (hnone j).2
    rw [hj] at this
    cases this
  · have hrd : s.live .reader = 0 := by
      by_contra hne
      obtain ⟨i, hi⟩ := exists_of_live_pos (Nat.pos_of_ne_zero hne)
      rw [(hnone i).1] at hi
      cases hi
    have := hs.faithful.readers.count
    have := hs.faithful.readers.single
    omega

/-- **Finishing steps drain every slot outside `K`**, where the slots of `K` wait in calls and two
    more are there. -/
theorem drains (hw : 8 ≤ w) {K : Finset ι} {slots : ι → Slot ι}
    (hK : ∀ i ∈ K, (slots i).waits = true) (hcard : K.card + 2 ≤ Fintype.card ι) :
    Drains (step (w := w) (T := T)) (Ebbing K slots) (Finishing K) (Config.toFinish K) 1 := by
  refine .of_step (ebbing_step hw) fun s hs hpos => ?_
  have hmax := maxReaderCount_ge hw
  by_cases h1 : ∃ i, i ∉ K ∧ (s.slots i).first = true
  · -- a reader, a writer, or a call that needs nothing from anybody
    obtain ⟨i, hi, hf⟩ := h1
    have hL : ¬ Lent s i := by
      rintro ⟨j, hj⟩
      rw [hs.suspended j i hj] at hf
      cases hf
    obtain ⟨⟨a, ha⟩, hcall⟩ := Slot.finish_of_first hf
    exact lowers_of_finish hi ha hL fun ⟨m, e⟩ => absurd e (hcall _ m)
  have hfirst : ∀ i, i ∉ K → (s.slots i).first = false := by
    intro i hi
    exact Bool.eq_false_iff.mpr fun hf => h1 ⟨i, hi, hf⟩
  obtain ⟨hL, hcount⟩ := ebb_of_no_first hK hs hfirst
  have hroom : (fields s.stat).count < maxReaderCount w := by omega
  by_cases h2 : ∃ i, i ∉ K ∧ ∃ k m, s.slots i = .calling k m
  · -- the counter has room for every pending call
    obtain ⟨i, hi, k, m, hc⟩ := h2
    exact lowers_of_finish hi (a := .attempt) (by rw [hc]; rfl) (hL i) fun _ => hroom
  have hcall : ∀ i, i ∉ K → ∀ k m, s.slots i ≠ .calling k m := fun i hi k m hc =>
    h2 ⟨i, hi, k, m, hc⟩
  obtain ⟨i, hi, hne⟩ := toFinish_pos.mp hpos
  rcases Slot.finish_or (s.slots i) with h0 | ⟨m, hm⟩ | ⟨a, ha⟩
  · exact absurd h0 hne
  · -- the one upgradable guard left attempts its upgrade: every other slot outside K is idle
    have hlt : (insert i K).card < (Finset.univ : Finset ι).card := by
      have := Finset.card_insert_le i K
      rw [Finset.card_univ]
      omega
    obtain ⟨j, -, hj⟩ := Finset.exists_mem_notMem_of_card_lt_card hlt
    rw [Finset.mem_insert, not_or] at hj
    refine lowers_of_upgrading hi hj.2 hm ?_ (hL i)
    by_contra hnj
    have hup := Slot.rest (hfirst j hj.2) (hcall j hj.2) hnj
    have := live_two hj.1 hup (holds_of_slot hm rfl)
    have := hs.faithful.readers.single
    omega
  · exact lowers_of_finish hi ha (hL i) fun _ => hroom

omit [DecidableEq ι] in
/-- Where all other slots are idle, the guards alive are those of slot `k`. -/
theorem live_of_alone {s : Config w ι T} {k : ι} (h : ∀ i, i ≠ k → s.slots i = .idle) (ρ : Role) :
    s.live ρ = (s.slots k).weight ρ :=
  Population.total_eq_single (Slot.weight ρ) s.slots k fun i hi => by
    rw [h i hi]
    rfl

end Drains

/-! ## 4. Steps that are granted -/

section Granted

variable [DecidableEq ι]

/-- A row whose update the fields admit is granted. -/
theorem granted_step (hw : 8 ≤ w) {s : Config w ι T} {i : ι} {a : Action} {u : Update}
    {g r : Slot ι} (hi : (s.slots i).instr a = some (.update u g r))
    (ha : u.admits (maxReaderCount w) (fields s.stat) = true)
    (hfit : u.fits (maxReaderCount w) (fields s.stat)) :
    ∃ s', step s (.run i a) = some s' ∧ s'.slots = Function.update s.slots i g ∧
      s'.data = s.data ∧ fields s'.stat = u.effect (fields s.stat) := by
  rw [← Update.isSome_run hw] at ha
  obtain ⟨stat', hu⟩ := Option.isSome_iff_exists.mp ha
  exact ⟨_, step_of_case (.granted i a u g r stat' hi hu), rfl, rfl, Update.fields_run hw hu hfit⟩

omit [DecidableEq ι] in
/-- A step that makes no update and forgets nothing is disciplined, where nothing is lent. -/
theorem move_disciplined {s s' : Config w ι T} {a : Act ι T} (hu : updateAt s a = none)
    (hf : a.forgets = false) (hL : ¬ Lent s (actor a)) : Disciplined ⟨s, a, s'⟩ where
  leak hl := by
    unfold Leaks at hl
    rw [hf] at hl
    cases hl
  borrow := hL
  overflow hO := by
    have := hO.1
    rw [hu] at this
    cases this
  pinned hP := by
    have := hP.1
    rw [hu] at this
    cases this

/-- New contents of a slot that are no lent WriterGuard lend nothing. -/
theorem unlent_update {s t : Config w ι T} {i : ι} {c : Slot ι}
    (h : t.slots = Function.update s.slots i c) (hc : ∀ k, c ≠ .writer (.pinned k))
    (hL : ∀ k, ¬ Lent s k) (k : ι) : ¬ Lent t k := by
  intro hk
  have hput : Lent (s.put i c) k := by
    obtain ⟨j, hj⟩ := hk
    exact ⟨j, by rw [← hj, h]; rfl⟩
  obtain ⟨j, -, hj⟩ := lent_put (hc k) hput
  exact hL k ⟨j, hj⟩

/-- An idle slot calls and is granted its guard, where nothing is lent; -/
theorem take_step (hw : 8 ≤ w) {s : Config w ι T} (hL : ∀ k, ¬ Lent s k) {j : ι}
    (hj : s.slots j = .idle) {c : Call} {u : Update} {g r : Slot ι}
    (hi : (Slot.calling c .once).instr .attempt = some (.update u g r))
    (ha : u.admits (maxReaderCount w) (fields s.stat) = true)
    (hfit : u.fits (maxReaderCount w) (fields s.stat))
    (hO : c = .upgradableRead → (fields s.stat).count < maxReaderCount w) :
    ∃ m, Within step (fun t => Disciplined t ∧ ∀ k, k ≠ j → t.pre.slots k = s.slots k) 2 s m ∧
      m.slots = Function.update s.slots j g ∧ m.data = s.data ∧
      fields m.stat = u.effect (fields s.stat) := by
  have h1 : step s (.run j (.call c .once)) = some (s.put j (.calling c .once)) :=
    step_of_case (.move j _ _ (by rw [hj]; rfl))
  have hs1 : (s.put j (.calling c .once)).slots j = .calling c .once := Config.put_slots_self s j _
  have hL1 := unlent_update (t := s.put j (.calling c .once)) rfl (fun k e => by cases e) hL
  obtain ⟨m, h2, hs2, hd2, hf2⟩ := granted_step hw (s := s.put j (.calling c .once))
    (a := .attempt) (by rw [hs1]; exact hi) ha hfit
  refine ⟨m, ?_, ?_, hd2, hf2⟩
  · refine (Within.one h1 ⟨?_, fun k _ => rfl⟩).trans (.one h2 ⟨?_, fun k hk => ?_⟩)
    · refine move_disciplined ?_ rfl (hL j)
      simp only [updateAt, hj, Slot.instr]
    · refine finish_disciplined (by rw [hs1]; rfl) (hL1 j) fun he => hO ?_
      obtain ⟨m, e⟩ := he
      rw [hs1] at e
      injection e
    · exact Config.put_slots_of_ne s hk _
  · rw [hs2]
    exact Function.update_idem _ _ _

/-- and a drop that is granted leads to any state that has the slot idle, the data kept and the
    fields of the update. -/
theorem give_back_step (hw : 8 ≤ w) {s s' : Config w ι T} (hL : ∀ k, ¬ Lent s k) {j : ι}
    (hj : (s.slots j).finish = some .drop) {u : Update} {r : Slot ι}
    (hi : (s.slots j).instr .drop = some (.update u .idle r))
    (ha : u.admits (maxReaderCount w) (fields s.stat) = true)
    (hfit : u.fits (maxReaderCount w) (fields s.stat))
    (hslots : s'.slots = Function.update s.slots j .idle) (hdata : s'.data = s.data)
    (hf : fields s'.stat = u.effect (fields s.stat)) :
    step s (.run j .drop) = some s' ∧ Disciplined ⟨s, .run j .drop, s'⟩ := by
  obtain ⟨⟨⟨stat, data⟩, slots⟩, h, hsm, hdm, hfm⟩ := granted_step hw hi ha hfit
  obtain ⟨⟨stat', data'⟩, slots'⟩ := s'
  have hstat : stat = stat' := fields_injective hw (hfm.trans hf.symm)
  have hslots' : slots = slots' := hsm.trans hslots.symm
  have hdata' : data = data' := hdm.trans hdata.symm
  rw [hstat, hslots', hdata'] at h
  refine ⟨h, finish_disciplined hj (hL j) fun he => ?_⟩
  obtain ⟨m, e⟩ := he
  rw [e] at hj
  cases hj

/-- **A write and its drop clear WRITER_QUEUED**, where nobody holds the lock. -/
theorem write_and_drop (hw : 8 ≤ w) {s : Config w ι T} {q : Bool}
    (hf : fields s.stat = ⟨false, q, false, 0⟩) (hL : ∀ k, ¬ Lent s k) {j : ι}
    (hj : s.slots j = .idle) :
    Within step (fun t => Disciplined t ∧ ∀ k, k ≠ j → t.pre.slots k = s.slots k) 3 s
      { s with stat := 0#w } := by
  obtain ⟨m, htake, hs, hd, hfm⟩ := take_step hw hL hj (c := .write) (u := .tryWrite) rfl
    (by rw [hf]; rfl) ⟨Nat.zero_le _, count_le_max hw _⟩ (fun e => by cases e)
  rw [hf] at hfm
  have hmj : m.slots j = .writer .acquired := by rw [hs, Function.update_self]
  have hslots : s.slots = Function.update m.slots j .idle := by
    rw [hs, Function.update_idem, ← hj, Function.update_eq_self]
  have hback : step m (.run j .drop) = some { s with stat := 0#w } ∧
      Disciplined ⟨m, .run j .drop, { s with stat := 0#w }⟩ :=
    give_back_step hw (unlent_update hs (fun k e => by cases e) hL) (by rw [hmj]; rfl)
      (u := .writerGuardDrop) (r := .idle) (by rw [hmj]; rfl) (by rw [hfm]; rfl)
      ⟨Nat.zero_le _, count_le_max hw _⟩ hslots hd.symm (by rw [hfm, fields_zero hw]; rfl)
  refine htake.trans (.one hback.1 ⟨hback.2, fun k hk => ?_⟩)
  show m.slots k = s.slots k
  rw [hs, Function.update_of_ne hk]

end Granted

/-! ## 5. The lock can always be freed -/

section Freed

variable [Fintype ι] [DecidableEq ι]

omit [DecidableEq ι] in
/-- The fields of a lock nobody holds: at most WRITER_QUEUED is set. -/
theorem fields_of_free {s : Config w ι T} (hF : Faithful s) (h0 : ∀ ρ, s.live ρ = 0) :
    fields s.stat = ⟨false, (fields s.stat).writerQueued, false, 0⟩ :=
  Fields.ext (hF.owned.inactive (h0 .writer)) rfl (hF.readers.inactive (h0 .upgradable))
    (by rw [hF.readers.count, h0, h0])

/-- What a disciplined run keeps is where the drain starts. -/
theorem ebbing_run (hw : 8 ≤ w) {d : T} {ts : List (LockTrans w ι T)} {s : Config w ι T}
    (hr : Run step (init w ι d) ts s) (hC : ∀ t ∈ ts, Disciplined t) (K : Finset ι) :
    Ebbing K s.slots s where
  faithful := hr.invariant (faithful_init hw d) (faithful_step hw) hC
  suspended := hr.invariant (suspended_init d) (fun _ h hD hs => suspended_step h hD.borrow hs) hC
  kept _ _ := rfl

/-- **The drain of a reachable state**, all slots outside `K` idle at its end. -/
theorem drained (hw : 8 ≤ w) {d : T} {ts : List (LockTrans w ι T)} {s : Config w ι T}
    (hr : Run step (init w ι d) ts s) (hC : ∀ t ∈ ts, Disciplined t) {K : Finset ι}
    (hK : ∀ i ∈ K, (s.slots i).waits = true) (hcard : K.card + 2 ≤ Fintype.card ι) :
    ∃ m, Within step (Finishing K) (3 * Fintype.card ι) s m ∧ Ebbing K s.slots m ∧
      ∀ i, i ∉ K → m.slots i = .idle := by
  obtain ⟨m, hrun, hm, h0⟩ := (drains hw hK hcard).run (ebbing_run hw hr hC K)
  refine ⟨m, hrun.weaken ?_, hm, fun i hi => ?_⟩
  · have := toFinish_le K s
    omega
  · by_contra hne
    have := toFinish_pos.mpr ⟨i, hi, hne⟩
    omega

/-- The guard of an acquisition. -/
def Call.guard : Call → Slot ι
  | .read => .reader
  | .write => .writer .acquired
  | .upgradableRead => .upgradable

/-- The slot is in an acquisition that has not failed: one attempt still to be made, or a task. -/
def Slot.awaits (k : Call) : Slot ι → Bool
  | .calling k' _ | .polling k' => decide (k' = k)
  | .refused .task => decide (k = .write)
  | _ => false

/-- The same for a pinned upgrade. -/
def Slot.awaitsUpgrade : Slot ι → Bool
  | .upgrading _ | .upgradePolling => true
  | _ => false

omit [Fintype ι] [DecidableEq ι] in
theorem Slot.waits_of_awaits {c : Slot ι} {k : Call}
    (h : c.awaits k = true ∨ c.awaitsUpgrade = true) : c.waits = true := by
  cases c with
  | calling k' m => rfl
  | refused m => rfl
  | polling k' => rfl
  | upgrading m => rfl
  | upgradePolling => rfl
  | _ => rcases h with h | h <;> cases h

/-- **The call in slot `k` goes on**: a disciplined step, in front of which it still waits. -/
structure Awaiting (k : ι) (t : LockTrans w ι T) : Prop where
  disciplined : Disciplined t
  waits : (t.pre.slots k).waits = true

omit [Fintype ι] in
/-- A task asks its token, and is not stopped. -/
theorem poll_step {s : Config w ι T} {k : ι} {c : Slot ι}
    (hi : (s.slots k).instr (.poll false) = some (.move c)) (hk : (s.slots k).waits = true)
    (hL : ¬ Lent s k) : Within step (Awaiting k) 1 s (s.put k c) := by
  refine .one (step_of_case (.move k (.poll false) c hi)) ⟨move_disciplined ?_ rfl hL, hk⟩
  simp only [updateAt, hi]

omit [Fintype ι] in
/-- The attempt of an acquisition in a free lock is granted, a reader's if no writer is queued. -/
theorem attempt_served (hw : 8 ≤ w) {s : Config w ι T} {q : Bool} {k : ι} {c : Call} {m : Mode}
    (hf : fields s.stat = ⟨false, q, false, 0⟩) (hq : c ≠ .write → q = false)
    (hL : ¬ Lent s k) (hk : s.slots k = .calling c m) :
    CanReach step (Awaiting k) s fun s' => s'.slots k = c.guard := by
  have hmax := maxReaderCount_ge hw
  have hgo : ∀ s', Awaiting k ⟨s, .run k .attempt, s'⟩ := by
    intro s'
    refine ⟨finish_disciplined (by rw [hk]; rfl) hL fun _ => ?_, by rw [hk]; rfl⟩
    rw [hf]
    show 0 < maxReaderCount w
    omega
  have hserve : ∀ u r, (s.slots k).instr .attempt = some (.update u c.guard r) →
      u.admits (maxReaderCount w) (fields s.stat) = true →
      u.fits (maxReaderCount w) (fields s.stat) →
      CanReach step (Awaiting k) s fun s' => s'.slots k = c.guard := by
    intro u r hi ha hfit
    obtain ⟨s', hstep, hs', -, -⟩ := granted_step hw hi ha hfit
    exact .next hstep (hgo s') (.now (by rw [hs', Function.update_self]))
  rw [hf, hk] at hserve
  cases c with
  | read =>
      obtain rfl := hq (by decide)
      refine hserve .tryRead _ rfl ?_ ⟨Nat.zero_le _, ?_⟩
      · simp [Update.admits]
        omega
      · show 0 + 1 ≤ maxReaderCount w
        omega
  | write => exact hserve .tryWrite _ rfl rfl ⟨Nat.zero_le _, Nat.zero_le _⟩
  | upgradableRead =>
      obtain rfl := hq (by decide)
      refine hserve .tryUpgradableRead _ rfl rfl ⟨Nat.zero_le _, ?_⟩
      show 0 + 1 ≤ maxReaderCount w
      omega

omit [Fintype ι] in
/-- A task that is not stopped tries again. -/
theorem polling_served (hw : 8 ≤ w) {s : Config w ι T} {q : Bool} {k : ι} {c : Call}
    (hf : fields s.stat = ⟨false, q, false, 0⟩) (hq : c ≠ .write → q = false)
    (hL : ∀ i, ¬ Lent s i) (hk : s.slots k = .polling c) :
    CanReach step (Awaiting k) s fun s' => s'.slots k = c.guard := by
  have hL' := unlent_update (t := s.put k (.calling c .task)) rfl (fun j e => by cases e) hL
  exact .of_within (poll_step (by rw [hk]; rfl) (by rw [hk]; rfl) (hL k))
    (attempt_served hw hf hq (hL' k) (Config.put_slots_self s k _))

omit [Fintype ι] in
/-- **An acquisition that has not failed is served on word 0.** -/
theorem awaiting_served (hw : 8 ≤ w) {s : Config w ι T} {k : ι} {c : Call} (h0 : s.stat = 0#w)
    (hL : ∀ i, ¬ Lent s i) (hk : (s.slots k).awaits c = true) :
    CanReach step (Awaiting k) s fun s' => s'.slots k = c.guard := by
  have hf : fields s.stat = ⟨false, false, false, 0⟩ := by rw [h0, fields_zero hw]
  cases hc : s.slots k with
  | calling c' m =>
      rw [hc] at hk
      obtain rfl := of_decide_eq_true hk
      exact attempt_served hw hf (fun _ => rfl) (hL k) hc
  | polling c' =>
      rw [hc] at hk
      obtain rfl := of_decide_eq_true hk
      exact polling_served hw hf (fun _ => rfl) hL hc
  | refused m =>
      rw [hc] at hk
      cases m with
      | once => cases hk
      | task =>
          -- the second update of the failed attempt queues the writer, the next attempt serves it
          obtain rfl := of_decide_eq_true hk
          obtain ⟨s1, hstep, hs1, -, hf1⟩ := granted_step hw (s := s) (i := k) (a := .queue)
            (u := .tryWriteQueue) (g := .polling .write) (r := .polling .write) (by rw [hc]; rfl)
            (by rw [hf]; rfl) ⟨Nat.zero_le _, count_le_max hw _⟩
          rw [hf] at hf1
          refine .next hstep ⟨finish_disciplined (by rw [hc]; rfl) (hL k) fun ⟨m, e⟩ => ?_,
            by rw [hc]; rfl⟩ ?_
          · rw [hc] at e
            cases e
          · exact polling_served hw hf1 (fun hne => absurd rfl hne)
              (unlent_update hs1 (fun j e => by cases e) hL) (by rw [hs1, Function.update_self])
  | _ =>
      rw [hc] at hk
      cases hk

omit [Fintype ι] in
/-- **A pinned upgrade is served where its own guard is the only one.** -/
theorem upgrading_served (hw : 8 ≤ w) {s : Config w ι T} {k j : ι}
    (hf : (fields s.stat).upgradeActive = true ∧ (fields s.stat).count = 1)
    (hL : ∀ i, ¬ Lent s i) (hk : (s.slots k).awaitsUpgrade = true) (hj : s.slots j = .idle) :
    CanReach step (Awaiting k) s fun s' => s'.slots j = .writer (.pinned k) := by
  have hattempt : ∀ (x : Config w ι T) m, fields x.stat = fields s.stat → (∀ i, ¬ Lent x i) →
      x.slots k = .upgrading m → x.slots j = .idle →
      CanReach step (Awaiting k) x fun s' => s'.slots j = .writer (.pinned k) := by
    intro x m hx hLx hxk hxj
    have hsome : (Update.upgradeUpgradableToWrite.run x.stat).isSome = true := by
      rw [Update.isSome_run hw, hx]
      simp [Update.admits, hf]
    obtain ⟨stat', hu⟩ := Option.isSome_iff_exists.mp hsome
    exact .next (step_of_case (.lent k j m stat' hxk hxj hu))
      ⟨attemptUpgrade_disciplined (hLx k), by rw [hxk]; rfl⟩ (.now (Config.put_slots_self _ j _))
  cases hc : s.slots k with
  | upgrading m => exact hattempt s m rfl hL hc hj
  | upgradePolling =>
      have hjk : j ≠ k := by
        rintro rfl
        rw [hc] at hj
        cases hj
      refine .of_within (poll_step (by rw [hc]; rfl) (by rw [hc]; rfl) (hL k)) ?_
      exact hattempt _ .task rfl (unlent_update rfl (fun i e => by cases e) hL)
        (Config.put_slots_self s k _) (by rw [Config.put_slots_of_ne s hjk, hj])
  | _ =>
      rw [hc] at hk
      cases hk

/-- The drain, with the call in slot `k` left to wait. -/
theorem others_leave (hw : 8 ≤ w) (hcard : 3 ≤ Fintype.card ι) {d : T}
    {ts : List (LockTrans w ι T)} {s : Config w ι T} (hr : Run step (init w ι d) ts s)
    (hC : ∀ t ∈ ts, Disciplined t) {k : ι} (hk : (s.slots k).waits = true) :
    CanReach step (Awaiting k) s fun m =>
      Faithful m ∧ m.slots k = s.slots k ∧ ∀ i, i ≠ k → m.slots i = .idle := by
  have hK : ∀ i ∈ ({k} : Finset ι), (s.slots i).waits = true := by
    intro i hi
    rw [Finset.mem_singleton.mp hi]
    exact hk
  obtain ⟨m, ⟨us, hrun, hfin, -⟩, hm, hidle⟩ := drained hw hr hC hK
    (by rw [Finset.card_singleton]; omega)
  refine ⟨us, m, hrun, fun t ht => ⟨(hfin t ht).disciplined, ?_⟩, hm.faithful,
    hm.kept k (Finset.mem_singleton_self k), fun i hi => hidle i (by rwa [Finset.mem_singleton])⟩
  obtain ⟨-, hpre, -⟩ := Run.invariant_mem (ebbing_run hw hr hC {k}) (ebbing_step hw) hrun hfin ht
  rw [hpre.kept k (Finset.mem_singleton_self k)]
  exact hk

omit [DecidableEq ι] in
/-- There is another slot. -/
theorem exists_other (hcard : 2 ≤ Fintype.card ι) (k : ι) : ∃ j, j ≠ k := by
  have hlt : ({k} : Finset ι).card < (Finset.univ : Finset ι).card := by
    rw [Finset.card_singleton, Finset.card_univ]
    omega
  obtain ⟨j, -, hj⟩ := Finset.exists_mem_notMem_of_card_lt_card hlt
  exact ⟨j, by rwa [Finset.mem_singleton] at hj⟩

omit [Fintype ι] [DecidableEq ι] in
/-- With everybody else gone, a waiting call has no writer beside it. -/
theorem unlent_of_alone {s : Config w ι T} {k : ι} (hk : (s.slots k).waits = true)
    (hidle : ∀ i, i ≠ k → s.slots i = .idle) (i : ι) : ¬ Lent s i := by
  intro hi
  obtain ⟨l, hl⟩ := hi
  by_cases hlk : l = k
  · rw [← hlk, hl] at hk
    cases hk
  · rw [hidle l hlk] at hl
    cases hl

/-- **Every waiter can be served.** From every state of a disciplined run: an acquisition that has
    not failed, and a pinned upgrade, get their guard in some disciplined continuation, all along
    which the call is still waiting -- neither a stranded WRITER_QUEUED nor another waiter can
    stand in their way for good. -/
theorem every_waiter_can_be_served (hw : 8 ≤ w) (hcard : 3 ≤ Fintype.card ι) {d : T}
    {ts : List (LockTrans w ι T)} {s : Config w ι T} (hr : Run step (init w ι d) ts s)
    (hC : ∀ t ∈ ts, Disciplined t) (k : ι) :
    (∀ c : Call, (s.slots k).awaits c = true →
      CanReach step (Awaiting k) s fun s' => s'.slots k = c.guard) ∧
    ((s.slots k).awaitsUpgrade = true →
      ∃ j, CanReach step (Awaiting k) s fun s' => s'.slots j = .writer (.pinned k)) := by
  obtain ⟨j, hjk⟩ := exists_other (by omega) k
  refine ⟨fun c hk => ?_, fun hk => ⟨j, ?_⟩⟩
  · have hwaits := Slot.waits_of_awaits (Or.inl hk)
    refine (others_leave hw hcard hr hC hwaits).trans fun m ⟨hF, hmk, hidle⟩ => ?_
    have hL := unlent_of_alone (s := m) (by rw [hmk]; exact hwaits) hidle
    have h0 : ∀ ρ, m.live ρ = 0 := by
      intro ρ
      rw [live_of_alone hidle, hmk]
      cases hc : s.slots k <;> rw [hc] at hk <;> first
        | rfl
        | cases hk
    -- a queued flag without a queue is cleared by a write in another slot
    have hclear := write_and_drop hw (fields_of_free hF h0) hL (hidle j hjk)
    refine .of_within (hclear.mono fun t ht => ⟨ht.1, ?_⟩) ?_
    · rw [ht.2 k hjk.symm, hmk]
      exact hwaits
    · refine awaiting_served hw rfl hL ?_
      show (m.slots k).awaits c = true
      rw [hmk]
      exact hk
  · have hwaits := Slot.waits_of_awaits (k := .read) (Or.inr hk)
    refine (others_leave hw hcard hr hC hwaits).trans fun m ⟨hF, hmk, hidle⟩ => ?_
    have hL := unlent_of_alone (s := m) (by rw [hmk]; exact hwaits) hidle
    have hmk' : (m.slots k).awaitsUpgrade = true := by rw [hmk]; exact hk
    have hrd : m.live .reader = 0 ∧ m.live .upgradable = 1 := by
      rw [live_of_alone hidle, live_of_alone hidle, hmk]
      cases hc : s.slots k <;> rw [hc] at hk <;> first
        | exact ⟨rfl, rfl⟩
        | cases hk
    refine upgrading_served hw ⟨hF.readers.upgradable.mpr (by omega), ?_⟩ hL hmk' (hidle j hjk)
    have := hF.readers.count
    omega

/-- The theorem at work: a `try_write` has failed and left WRITER_QUEUED behind; a `ReadTask` that
    is kept out by it can still be served. -/
theorem every_waiter_can_be_served_stranded :
    ∃ ts s, Run step (init 8 (Fin 3) ()) ts s ∧ s.stat = 0x40#8 ∧ s.slots 2 = .polling .read ∧
      CanReach step (Awaiting 2) s fun s' => s'.slots 2 = .reader := by
  obtain ⟨ts, s, hr, hL, hB, hO, hP, hstat, h2⟩ := Run.of_exec step (init 8 (Fin 3) ())
    (acquire .read 0 ++ acquire .write 1 ++ ([.run 1 .queue, .run 0 .drop,
      .run 2 (.call .read .task), .run 2 .attempt] : List (Act (Fin 3) Unit)))
    (fun ts s => (∀ t ∈ ts, ¬ Leaks t) ∧ (∀ t ∈ ts, ¬ BreaksBorrow t) ∧
      (∀ t ∈ ts, ¬ Overflows t) ∧ (∀ t ∈ ts, ¬ DowngradesPinned t) ∧
      s.stat = 0x40#8 ∧ s.slots 2 = .polling .read) (by decide)
  have hC : ∀ t ∈ ts, Disciplined t := fun t ht => ⟨hL t ht, hB t ht, hO t ht, hP t ht⟩
  have hk : (s.slots 2).awaits .read = true := by
    rw [h2]
    rfl
  exact ⟨ts, s, hr, hstat, h2,
    (every_waiter_can_be_served (by decide) (by decide) hr hC 2).1 .read hk⟩

end Freed

end AtomicSync.RwLock
