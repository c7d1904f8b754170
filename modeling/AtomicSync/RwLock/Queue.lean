/-
  File:      AtomicSync/RwLock/Queue.lean
  Subject:   Who stands behind WRITER_QUEUED, and how the flag is left behind.

  A failed `try_write` sets WRITER_QUEUED, and only the drop of a WriterGuard clears it. The flag
  keeps readers out on behalf of somebody as long as a write call is in progress or a writer is
  active (`QueueOwned`). Two kinds of steps leave it with nobody behind:

  * a write call that gives up -- `try_write` returning `None`, a cancelled `WriteTask` -- as the
    last one, with no writer active (`Strands`);
  * a downgrade of the active WriterGuard: unlike the drop it does not clear the flag
    (`LeavesQueue`).

  **`queueOwned_step`**: no other step does. The two claims on the flag follow, each on the runs
  that can only take one of the two exits:

  * `readers_admitted_of_not_stranded` -- failed and cancelled writes;
  * `queue_claimed_of_not_left` -- downgraded writers.
-/
import AtomicSync.RwLock.Preference
import AtomicSync.RwLock.Reflection

namespace AtomicSync.RwLock

variable {w : ℕ} {ι T : Type}

/-! ## 1. Write calls in progress -/

/-- A write call is in progress: before its attempt, between its two updates, or about to ask
    the cancellation token. -/
def Slot.writing : Slot ι → Bool
  | .calling .write _ | .refused _ | .polling .write => true
  | _ => false

/-- The step ends a write call without a WriterGuard: `try_write` returns `None` after its
    second update, or the token stops a `WriteTask`. -/
def Slot.givesUpWrite : Slot ι → Action → Bool
  | .refused .once, .queue => true
  | .polling .write, .poll true => true
  | _, _ => false

/-- A row without an update keeps a write call in progress, or gives it up. -/
theorem Slot.instr_move_writing {c c' : Slot ι} {a : Action} (h : c.instr a = some (.move c'))
    (hc : c.writing = true) : c'.writing = true ∨ c.givesUpWrite a = true := by
  cases c <;> cases a <;> simp only [Slot.instr, reduceCtorEq, Option.some.injEq] at h
  case calling.attempt k m => cases k <;> cases h
  case refused.queue m => cases h
  case polling.poll k b =>
    cases h
    cases k <;> cases b <;> first
      | exact Or.inl rfl
      | exact Or.inr rfl
      | cases hc
  all_goals cases hc

/-- The updates of a write call: the first one's refusal keeps it in progress, the second one
    keeps it or gives it up. -/
theorem Slot.instr_update_writing {c g r : Slot ι} {a : Action} {u : Update}
    (h : c.instr a = some (.update u g r)) (hc : c.writing = true) :
    u = .tryWrite ∧ r.writing = true ∨
      u = .tryWriteQueue ∧ (g.writing = true ∧ r.writing = true ∨ c.givesUpWrite a = true) := by
  cases c <;> cases a <;> simp only [Slot.instr, reduceCtorEq, Option.some.injEq] at h
  case calling.attempt k m =>
    cases k <;> cases h
    case write => exact Or.inl ⟨rfl, rfl⟩
    all_goals cases hc
  case refused.queue m =>
    cases h
    cases m
    case once => exact Or.inr ⟨rfl, Or.inr rfl⟩
    case task => exact Or.inr ⟨rfl, Or.inl ⟨rfl, rfl⟩⟩
  all_goals cases hc

/-- The second update is made in a write call. -/
theorem Slot.instr_queue {c g r : Slot ι} {a : Action}
    (h : c.instr a = some (.update .tryWriteQueue g r)) : c.writing = true := by
  cases c <;> cases a <;> simp only [Slot.instr, reduceCtorEq, Option.some.injEq] at h
  case calling.attempt k m => cases k <;> cases h
  case refused.queue m => rfl
  all_goals cases h

/-- Only the second update leaves a write call in progress behind. -/
theorem Slot.instr_granted_writing {c g r : Slot ι} {a : Action} {u : Update}
    (h : c.instr a = some (.update u g r)) (hg : g.writing = true) : u = .tryWriteQueue := by
  cases c <;> cases a <;> simp only [Slot.instr, reduceCtorEq, Option.some.injEq] at h
  case calling.attempt k m => cases k <;> cases h <;> cases hg
  case refused.queue m =>
    cases h
    rfl
  all_goals cases h; cases hg

/-- The two ways to give up a write call. -/
theorem Slot.givesUpWrite_cases {c : Slot ι} {a : Action} (h : c.givesUpWrite a = true) :
    c = .refused .once ∧ a = .queue ∨ c = .polling .write ∧ a = .poll true := by
  unfold Slot.givesUpWrite at h
  split at h
  · exact Or.inl ⟨rfl, rfl⟩
  · exact Or.inr ⟨rfl, rfl⟩
  · cases h

/-- A write call that gives up was in progress, and its slot is idle afterwards. -/
theorem Slot.instr_givesUp {c : Slot ι} {a : Action} (h : c.givesUpWrite a = true) :
    c.writing = true ∧ (c.instr a = some (.move .idle) ∨
      c.instr a = some (.update .tryWriteQueue .idle .idle)) := by
  rcases Slot.givesUpWrite_cases h with ⟨rfl, rfl⟩ | ⟨rfl, rfl⟩
  · exact ⟨rfl, Or.inr rfl⟩
  · exact ⟨rfl, Or.inl rfl⟩

section Calls

variable [Fintype ι]

/-- The number of write calls in progress. -/
def Config.writeCalls (s : Config w ι T) : ℕ :=
  Population.total (fun c => (Slot.writing c).toNat) s.slots

theorem writeCalls_pos {s : Config w ι T} {i : ι} (h : (s.slots i).writing = true) :
    0 < s.writeCalls := by
  have := Population.le_total (fun c => (Slot.writing c).toNat) s.slots i
  rw [h] at this
  exact this

variable [DecidableEq ι]

theorem writeCalls_put (s : Config w ι T) (i : ι) (c : Slot ι) :
    (s.put i c).writeCalls + (s.slots i).writing.toNat = s.writeCalls + c.writing.toNat :=
  Population.total_update (fun c => (Slot.writing c).toNat) s.slots i c

/-- A call that ends as the last one was the only one. -/
theorem writeCalls_last {s : Config w ι T} {i : ι} {c : Slot ι} (hpos : 0 < s.writeCalls)
    (h0 : (s.put i c).writeCalls = 0) :
    (s.slots i).writing = true ∧ c.writing = false ∧ s.writeCalls = 1 := by
  have h := writeCalls_put s i c
  rw [h0] at h
  cases hi : (s.slots i).writing <;> cases hc : c.writing <;> simp [hi, hc] at h ⊢ <;> omega

/-! ## 2. The two exits -/

/-- Does the action end a write call without a WriterGuard? -/
def givesUpAt (s : Config w ι T) : Act ι T → Bool
  | .run i a => (s.slots i).givesUpWrite a
  | _ => false

/-- A write call ends without a WriterGuard. -/
def GivesUp (t : LockTrans w ι T) : Prop := givesUpAt t.pre t.act = true

instance (t : LockTrans w ι T) : Decidable (GivesUp t) := inferInstanceAs (Decidable (_ = _))

/-- **The last write call gives up while no writer is active**, and WRITER_QUEUED is set, or set
    by this very step. -/
def Strands (t : LockTrans w ι T) : Prop :=
  GivesUp t ∧ (fields t.pre.stat).writerActive = false ∧ t.pre.writeCalls = 1 ∧
    ((fields t.pre.stat).writerQueued = true ∨ updateAt t.pre t.act = some .tryWriteQueue)

instance (t : LockTrans w ι T) : Decidable (Strands t) :=
  inferInstanceAs (Decidable (_ ∧ _ ∧ _ ∧ (_ ∨ _)))

/-- A WriterGuard is downgraded. -/
def DowngradesWriter (t : LockTrans w ι T) : Prop :=
  updateAt t.pre t.act = some .downgradeWriteToRead ∨
    updateAt t.pre t.act = some .downgradeWriteToUpgradable

instance (t : LockTrans w ι T) : Decidable (DowngradesWriter t) :=
  inferInstanceAs (Decidable (_ ∨ _))

/-- **The active WriterGuard is downgraded under WRITER_QUEUED** with no write call in
    progress. -/
def LeavesQueue (t : LockTrans w ι T) : Prop :=
  DowngradesWriter t ∧ (fields t.pre.stat).writerActive = true ∧
    (fields t.pre.stat).writerQueued = true ∧ t.pre.writeCalls = 0

instance (t : LockTrans w ι T) : Decidable (LeavesQueue t) :=
  inferInstanceAs (Decidable (_ ∧ _ ∧ _ ∧ _))

/-- WRITER_QUEUED has an active writer or a write call in progress behind it. -/
def QueueOwned (s : Config w ι T) : Prop :=
  (fields s.stat).writerQueued = true → (fields s.stat).writerActive = true ∨ 0 < s.writeCalls

omit [DecidableEq ι] in
theorem queueOwned_init (hw : 8 ≤ w) (d : T) : QueueOwned (init w ι d) := by
  intro h
  rw [show fields (init w ι d).stat = _ from fields_zero hw] at h
  cases h

/-- **A granted row keeps the queue owned.** -/
theorem queueOwned_granted {s : Config w ι T} (hq : QueueOwned s) {i : ι} {a : Action}
    {u : Update} {g r : Slot ι} {m : ℕ} (hi : (s.slots i).instr a = some (.update u g r))
    (ha : u.admits m (fields s.stat) = true) {s' : Config w ι T}
    (hS : ¬ Strands ⟨s, .run i a, s'⟩) (hD : ¬ LeavesQueue ⟨s, .run i a, s'⟩)
    (hQ : (u.effect (fields s.stat)).writerQueued = true)
    (hW : (u.effect (fields s.stat)).writerActive = false) : 0 < (s.put i g).writeCalls := by
  have hua : updateAt s (.run i a : Act ι T) = some u := by simp only [updateAt, hi]
  by_contra hn
  have h0 := Nat.eq_zero_of_not_pos hn
  -- a write call that ends here with nothing to show for it gives up, and was the last one
  have hlast : 0 < s.writeCalls → u = .tryWrite ∨
      u = .tryWriteQueue ∧ GivesUp ⟨s, .run i a, s'⟩ ∧ s.writeCalls = 1 := by
    intro hpos
    obtain ⟨hci, hgi, hone⟩ := writeCalls_last hpos h0
    rcases Slot.instr_update_writing hi hci with ⟨hu, -⟩ | ⟨hu, ⟨hg, -⟩ | hgu⟩
    · exact Or.inl hu
    · rw [hgi] at hg
      cases hg
    · exact Or.inr ⟨hu, hgu, hone⟩
  cases u with
  | writerGuardDrop => cases hQ
  | tryWrite => cases hW
  | upgradeUpgradableToWrite => cases hW
  | tryWriteQueue =>
      rcases hlast (writeCalls_pos (Slot.instr_queue hi)) with hu | ⟨-, hgu, hone⟩
      · cases hu
      · exact hS ⟨hgu, hW, hone, Or.inr hua⟩
  | downgradeWriteToRead =>
      refine hD ⟨Or.inl hua, ha, hQ, ?_⟩
      by_contra hpos
      rcases hlast (Nat.pos_of_ne_zero hpos) with hu | ⟨hu, -⟩ <;> cases hu
  | downgradeWriteToUpgradable =>
      refine hD ⟨Or.inr hua, ha, hQ, ?_⟩
      by_contra hpos
      rcases hlast (Nat.pos_of_ne_zero hpos) with hu | ⟨hu, -⟩ <;> cases hu
  | _ =>
      rcases hq hQ with h | hpos
      · rw [show (fields s.stat).writerActive = false from hW] at h
        cases h
      · rcases hlast hpos with hu | ⟨hu, -⟩ <;> cases hu

/-- **The step lemma**: the two exits apart, every step keeps the queue owned. -/
theorem queueOwned_step (hw : 8 ≤ w) {t : LockTrans w ι T} (h : step t.pre t.act = some t.post)
    (hO : ¬ Overflows t) (hS : ¬ Strands t) (hD : ¬ LeavesQueue t) (hb : t.pre.Bounded)
    (hq : QueueOwned t.pre) : QueueOwned t.post := by
  obtain ⟨s, a, s'⟩ := t
  replace h : step s a = some s' := h
  replace hb : s.Bounded := hb
  replace hq : QueueOwned s := hq
  have hfit : ∀ u stat', updateAt s a = some u → u.run s.stat = some stat' →
      fields stat' = u.effect (fields s.stat) :=
    fun u stat' ha hu => Update.fields_run hw hu (fits_of_bounded hw hb ha hu hO)
  -- where the word stays, the call that ends as the last one strands the flag
  have hkeep : ∀ i c b, a = .run i b → (fields s.stat).writerQueued = true →
      ((s.slots i).writing = true → c.writing = true ∨ (s.slots i).givesUpWrite b = true) →
      (fields s.stat).writerActive = true ∨ 0 < (s.put i c).writeCalls := by
    intro i c b hab hQ hc
    rcases hq hQ with hW | hpos
    · exact Or.inl hW
    · by_contra hn
      obtain ⟨hW, hn⟩ := not_or.mp hn
      obtain ⟨hci, hcf, hone⟩ := writeCalls_last hpos (Nat.eq_zero_of_not_pos hn)
      rcases hc hci with hcw | hgu
      · rw [hcf] at hcw
        cases hcw
      · subst hab
        exact hS ⟨hgu, Bool.eq_false_iff.mpr hW, hone, Or.inl hQ⟩
  cases step_cases h with
  | move i b c hi => exact fun hQ => hkeep i c b rfl hQ (Slot.instr_move_writing hi)
  | granted i b u g r stat' hi hu =>
      intro hQ
      have e : fields stat' = u.effect (fields s.stat) :=
        hfit u stat' (by simp only [updateAt, hi]) hu
      show (fields stat').writerActive = true ∨ 0 < (s.put i g).writeCalls
      replace hQ : (fields stat').writerQueued = true := hQ
      rw [e] at hQ ⊢
      cases hW : (u.effect (fields s.stat)).writerActive with
      | true => exact Or.inl rfl
      | false =>
          exact Or.inr (queueOwned_granted hq hi (Update.admits_of_run hw hu) hS hD hQ hW)
  | refused i b u g r hi hu =>
      refine fun hQ => hkeep i r b rfl hQ fun hc => ?_
      rcases Slot.instr_update_writing hi hc with ⟨-, hr⟩ | ⟨-, ⟨-, hr⟩ | hgu⟩
      · exact Or.inl hr
      · exact Or.inl hr
      · exact Or.inr hgu
  | lent i k m stat' hi hk hu =>
      intro _
      have e : fields stat' = _ := hfit _ stat' rfl hu
      show (fields stat').writerActive = true ∨ _
      rw [e]
      exact Or.inl rfl
  | notLent i k m hi hk hu =>
      intro hQ
      have hput := writeCalls_put s i (upgradeRefusal m)
      have hm : (upgradeRefusal m : Slot ι).writing = false := by cases m <;> rfl
      rw [hi, hm] at hput
      rcases hq hQ with hW | hpos
      · exact Or.inl hW
      · right
        show 0 < (s.put i (upgradeRefusal m)).writeCalls
        have hi0 : (Slot.upgrading m : Slot ι).writing.toNat = 0 := rfl
        rw [hi0, Bool.toNat_false] at hput
        omega
  | store i o v hi => exact hq

/-- **A stranded flag**: set, with no active writer and no write call behind it. -/
theorem stranded_of_strands (hw : 8 ≤ w) {t : LockTrans w ι T}
    (h : step t.pre t.act = some t.post) (hS : Strands t) :
    (fields t.post.stat).writerQueued = true ∧ (fields t.post.stat).writerActive = false ∧
      t.post.writeCalls = 0 := by
  obtain ⟨s, a, s'⟩ := t
  obtain ⟨hgu, hW, hone, hor⟩ := hS
  replace h : step s a = some s' := h
  replace hW : (fields s.stat).writerActive = false := hW
  replace hone : s.writeCalls = 1 := hone
  replace hor : (fields s.stat).writerQueued = true ∨ updateAt s a = some .tryWriteQueue := hor
  have hcalls : ∀ i, (s.slots i).writing = true → (s.put i .idle).writeCalls = 0 := by
    intro i hi
    have hput := writeCalls_put s i .idle
    rw [hi, hone] at hput
    exact Nat.succ.inj hput
  cases step_cases h with
  | move i b c hi =>
      obtain ⟨hci, e | e⟩ := Slot.instr_givesUp hgu
      · cases hi.symm.trans e
        refine ⟨?_, hW, hcalls i hci⟩
        rcases hor with hQ | hua
        · exact hQ
        · simp only [updateAt, hi, reduceCtorEq] at hua
      · cases hi.symm.trans e
  | granted i b u g r stat' hi hu =>
      obtain ⟨hci, e | e⟩ := Slot.instr_givesUp hgu
      · cases hi.symm.trans e
      · cases hi.symm.trans e
        have hfit : Update.tryWriteQueue.fits (maxReaderCount w) (fields s.stat) :=
          ⟨Nat.zero_le _, count_le_max hw _⟩
        have e := Update.fields_run hw hu hfit
        refine ⟨?_, ?_, hcalls i hci⟩
        · show (fields stat').writerQueued = true
          rw [e]
          rfl
        · show (fields stat').writerActive = false
          rw [e]
          exact hW
  | refused i b u g r hi hu =>
      obtain ⟨hci, e | e⟩ := Slot.instr_givesUp hgu
      · cases hi.symm.trans e
      · cases hi.symm.trans e
        have hadm := Update.not_admits_of_run hw hu
        have hQ : (fields s.stat).writerQueued = true := by
          simpa [Update.admits] using hadm
        exact ⟨hQ, hW, hcalls i hci⟩
  | lent i k m stat' hi hk hu => cases hgu
  | notLent i k m hi hk hu => cases hgu
  | store i o v hi => cases hgu

/-- The write calls in progress are none of a downgrade's business. -/
theorem writeCalls_downgrade {s s' : Config w ι T} {a : Act ι T} (h : step s a = some s')
    {u : Update} (hu : u = .downgradeWriteToRead ∨ u = .downgradeWriteToUpgradable)
    (ha : updateAt s a = some u) (hsome : (u.run s.stat).isSome = true) :
    s'.writeCalls = s.writeCalls := by
  cases step_cases h with
  | move i b c hi => simp only [updateAt, hi, reduceCtorEq] at ha
  | granted i b u' g r stat' hi _ =>
      simp only [updateAt, hi, Option.some.injEq] at ha
      subst ha
      have hc : (s.slots i).writing = false := Bool.eq_false_iff.mpr fun hci => by
        rcases Slot.instr_update_writing hi hci with ⟨e, -⟩ | ⟨e, -⟩ <;>
          rcases hu with rfl | rfl <;> cases e
      have hg : g.writing = false := Bool.eq_false_iff.mpr fun hgi => by
        have e := Slot.instr_granted_writing hi hgi
        rcases hu with rfl | rfl <;> cases e
      have hput := writeCalls_put s i g
      rw [hc, hg] at hput
      exact hput
  | refused i b u' g r hi hnone =>
      simp only [updateAt, hi, Option.some.injEq] at ha
      subst ha
      rw [hnone] at hsome
      cases hsome
  | lent i k m stat' hi hk _ => rcases hu with rfl | rfl <;> cases ha
  | notLent i k m hi hk _ => rcases hu with rfl | rfl <;> cases ha
  | store i o v hi => cases ha

/-- **A flag left by a downgrade**: set, with no write call and no other writer behind it. -/
theorem left_of_leavesQueue (hw : 8 ≤ w) {t : LockTrans w ι T}
    (h : step t.pre t.act = some t.post) (hE : Exclusive t.pre) (hO : ¬ Overflows t)
    (hD : LeavesQueue t) :
    (fields t.post.stat).writerQueued = true ∧ t.post.writeCalls = 0 ∧
      t.post.live .writer = 0 := by
  obtain ⟨hdown, hW, hQ, hnone⟩ := hD
  obtain ⟨u, hu, ha⟩ : ∃ u, (u = .downgradeWriteToRead ∨ u = .downgradeWriteToUpgradable) ∧
      updateAt t.pre t.act = some u := by
    rcases hdown with ha | ha
    · exact ⟨_, Or.inl rfl, ha⟩
    · exact ⟨_, Or.inr rfl, ha⟩
  have hadm : u.admits (maxReaderCount w) (fields t.pre.stat) = true := by
    rcases hu with rfl | rfl <;> exact hW
  have hsome : (u.run t.pre.stat).isSome = true := (Update.isSome_run hw u _).trans hadm
  have hcalls := writeCalls_downgrade h hu ha hsome
  rcases update_books h ha with ⟨hrun, hl, -⟩ | ⟨hrun, -, -⟩
  · have e := Update.fields_run hw hrun (fits_of_bounded hw hE.bounded ha hrun hO)
    have lw := hl .writer
    have hone := hE.alone.alone
    refine ⟨?_, hcalls.trans hnone, ?_⟩
    · rw [e]
      rcases hu with rfl | rfl <;> exact hQ
    · rcases hu with rfl | rfl <;> simp only [Update.takes, Update.gives] at lw <;> omega
  · rw [hrun] at hsome
    cases hsome

/-! ## 3. Failed and cancelled writes -/

omit [Fintype ι] [DecidableEq ι] in
/-- An upgradable guard is downgraded while WRITER_ACTIVE is set: its predicate fails, and the
    guard is lost. Only an `Upgrade` used under the WriterGuard it lent gets there. -/
def DowngradesUnderWriter (t : LockTrans w ι T) : Prop :=
  updateAt t.pre t.act = some .downgradeUpgradableToRead ∧
    (fields t.pre.stat).writerActive = true

omit [Fintype ι] [DecidableEq ι] in
instance (t : LockTrans w ι T) : Decidable (DowngradesUnderWriter t) :=
  inferInstanceAs (Decidable (_ ∧ _))

/-- **Nobody is locked out**: with no guard alive and no write call in progress, the word is zero
    again and readers of both kinds are admitted. -/
def ReadersAdmitted (s : Config w ι T) : Prop :=
  (∀ ρ, s.live ρ = 0) → s.writeCalls = 0 → s.stat = 0#w ∧
    (Update.tryRead.run s.stat).isSome = true ∧ (Update.tryUpgradableRead.run s.stat).isSome = true

/-- What the runs without downgraded writers and leaks keep. -/
structure Waiting (s : Config w ι T) : Prop where
  bounded : s.Bounded
  owned : ActiveOwned (fields s.stat) s.live
  readers : ReadersExact (fields s.stat) s.live
  queue : QueueOwned s

omit [DecidableEq ι] in
theorem waiting_init (hw : 8 ≤ w) (d : T) : Waiting (init w ι d) where
  bounded := bounded_init hw d
  owned := activeOwned_init hw d
  readers := readersExact_init hw d
  queue := queueOwned_init hw d

omit [DecidableEq ι] in
/-- Without guards and write calls nothing is left in the word. -/
theorem readersAdmitted_of_waiting (hw : 8 ≤ w) {s : Config w ι T} (hs : Waiting s) :
    ReadersAdmitted s := by
  intro hlive hcalls
  have hW : (fields s.stat).writerActive = false := hs.owned.inactive (hlive .writer)
  have hU : (fields s.stat).upgradeActive = false := hs.readers.inactive (hlive .upgradable)
  have hQ : (fields s.stat).writerQueued = false := Bool.eq_false_iff.mpr fun hQ => by
    rcases hs.queue hQ with h | h
    · rw [hW] at h
      cases h
    · omega
  have hc : (fields s.stat).count = 0 := by
    rw [hs.readers.count, hlive, hlive]
  have hf : fields s.stat = ⟨false, false, false, 0⟩ := Fields.ext hW hQ hU hc
  have hmax := maxReaderCount_ge hw
  refine ⟨fields_injective hw (hf.trans (fields_zero hw).symm), ?_, ?_⟩
  · rw [Update.isSome_run hw, hf]
    simp [Update.admits]
    omega
  · rw [Update.isSome_run hw, hf]
    rfl

theorem waiting_step (hw : 8 ≤ w) (t : LockTrans w ι T) (h : step t.pre t.act = some t.post)
    (hC : ¬ Leaks t ∧ ¬ DowngradesWriter t ∧ ¬ DowngradesUnderWriter t ∧ ¬ Overflows t ∧
      ¬ Strands t) (hs : Waiting t.pre) : Waiting t.post := by
  obtain ⟨hL, hD, hU, hO, hS⟩ := hC
  refine ⟨bounded_step hw t h hO hs.bounded,
    activeOwned_step hw h hO (not_leaksWriter hL) hs.bounded hs.owned,
    readersExact_step hw h hO hL hs.bounded (fun ha => absurd (Or.inr ha) hD) (fun ha => ?_)
      hs.readers,
    queueOwned_step hw h hO hS (fun hl => hD hl.1) hs.bounded hs.queue⟩
  exact Bool.eq_false_iff.mpr fun hW => hU ⟨ha, hW⟩

/-- **Failed and cancelled writes lock nobody out, as long as none of them gives up as the last
    write call with no writer active.** Where one does, both kinds of readers are refused with
    nobody behind the flag. Runs without leaks, downgraded writers and overflows. -/
theorem readers_admitted_of_not_stranded (hw : 8 ≤ w) {d : T} {ts : List (LockTrans w ι T)}
    {s : Config w ι T} (hr : Run step (init w ι d) ts s) (hL : ∀ t ∈ ts, ¬ Leaks t)
    (hD : ∀ t ∈ ts, ¬ DowngradesWriter t) (hU : ∀ t ∈ ts, ¬ DowngradesUnderWriter t)
    (hO : ∀ t ∈ ts, ¬ Overflows t) :
    ((∀ t ∈ ts, ¬ Strands t) → ∀ t ∈ ts, ReadersAdmitted t.post) ∧
      ∀ t ∈ ts, Strands t → t.post.writeCalls = 0 ∧ Update.tryRead.run t.post.stat = none ∧
        Update.tryUpgradableRead.run t.post.stat = none := by
  constructor
  · intro hS t ht
    obtain ⟨-, -, hs⟩ := Run.invariant_mem (waiting_init hw d) (waiting_step hw) hr
      (fun t ht => ⟨hL t ht, hD t ht, hU t ht, hO t ht, hS t ht⟩) ht
    exact readersAdmitted_of_waiting hw hs
  · intro t ht hS
    obtain ⟨hQ, -, hcalls⟩ := stranded_of_strands hw (hr.of_mem ht).1 hS
    exact ⟨hcalls, Update.run_queued hw (Or.inl rfl) hQ,
      Update.run_queued hw (Or.inr rfl) hQ⟩

/-- A `try_write` that fails against a reader, and the reader leaves: nobody holds the lock,
    nobody waits for it, and no reader gets in. -/
theorem readers_locked_out_after_try_write :
    ∃ ts s, Run step (init 8 (Fin 2) ()) ts s ∧ (∀ t ∈ ts, ¬ Leaks t) ∧
      (∀ t ∈ ts, ¬ DowngradesWriter t) ∧ (∀ t ∈ ts, ¬ DowngradesUnderWriter t) ∧
      (∀ t ∈ ts, ¬ Overflows t) ∧ (∀ i, s.slots i = .idle) ∧ s.stat = 0x40#8 ∧
      ¬ ReadersAdmitted s := by
  obtain ⟨ts, s, hr, hL, hD, hU, hO, hidle, hs, hlive, hcalls⟩ :=
    Run.of_exec step (init 8 (Fin 2) ())
      (acquire .read 0 ++ acquire .write 1 ++ [.run 1 .queue, .run 0 .drop])
      (fun ts s => (∀ t ∈ ts, ¬ Leaks t) ∧ (∀ t ∈ ts, ¬ DowngradesWriter t) ∧
        (∀ t ∈ ts, ¬ DowngradesUnderWriter t) ∧ (∀ t ∈ ts, ¬ Overflows t) ∧
        (∀ i, s.slots i = .idle) ∧ s.stat = 0x40#8 ∧
        (s.live .reader = 0 ∧ s.live .upgradable = 0 ∧ s.live .writer = 0) ∧ s.writeCalls = 0)
      (by decide)
  refine ⟨ts, s, hr, hL, hD, hU, hO, hidle, hs, fun hA => ?_⟩
  obtain ⟨h1, h2, h3⟩ := hlive
  have hzero := (hA (fun ρ => by cases ρ <;> assumption) hcalls).1
  rw [hs] at hzero
  exact absurd hzero (by decide)

/-- The criterion at work: a `try_write` fails against a writer, whose drop clears the flag. -/
theorem readers_admitted_after_writer :
    ∃ ts s, Run step (init 8 (Fin 2) ()) ts s ∧ (∀ i, s.slots i = .idle) ∧
      ∀ t ∈ ts, ReadersAdmitted t.post := by
  obtain ⟨ts, s, hr, hL, hD, hU, hO, hS, hidle⟩ := Run.of_exec step (init 8 (Fin 2) ())
    (acquire .write 0 ++ acquire .write 1 ++ [.run 1 .queue, .run 0 .drop])
    (fun ts s => (∀ t ∈ ts, ¬ Leaks t) ∧ (∀ t ∈ ts, ¬ DowngradesWriter t) ∧
      (∀ t ∈ ts, ¬ DowngradesUnderWriter t) ∧ (∀ t ∈ ts, ¬ Overflows t) ∧
      (∀ t ∈ ts, ¬ Strands t) ∧ (∀ i, s.slots i = .idle)) (by decide)
  exact ⟨ts, s, hr, hidle,
    (readers_admitted_of_not_stranded (by decide) hr hL hD hU hO).1 hS⟩

/-! ## 4. Downgraded writers -/

/-- **WRITER_QUEUED is claimed** by a write call in progress or a live WriterGuard; and where
    there is neither, readers can join up to the maximum. -/
structure QueueClaimed (s : Config w ι T) : Prop where
  claimed : (fields s.stat).writerQueued = true → 0 < s.writeCalls ∨ 0 < s.live .writer
  joinable : s.writeCalls = 0 → s.live .writer = 0 → (fields s.stat).count < maxReaderCount w →
    (Update.tryRead.run s.stat).isSome = true

/-- What the runs keep in which every write call ends with a WriterGuard. -/
structure Served (s : Config w ι T) : Prop where
  bounded : s.Bounded
  owned : ActiveOwned (fields s.stat) s.live
  queue : QueueOwned s

omit [DecidableEq ι] in
theorem served_init (hw : 8 ≤ w) (d : T) : Served (init w ι d) where
  bounded := bounded_init hw d
  owned := activeOwned_init hw d
  queue := queueOwned_init hw d

omit [DecidableEq ι] in
theorem queueClaimed_of_served (hw : 8 ≤ w) {s : Config w ι T} (hs : Served s) :
    QueueClaimed s := by
  have hclaimed : (fields s.stat).writerQueued = true → 0 < s.writeCalls ∨ 0 < s.live .writer := by
    intro hQ
    rcases hs.queue hQ with hW | hpos
    · exact Or.inr (hs.owned hW)
    · exact Or.inl hpos
  refine ⟨hclaimed, fun hcalls hwr hc => ?_⟩
  have hQ : (fields s.stat).writerQueued = false := Bool.eq_false_iff.mpr fun hQ => by
    rcases hclaimed hQ with h | h <;> omega
  have hW : (fields s.stat).writerActive = false := hs.owned.inactive hwr
  rw [Update.isSome_run hw]
  simp [Update.admits, hQ, hW, hc]

theorem served_step (hw : 8 ≤ w) (t : LockTrans w ι T) (h : step t.pre t.act = some t.post)
    (hC : ¬ LeaksWriter t ∧ ¬ GivesUp t ∧ ¬ Overflows t ∧ ¬ LeavesQueue t) (hs : Served t.pre) :
    Served t.post := by
  obtain ⟨hL, hG, hO, hD⟩ := hC
  exact ⟨bounded_step hw t h hO hs.bounded, activeOwned_step hw h hO hL hs.bounded hs.owned,
    queueOwned_step hw h hO (fun hS => hG hS.1) hD hs.bounded hs.queue⟩

/-- **WRITER_QUEUED is claimed along a run, as long as no writer is downgraded under it with no
    write call in progress.** Where one is, and no second writer is alive, the flag is left with
    nobody behind. Runs in which no write call gives up and no writer is leaked. -/
theorem queue_claimed_of_not_left (hw : 8 ≤ w) {d : T} {ts : List (LockTrans w ι T)}
    {s : Config w ι T} (hr : Run step (init w ι d) ts s) (hL : ∀ t ∈ ts, ¬ LeaksWriter t)
    (hG : ∀ t ∈ ts, ¬ GivesUp t) (hO : ∀ t ∈ ts, ¬ Overflows t) :
    ((∀ t ∈ ts, ¬ LeavesQueue t) → ∀ t ∈ ts, QueueClaimed t.post) ∧
      ((∀ t ∈ ts, ¬ Reupgrades t) → ∀ t ∈ ts, LeavesQueue t → ¬ QueueClaimed t.post) := by
  constructor
  · intro hD t ht
    obtain ⟨-, -, hs⟩ := Run.invariant_mem (served_init hw d) (served_step hw) hr
      (fun t ht => ⟨hL t ht, hG t ht, hO t ht, hD t ht⟩) ht
    exact queueClaimed_of_served hw hs
  · intro hR t ht hD hC
    obtain ⟨h, hE, -⟩ := Run.invariant_mem (exclusive_init hw d) (exclusive_step hw) hr
      (fun t ht => ⟨hO t ht, hR t ht⟩) ht
    obtain ⟨hQ, hcalls, hwr⟩ := left_of_leavesQueue hw h hE (hO t ht) hD
    rcases hC.claimed hQ with h | h <;> omega

/-- A `WriteTask` waits for a reader, gets its guard and downgrades it: WRITER_QUEUED is set,
    with one reader alive and nobody writing. -/
theorem queue_left_by_downgrade :
    ∃ ts s, Run step (init 8 (Fin 2) ()) ts s ∧ (∀ t ∈ ts, ¬ LeaksWriter t) ∧
      (∀ t ∈ ts, ¬ GivesUp t) ∧ (∀ t ∈ ts, ¬ Overflows t) ∧ s.slots 0 = .idle ∧
      s.slots 1 = .reader ∧ s.stat = 0x41#8 ∧ ¬ QueueClaimed s := by
  obtain ⟨ts, s, hr, hL, hG, hO, h0, h1, hs, hQ, hcalls, hwr⟩ :=
    Run.of_exec step (init 8 (Fin 2) ())
      (acquire .read 0 ++ [.run 1 (.call .write .task), .run 1 .attempt, .run 1 .queue,
        .run 1 (.poll false), .run 0 .drop, .run 1 .attempt, .run 1 .downgradeToReader])
      (fun ts s => (∀ t ∈ ts, ¬ LeaksWriter t) ∧ (∀ t ∈ ts, ¬ GivesUp t) ∧
        (∀ t ∈ ts, ¬ Overflows t) ∧ s.slots 0 = .idle ∧ s.slots 1 = .reader ∧
        s.stat = 0x41#8 ∧ (fields s.stat).writerQueued = true ∧ s.writeCalls = 0 ∧
        s.live .writer = 0) (by decide)
  refine ⟨ts, s, hr, hL, hG, hO, h0, h1, hs, fun hC => ?_⟩
  rcases hC.claimed hQ with h | h <;> omega

/-- The criterion at work: a queued writer gets in and is downgraded under WRITER_QUEUED while
    another one calls. -/
theorem queue_claimed_after_downgrade :
    ∃ ts s, Run step (init 8 (Fin 3) ()) ts s ∧
      (∃ t ∈ ts, updateAt t.pre t.act = some .downgradeWriteToRead ∧
        (fields t.pre.stat).writerQueued = true) ∧
      s.slots 1 = .reader ∧ ∀ t ∈ ts, QueueClaimed t.post := by
  obtain ⟨ts, s, hr, hL, hG, hO, hD, hdown, h1⟩ := Run.of_exec step (init 8 (Fin 3) ())
    (acquire .read 0 ++ ([.run 1 (.call .write .task), .run 1 .attempt, .run 1 .queue,
      .run 1 (.poll false), .run 0 .drop, .run 1 .attempt, .run 2 (.call .write .task),
      .run 1 .downgradeToReader] : List (Act (Fin 3) Unit)))
    (fun ts s => (∀ t ∈ ts, ¬ LeaksWriter t) ∧ (∀ t ∈ ts, ¬ GivesUp t) ∧
      (∀ t ∈ ts, ¬ Overflows t) ∧ (∀ t ∈ ts, ¬ LeavesQueue t) ∧
      (∃ t ∈ ts, updateAt t.pre t.act = some .downgradeWriteToRead ∧
        (fields t.pre.stat).writerQueued = true) ∧ s.slots 1 = .reader) (by decide)
  exact ⟨ts, s, hr, hdown, h1, (queue_claimed_of_not_left (by decide) hr hL hG hO).1 hD⟩

end Calls

end AtomicSync.RwLock
