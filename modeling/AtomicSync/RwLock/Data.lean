/-
  File:      AtomicSync/RwLock/Data.lean
  Subject:   Upgrades and downgrades are atomic for the protected data.

  The data changes only by a store through a live WriterGuard (`data_of_step`). While a slot
  holds a ReaderGuard, or an UpgradableReaderGuard that has lent no WriterGuard (`SharedHold`),
  no WriterGuard is alive (`no_writer_of_sharedHold`); and the hold is not interrupted by
  refused or cancelled upgrade attempts, by moving the guard into an `Upgrade` and back, by its
  downgrade to a ReaderGuard, nor by anything the other slots do (`sharedHold_step`). A guard
  that is lost without a release leaves its unit in the counter: no writer comes in after it
  (`Abandoned`).

  * **`data_kept`** -- from the step that grants an UpgradableReaderGuard, or downgrades a
    WriterGuard to one or to a ReaderGuard, through the step that releases that guard or grants
    its first upgrade, the data is the same.
-/
import AtomicSync.RwLock.Exclusion

namespace AtomicSync.RwLock

variable {w : ℕ} {ι T : Type}

/-! ## 1. Shared holds -/

/-- The slot holds a ReaderGuard, or an UpgradableReaderGuard that is not being consumed. -/
def Slot.shared : Slot ι → Bool
  | .reader | .upgradable | .upgrade | .upgrading _ | .upgradePolling => true
  | _ => false

/-- **A shared hold**: the guard in slot `i` has lent no WriterGuard. -/
structure SharedHold (s : Config w ι T) (i : ι) : Prop where
  shared : (s.slots i).shared = true
  unlent : ¬ Lent s i

/-- The step that starts a shared hold: an `upgradable_read` granted, or a WriterGuard
    downgraded. -/
def StartsHold (i : ι) (t : LockTrans w ι T) : Prop :=
  actor t.act = i ∧ ∃ u, updateAt t.pre t.act = some u ∧ (u.run t.pre.stat).isSome = true ∧
    (u = .tryUpgradableRead ∨ u = .downgradeWriteToRead ∨ u = .downgradeWriteToUpgradable)

/-- The step that ends it: the guard is dropped, or its upgrade granted. -/
def EndsHold (i : ι) (t : LockTrans w ι T) : Prop :=
  t.act = .run i .drop ∨
    actor t.act = i ∧ updateAt t.pre t.act = some .upgradeUpgradableToWrite ∧
      (Update.upgradeUpgradableToWrite.run t.pre.stat).isSome = true

instance [DecidableEq ι] [DecidableEq T] (i : ι) (t : LockTrans w ι T) :
    Decidable (EndsHold i t) := inferInstanceAs (Decidable (_ ∨ _ ∧ _ ∧ _))

/-- A row from a shared hold that does not end it: the guard stays, is lost, becomes a
    ReaderGuard, or tries to become a WriterGuard. -/
theorem Slot.instr_shared {c : Slot ι} {a : Action} {ins : Instr ι} (h : c.instr a = some ins)
    (hc : c.shared = true) (hd : a ≠ .drop) :
    (∃ c', ins = .move c' ∧ (c'.shared = true ∨ c' = .idle)) ∨
      ins = .update .downgradeUpgradableToRead .reader .idle ∨
      ins = .update .upgradeUpgradableToWrite .consuming .upgradable := by
  cases c <;> cases a <;> simp only [Slot.instr, reduceCtorEq, Option.some.injEq] at h
  case calling.attempt k m => cases hc
  case reader.forget => exact Or.inl ⟨_, h.symm, Or.inr rfl⟩
  case upgradable.forget => exact Or.inl ⟨_, h.symm, Or.inr rfl⟩
  case upgrade.forget => exact Or.inl ⟨_, h.symm, Or.inr rfl⟩
  case upgradable.downgrade => exact Or.inr (Or.inl h.symm)
  case upgradable.tryUpgrade => exact Or.inr (Or.inr h.symm)
  case upgradable.upgrade => exact Or.inl ⟨_, h.symm, Or.inl rfl⟩
  case upgrade.intoGuard => exact Or.inl ⟨_, h.symm, Or.inl rfl⟩
  case upgrade.startUpgrade m => exact Or.inl ⟨_, h.symm, Or.inl rfl⟩
  case upgradePolling.poll b => exact Or.inl ⟨_, h.symm, Or.inl (by cases b <;> rfl)⟩
  all_goals first
    | exact absurd rfl hd
    | cases hc

/-- The rows that start a shared hold. -/
theorem Slot.instr_starts {c g r : Slot ι} {a : Action} {u : Update}
    (h : c.instr a = some (.update u g r))
    (hu : u = .tryUpgradableRead ∨ u = .downgradeWriteToRead ∨ u = .downgradeWriteToUpgradable) :
    g.shared = true ∧ (u = .tryUpgradableRead ∨ c.holds .writer = true) := by
  cases c <;> cases a <;> simp only [Slot.instr, reduceCtorEq, Option.some.injEq] at h
  case calling.attempt k m =>
    cases k <;> cases h <;> first
      | exact ⟨rfl, Or.inl rfl⟩
      | (rcases hu with e | e | e <;> cases e)
  case refused.queue m => cases h; rcases hu with e | e | e <;> cases e
  case writer.downgradeToReader o => cases h; exact ⟨rfl, Or.inr rfl⟩
  case writer.downgradeToUpgradable o => cases h; exact ⟨rfl, Or.inr rfl⟩
  all_goals cases h; rcases hu with e | e | e <;> cases e

section Machine

variable [DecidableEq ι]

/-- A new contents of slot `i` that is no lent WriterGuard lends nothing. -/
theorem lent_put {s : Config w ι T} {i k : ι} {c : Slot ι} (hc : c ≠ .writer (.pinned k))
    (h : Lent (s.put i c) k) : ∃ j, j ≠ i ∧ s.slots j = .writer (.pinned k) := by
  obtain ⟨j, hj⟩ := h
  by_cases hji : j = i
  · subst hji
    rw [Config.put_slots_self] at hj
    exact absurd hj hc
  · rw [Config.put_slots_of_ne s hji] at hj
    exact ⟨j, hji, hj⟩

/-- One slot changes, the hold of slot `i` does not end. -/
theorem sharedHold_put {s : Config w ι T} {i k : ι} {c : Slot ι} (hs : SharedHold s i)
    (hki : k = i → c.shared = true) (hc : c ≠ .writer (.pinned i)) : SharedHold (s.put k c) i := by
  constructor
  · by_cases hik : i = k
    · subst hik
      rw [Config.put_slots_self]
      exact hki rfl
    · rw [Config.put_slots_of_ne s hik]
      exact hs.shared
  · intro hL
    obtain ⟨j, -, hj⟩ := lent_put hc hL
    exact hs.unlent ⟨j, hj⟩

/-- Another `Upgrade` lends a WriterGuard: the hold of slot `i` is not touched. -/
theorem sharedHold_lent {s : Config w ι T} {i j k : ι} (hs : SharedHold s i) (hki : k ≠ i)
    (hj : s.slots j = .idle) :
    SharedHold ((s.put k .upgrade).put j (.writer (.pinned k))) i := by
  have hji : j ≠ i := by
    intro e
    have hsh := hs.shared
    rw [← e, hj] at hsh
    cases hsh
  have hput : SharedHold (s.put k .upgrade) i :=
    sharedHold_put hs (fun _ => rfl) fun e => by cases e
  refine sharedHold_put hput (fun e => absurd e hji) fun e => ?_
  injection e with e
  injection e with e
  exact hki e

/-- **A shared hold lasts** until its guard is dropped or its upgrade granted, or the guard is
    lost: leaked, or in a refused downgrade. -/
theorem sharedHold_step {s s' : Config w ι T} {a : Act ι T} (h : step s a = some s') {i : ι}
    (hs : SharedHold s i) (hE : ¬ EndsHold i ⟨s, a, s'⟩) :
    SharedHold s' i ∨ s' = s.put i .idle := by
  have hown : ∀ b ins, a = .run i b → (s.slots i).instr b = some ins →
      (∃ c', ins = .move c' ∧ (c'.shared = true ∨ c' = .idle)) ∨
        ins = .update .downgradeUpgradableToRead .reader .idle ∨
        ins = .update .upgradeUpgradableToWrite .consuming .upgradable := by
    intro b ins hab hi
    refine Slot.instr_shared hi hs.shared fun hb => hE (Or.inl ?_)
    show a = .run i .drop
    rw [hab, hb]
  cases step_cases h with
  | move k b c hi =>
      have hck : c ≠ .writer (.pinned i) := by
        intro e
        rw [e] at hi
        cases Slot.instr_move_writer hi
      by_cases hki : k = i
      · subst hki
        rcases hown b _ rfl hi with ⟨c', e, hc' | rfl⟩ | e | e
        · cases e
          exact Or.inl (sharedHold_put hs (fun _ => hc') hck)
        · cases e
          exact Or.inr rfl
        · cases e
        · cases e
      · exact Or.inl (sharedHold_put hs (fun e => absurd e hki) hck)
  | granted k b u g r stat' hi hu =>
      have hput : SharedHold (s.put k g) i := by
        refine sharedHold_put hs (fun e => ?_) fun e => ?_
        · subst e
          rcases hown b _ rfl hi with ⟨c', e, -⟩ | e | e
          · cases e
          · cases e
            rfl
          · cases e
            refine absurd (Or.inr ⟨rfl, ?_, ?_⟩) hE
            · simp only [updateAt, hi]
            · rw [hu]
              rfl
        · subst e
          rcases Slot.instr_update_writer hi rfl with ⟨-, e⟩ | ⟨-, -, e⟩ | ⟨-, -, e⟩ <;> cases e
      exact Or.inl ⟨hput.shared, hput.unlent⟩
  | refused k b u g r hi hu =>
      have hrk : r ≠ .writer (.pinned i) := by
        intro e
        rw [e] at hi
        cases (Slot.instr_refused_writer hi rfl).2
      by_cases hki : k = i
      · subst hki
        rcases hown b _ rfl hi with ⟨c', e, -⟩ | e | e
        · cases e
        · cases e
          exact Or.inr rfl
        · cases e
          exact Or.inl (sharedHold_put hs (fun _ => rfl) hrk)
      · exact Or.inl (sharedHold_put hs (fun e => absurd e hki) hrk)
  | lent k j m stat' hk hj hu =>
      have hki : k ≠ i := by
        intro e
        refine hE (Or.inr ⟨e, rfl, ?_⟩)
        show (Update.upgradeUpgradableToWrite.run s.stat).isSome = true
        rw [hu]
        rfl
      have hput := sharedHold_lent hs hki hj
      exact Or.inl ⟨hput.shared, hput.unlent⟩
  | notLent k j m hk hj hu =>
      refine Or.inl (sharedHold_put hs (fun _ => ?_) fun e => ?_)
      · cases m <;> rfl
      · cases m <;> cases e
  | store k o v hk => exact Or.inl ⟨hs.shared, hs.unlent⟩

/-- **Only a store through a WriterGuard changes the data.** -/
theorem data_of_step {s s' : Config w ι T} {a : Act ι T} (h : step s a = some s') :
    s'.data = s.data ∨ ∃ i o, s.slots i = .writer o := by
  cases step_cases h with
  | store i o v hi => exact Or.inr ⟨i, o, hi⟩
  | _ => exact Or.inl rfl

end Machine

/-! ## 2. Abandoned holds -/

/-- **An abandoned hold**: no writer is alive, and the counter has a unit more than there are
    guards. -/
structure Abandoned (f : Fields) (n : Role → ℕ) : Prop where
  unit : n .reader + n .upgradable < f.count
  unwritten : n .writer = 0

namespace Abandoned

variable {f : Fields} {n n' : Role → ℕ} {u : Update} {m : ℕ}

/-- A granted update keeps it: the counter a `try_write` asks for is zero, the counter an upgrade
    asks for is the unit of the guard to be upgraded. -/
theorem grant (hA : Abandoned f n) (ha : u.admits m f = true)
    (hup : u = .upgradeUpgradableToWrite → 0 < n .upgradable)
    (hl : ∀ ρ, n' ρ + u.takes ρ = n ρ + u.gives ρ) (ht : ∀ ρ, u.takes ρ ≤ n ρ) :
    Abandoned (u.effect f) n' := by
  obtain ⟨h1, h2⟩ := hA
  have lr := hl .reader
  have lu := hl .upgradable
  have lw := hl .writer
  have tr := ht .reader
  have tu := ht .upgradable
  have tw := ht .writer
  cases u <;>
    simp only [Update.admits, Update.takes, Update.gives] at ha lr lu lw tr tu tw <;>
    exact ⟨by simp only [Update.effect]; grind, by grind⟩

theorem mono (hA : Abandoned f n) (hl : ∀ ρ, n' ρ ≤ n ρ) : Abandoned f n' := by
  obtain ⟨h1, h2⟩ := hA
  have lr := hl .reader
  have lu := hl .upgradable
  have lw := hl .writer
  exact ⟨by omega, by omega⟩

end Abandoned

/-! ## 3. The data along a hold -/

section Runs

variable [Fintype ι]

/-- **No writer is alive beside a shared hold.** -/
theorem no_writer_of_sharedHold {s : Config w ι T} (hE : Exclusive s) {i : ι}
    (hs : SharedHold s i) : s.live .writer = 0 := by
  by_cases hr : s.slots i = .reader
  · have hrd : (s.slots i).holds .reader = true := holds_of_slot hr rfl
    have := live_pos hrd
    by_contra hne
    have := hE.alone.readers (Nat.pos_of_ne_zero hne)
    omega
  · have hsh := hs.shared
    refine no_writer_beside hE ?_ ?_ hs.unlent
    · cases hc : s.slots i <;> rw [hc] at hsh hr <;> first
        | rfl
        | exact absurd rfl hr
        | cases hsh
    · intro hc
      rw [hc] at hsh
      cases hsh

variable [DecidableEq ι]

/-- The step that starts a hold does so, and leaves the data alone. -/
theorem sharedHold_of_starts (hw : 8 ≤ w) {t : LockTrans w ι T}
    (h : step t.pre t.act = some t.post) (hE : Exclusive t.pre) {i : ι} (hs : StartsHold i t) :
    SharedHold t.post i ∧ t.post.data = t.pre.data := by
  obtain ⟨s, a, s'⟩ := t
  obtain ⟨rfl, u, ha, hsome, hu⟩ := hs
  replace h : step s a = some s' := h
  replace ha : updateAt s a = some u := ha
  cases step_cases h with
  | move k b c hi => simp only [updateAt, hi, reduceCtorEq] at ha
  | granted k b u' g r stat' hi hrun =>
      simp only [updateAt, hi, Option.some.injEq] at ha
      subst ha
      obtain ⟨hg, hor⟩ := Slot.instr_starts hi hu
      have hadm := Update.admits_of_run hw hrun
      have hgk : g ≠ .writer (.pinned k) := by
        rintro rfl
        cases hg
      refine ⟨⟨?_, fun hL => ?_⟩, rfl⟩
      · show ((s.put k g).slots k).shared = true
        rw [Config.put_slots_self]
        exact hg
      · -- a WriterGuard lent from `k` would be a writer before this step, beside an admitted
        -- upgradable reader or the downgraded writer
        obtain ⟨j, hjk, hj⟩ := lent_put hgk hL
        have hwr : (s.slots j).holds .writer = true := holds_of_slot hj rfl
        rcases hor with rfl | hck
        · have hW := hE.alone.word (live_pos hwr)
          simp [Update.admits, show (fields s.stat).writerActive = true from hW] at hadm
        · have := live_two hjk hwr hck
          have : s.live .writer ≤ 1 := hE.alone.alone
          omega
  | refused k b u' g r hi hrun =>
      simp only [updateAt, hi, Option.some.injEq] at ha
      subst ha
      replace hsome : (u'.run s.stat).isSome = true := hsome
      rw [hrun] at hsome
      cases hsome
  | lent k j m stat' hk hj hrun => cases ha; rcases hu with e | e | e <;> cases e
  | notLent k j m hk hj hrun => cases ha; rcases hu with e | e | e <;> cases e
  | store k o v hk => cases ha

/-- A guard lost from a shared hold abandons it. -/
theorem abandoned_put {s : Config w ι T} (hE : Exclusive s) {i : ι} (hs : SharedHold s i) :
    Abandoned (fields s.stat) (s.put i .idle).live := by
  have hr := live_put s i .idle .reader
  have hu := live_put s i .idle .upgradable
  have hw := live_put s i .idle .writer
  have h0 := no_writer_of_sharedHold hE hs
  have hheld := hE.bounded.held
  have hone : (s.slots i).weight .reader + (s.slots i).weight .upgradable = 1 := by
    have hsh := hs.shared
    cases hc : s.slots i <;> rw [hc] at hsh <;> first
      | rfl
      | cases hsh
  have hidle : ∀ ρ, (Slot.idle : Slot ι).weight ρ = 0 := fun ρ => rfl
  rw [hidle] at hr hu hw
  exact ⟨by omega, by omega⟩

/-- **An abandoned hold lasts for ever**: the unit left behind is nobody's to take away. -/
theorem abandoned_step (hw : 8 ≤ w) {t : LockTrans w ι T} (h : step t.pre t.act = some t.post)
    (hE : Exclusive t.pre) (hO : ¬ Overflows t) (hA : Abandoned (fields t.pre.stat) t.pre.live) :
    Abandoned (fields t.post.stat) t.post.live := by
  refine ledger_rule_mono hw h hA (fun _ _ _ hA hl => hA.mono hl)
    (fun u _ ha hu => fits_of_bounded hw hE.bounded ha hu hO) ?_
  intro u n' ha hadm _ hl ht
  refine hA.grant hadm (fun e => ?_) hl ht
  exact live_pos (upgrading_slot h (e ▸ ha)).1

/-- No step taken where no writer is alive changes the data. -/
theorem data_of_no_writer {s s' : Config w ι T} {a : Act ι T} (h : step s a = some s')
    (h0 : s.live .writer = 0) : s'.data = s.data := by
  rcases data_of_step h with hd | ⟨j, o, hj⟩
  · exact hd
  · have hwr : (s.slots j).holds .writer = true := holds_of_slot hj rfl
    have := live_pos hwr
    omega

/-- Slot `i` has held on to a shared guard since the data was `v`, or lost it. -/
structure Holding (i : ι) (v : T) (s : Config w ι T) : Prop where
  exclusive : Exclusive s
  hold : SharedHold s i ∨ Abandoned (fields s.stat) s.live
  data : s.data = v

omit [DecidableEq ι] in
theorem Holding.no_writer {i : ι} {v : T} {s : Config w ι T} (hI : Holding i v s) :
    s.live .writer = 0 := by
  rcases hI.hold with hs | hA
  · exact no_writer_of_sharedHold hI.exclusive hs
  · exact hA.unwritten

/-- The next step leaves the data alone, the one that ends the hold included. -/
theorem Holding.next {i : ι} {v : T} {s s' : Config w ι T} {a : Act ι T} (hI : Holding i v s)
    (h : step s a = some s') : s'.data = v :=
  (data_of_no_writer h hI.no_writer).trans hI.data

/-- **The step lemma**: along a shared hold the data is what it was, and the hold goes on. -/
theorem holding_step (hw : 8 ≤ w) {i : ι} {v : T} (t : LockTrans w ι T)
    (h : step t.pre t.act = some t.post)
    (hC : (¬ Overflows t ∧ ¬ Reupgrades t) ∧ ¬ EndsHold i t) (hI : Holding i v t.pre) :
    Holding i v t.post := by
  refine ⟨exclusive_step hw t h hC.1 hI.exclusive, ?_, hI.next h⟩
  rcases hI.hold with hs | hA
  · rcases sharedHold_step h hs hC.2 with hs' | hlost
    · exact Or.inl hs'
    · rw [hlost]
      exact Or.inr (abandoned_put hI.exclusive hs)
  · exact Or.inr (abandoned_step hw h hI.exclusive hC.1.1 hA)

/-- **The data along a hold.** In a run that respects the borrow and never overflows, let `t`
    grant an UpgradableReaderGuard to slot `i`, or downgrade its WriterGuard to a guard of either
    shared kind, and let no step of `us` after it drop that guard or grant its upgrade; it may be
    downgraded, attempted to upgrade or leaked. Then the data at the end is the data at `t`; and
    so it is after the next step, which may be the one that ends the hold: an upgraded writer
    starts from the value its upgradable reader saw, a downgraded writer's value stays until its
    guard is released. -/
theorem data_kept (hw : 8 ≤ w) {d : T} {us ts : List (LockTrans w ι T)} {t : LockTrans w ι T}
    {s : Config w ι T} (hr : Run step (init w ι d) (us ++ t :: ts) s)
    (hB : ∀ t' ∈ us ++ t :: ts, ¬ BreaksBorrow t') (hO : ∀ t' ∈ us ++ t :: ts, ¬ Overflows t')
    {i : ι} (hstart : StartsHold i t) (hkeep : ∀ t' ∈ us, ¬ EndsHold i t') :
    s.data = t.pre.data ∧ ∀ a s', step s a = some s' → s'.data = t.pre.data := by
  have hC : ∀ t' ∈ us ++ t :: ts, ¬ Overflows t' ∧ ¬ Reupgrades t' :=
    fun t' ht => ⟨hO t' ht, not_reupgrades (hB t' ht)⟩
  obtain ⟨m, hm, hseg⟩ := hr.split
  cases hm with
  | next hpre hs =>
      have hE := hpre.invariant (exclusive_init hw d) (exclusive_step hw) fun t' ht =>
        hC t' (List.mem_append_right _ (List.mem_cons_of_mem _ ht))
      have hEm := exclusive_step hw _ hs (hC _ (List.mem_append_right _ List.mem_cons_self)) hE
      obtain ⟨hhold, hdata⟩ := sharedHold_of_starts hw hs hE hstart
      have hsteps : ∀ t' ∈ us, (¬ Overflows t' ∧ ¬ Reupgrades t') ∧ ¬ EndsHold i t' :=
        fun t' ht => ⟨hC t' (List.mem_append_left _ ht), hkeep t' ht⟩
      have h0 : Holding i _ m := ⟨hEm, Or.inl hhold, hdata⟩
      have hI := hseg.invariant h0 (holding_step hw) hsteps
      exact ⟨hI.data, fun a s' h => hI.next h⟩

set_option synthInstance.maxSize 400 in
/-- The theorem at work: 7 written, the writer downgraded to upgradable, an upgrade refused
    against a reader, the guard downgraded once more; whatever comes next finds 7. -/
theorem data_kept_downgraded_writer :
    ∃ (ts us : List (LockTrans 8 (Fin 2) ℕ)) (t : LockTrans 8 (Fin 2) ℕ) (s : Config 8 (Fin 2) ℕ),
      Run step (init 8 (Fin 2) 0) (us ++ t :: ts) s ∧
      updateAt t.pre t.act = some .downgradeWriteToUpgradable ∧ t.pre.data = 7 ∧
      (∃ u ∈ us, updateAt u.pre u.act = some .upgradeUpgradableToWrite) ∧
      (∃ u ∈ us, updateAt u.pre u.act = some .downgradeUpgradableToRead) ∧
      s.slots 0 = .reader ∧ ∀ a s', step s a = some s' → s'.data = 7 := by
  obtain ⟨ts, m, us, s, hr, hseg, hC, hkeep, hup, hdown, hs, hstart⟩ :=
    Run.of_exec_segment step (init 8 (Fin 2) 0)
      (acquire .write 0 ++ [.store 0 7, .run 0 .downgradeToUpgradable])
      (acquire .read 1 ++ [.run 0 .tryUpgrade, .run 1 .drop, .run 0 .downgrade])
      (fun ts _ us s => (∀ t ∈ us ++ ts, ¬ BreaksBorrow t ∧ ¬ Overflows t) ∧
        (∀ t ∈ us, ¬ EndsHold 0 t) ∧
        (∃ u ∈ us, updateAt u.pre u.act = some .upgradeUpgradableToWrite) ∧
        (∃ u ∈ us, updateAt u.pre u.act = some .downgradeUpgradableToRead) ∧
        s.slots 0 = .reader ∧ ∃ t ∈ ts.take 1,
          actor t.act = 0 ∧ updateAt t.pre t.act = some .downgradeWriteToUpgradable ∧
          (Update.downgradeWriteToUpgradable.run t.pre.stat).isSome = true ∧ t.pre.data = 7)
      (by decide)
  cases ts with
  | nil => simp at hstart
  | cons t ts =>
      obtain ⟨t', ht', hact, ha, hu, hd⟩ := hstart
      obtain rfl := List.mem_singleton.mp ht'
      have hrun := hr.append hseg
      have hdata := (data_kept (by decide) hrun (fun t ht => (hC t ht).1)
        (fun t ht => (hC t ht).2) ⟨hact, _, ha, hu, Or.inr (Or.inr rfl)⟩ hkeep).2
      rw [hd] at hdata
      exact ⟨ts, us, t', s, hrun, ha, hd, hup, hdown, hs, hdata⟩

end Runs

end AtomicSync.RwLock
