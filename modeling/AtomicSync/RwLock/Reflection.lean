/-
  File:      AtomicSync/RwLock/Reflection.lean
  Subject:   The word reflects the guards: what every flag and the counter mean, exactly.

  `Exact` is the meaning of the state word: WRITER_ACTIVE is the live WriterGuard, UPGRADE_ACTIVE
  the live UpgradableReaderGuard, the counter the ReaderGuards plus that one. The guard inside a
  pinned `Upgrade` is alive while its WriterGuard is, and the moved guard of the consuming upgrade
  until it is dropped: both still have their unit and their flag in the word.

  Three things destroy the meaning, and each is excluded by a condition on runs: a leaked guard,
  an overflow, and `downgrade_to_upgradable` on a WriterGuard whose `Upgrade` is still alive (it
  raises a flag that is already up). The borrow rule keeps the rest.

  * `ActiveOwned`, `ReadersExact` -- the writer's and the readers' part, each with what it needs;
  * `Exact.release` -- a guard that is exactly reflected can always be given up;
  * `faithful_run` -- the meaning along a run;
  * **`word_reflects_guards`** -- the flags and the counter after every step, and every drop and
    downgrade granted when its holder runs it.
-/
import AtomicSync.RwLock.Exclusion

namespace AtomicSync.RwLock

variable {w : ℕ} {ι T : Type}

/-! ## 1. Who set WRITER_ACTIVE -/

/-- WRITER_ACTIVE has a live WriterGuard behind it. -/
def ActiveOwned (f : Fields) (n : Role → ℕ) : Prop := f.writerActive = true → 0 < n .writer

namespace ActiveOwned

variable {f : Fields} {n n' : Role → ℕ} {u : Update} {m : ℕ}

/-- What gives up a writer clears WRITER_ACTIVE, what sets it yields one. -/
theorem grant (hx : ActiveOwned f n) (hl : ∀ ρ, n' ρ + u.takes ρ = n ρ + u.gives ρ) :
    ActiveOwned (u.effect f) n' := by
  intro hW
  unfold ActiveOwned at hx
  have lw := hl .writer
  cases u <;> simp only [Update.effect, Update.takes, Update.gives] at hW lw <;> grind

/-- A writer's release is refused only where WRITER_ACTIVE is clear. -/
theorem refuse (hx : ActiveOwned f n) (ha : u.admits m f = false)
    (hl : ∀ ρ, n' ρ + u.takes ρ = n ρ) : ActiveOwned f n' := by
  intro hW
  unfold ActiveOwned at hx
  have lw := hl .writer
  cases u <;> simp only [Update.admits, Update.takes] at ha lw <;> grind

/-- Without a live writer WRITER_ACTIVE is clear. -/
theorem inactive (hx : ActiveOwned f n) (h0 : n .writer = 0) : f.writerActive = false :=
  Bool.eq_false_iff.mpr fun hW => by
    have := hx hW
    omega

end ActiveOwned

section Owned

variable [Fintype ι]

theorem activeOwned_init (hw : 8 ≤ w) (d : T) :
    ActiveOwned (fields (init w ι d).stat) (init w ι d).live := by
  intro h
  rw [show fields (init w ι d).stat = _ from fields_zero hw] at h
  cases h

variable [DecidableEq ι]

/-- **The step lemma of ownership**: neither an overflow nor a leaked writer. -/
theorem activeOwned_step (hw : 8 ≤ w) {t : LockTrans w ι T} (h : step t.pre t.act = some t.post)
    (hO : ¬ Overflows t) (hL : ¬ LeaksWriter t) (hb : t.pre.Bounded)
    (hx : ActiveOwned (fields t.pre.stat) t.pre.live) :
    ActiveOwned (fields t.post.stat) t.post.live := by
  refine ledger_rule hw h hx (fun u _ ha hu => fits_of_bounded hw hb ha hu hO) ?_ ?_ ?_
  · intro u n' _ _ _ hl _
    exact hx.grant hl
  · intro u n' _ hadm hl
    exact hx.refuse hadm hl
  · intro i n' ha hl hW
    have hi : (t.pre.slots i).weight .writer = 0 := by
      by_contra hne
      refine hL ⟨?_, ?_⟩
      · unfold Leaks
        rw [ha]
        rfl
      · rw [ha]
        exact Slot.weight_pos.mp (Nat.pos_of_ne_zero hne)
    have := hl .writer
    have := hx hW
    omega

end Owned

/-! ## 2. The readers' part of the word -/

/-- **UPGRADE_ACTIVE is the upgradable guard, the counter is the readers of both kinds.** -/
structure ReadersExact (f : Fields) (n : Role → ℕ) : Prop where
  upgradable : f.upgradeActive = true ↔ 0 < n .upgradable
  single : n .upgradable ≤ 1
  count : f.count = n .reader + n .upgradable

namespace ReadersExact

variable {f : Fields} {n n' : Role → ℕ} {u : Update} {m : ℕ}

/-- A granted update keeps it, if a writer that turns upgradable finds no upgradable guard. -/
theorem grant (hx : ReadersExact f n) (ha : u.admits m f = true)
    (hdu : u = .downgradeWriteToUpgradable → n .upgradable = 0)
    (hl : ∀ ρ, n' ρ + u.takes ρ = n ρ + u.gives ρ) (ht : ∀ ρ, u.takes ρ ≤ n ρ) :
    ReadersExact (u.effect f) n' := by
  obtain ⟨h2, h3, h4⟩ := hx
  have lr := hl .reader
  have lu := hl .upgradable
  have tr := ht .reader
  have tu := ht .upgradable
  cases u <;>
    simp only [Update.admits, Update.takes, Update.gives] at ha lr lu tr tu <;>
    refine ⟨?_, ?_, ?_⟩ <;> grind [Update.effect]

/-- A refused update gives up no reader of either kind, unless an upgradable guard is
    downgraded under WRITER_ACTIVE. -/
theorem refuse (hx : ReadersExact f n) (ha : u.admits m f = false)
    (hur : u = .downgradeUpgradableToRead → f.writerActive = false)
    (hl : ∀ ρ, n' ρ + u.takes ρ = n ρ) : ReadersExact f n' := by
  obtain ⟨h2, h3, h4⟩ := hx
  have lr := hl .reader
  have lu := hl .upgradable
  cases u <;>
    simp only [Update.admits, Update.takes] at ha lr lu <;>
    refine ⟨?_, ?_, ?_⟩ <;> grind

/-- Without a live upgradable guard UPGRADE_ACTIVE is clear. -/
theorem inactive (hx : ReadersExact f n) (h0 : n .upgradable = 0) : f.upgradeActive = false :=
  Bool.eq_false_iff.mpr fun hU => by
    have := hx.upgradable.mp hU
    omega

end ReadersExact

section Readers

variable [Fintype ι]

theorem readersExact_init (hw : 8 ≤ w) (d : T) :
    ReadersExact (fields (init w ι d).stat) (init w ι d).live := by
  rw [show fields (init w ι d).stat = _ from fields_zero hw]
  constructor <;> simp [live_init]

variable [DecidableEq ι]

/-- **The step lemma of the readers' part.** -/
theorem readersExact_step (hw : 8 ≤ w) {t : LockTrans w ι T} (h : step t.pre t.act = some t.post)
    (hO : ¬ Overflows t) (hL : ¬ Leaks t) (hb : t.pre.Bounded)
    (hdu : updateAt t.pre t.act = some .downgradeWriteToUpgradable → t.pre.live .upgradable = 0)
    (hur : updateAt t.pre t.act = some .downgradeUpgradableToRead →
      (fields t.pre.stat).writerActive = false)
    (hx : ReadersExact (fields t.pre.stat) t.pre.live) :
    ReadersExact (fields t.post.stat) t.post.live := by
  refine ledger_rule hw h hx (fun u _ ha hu => fits_of_bounded hw hb ha hu hO) ?_ ?_ ?_
  · intro u n' ha hadm _ hl ht
    exact hx.grant hadm (fun e => hdu (e ▸ ha)) hl ht
  · intro u n' ha hadm hl
    exact hx.refuse hadm (fun e => hur (e ▸ ha)) hl
  · intro i n' ha _
    refine absurd ?_ hL
    unfold Leaks
    rw [ha]
    rfl

end Readers

/-! ## 3. The meaning of the word -/

/-- **The word's fields are the guards.** -/
structure Exact (f : Fields) (n : Role → ℕ) : Prop extends ReadersExact f n where
  writer : f.writerActive = true ↔ 0 < n .writer

/-- The updates that give up a guard: the drops and the downgrades. -/
def Update.givesUp : Update → Bool
  | .writerGuardDrop | .decreaseReaderCount | .upgradableReadDrop => true
  | .downgradeWriteToRead | .downgradeWriteToUpgradable | .downgradeUpgradableToRead => true
  | _ => false

/-- **A reflected guard can be given up**: its drop or downgrade is admitted. The upgradable
    guard's downgrade asks for WRITER_ACTIVE to be clear as well. -/
theorem Exact.release {f : Fields} {n : Role → ℕ} {u : Update} {m : ℕ} (hx : Exact f n)
    (hu : u.givesUp = true) (ht : ∀ ρ, u.takes ρ ≤ n ρ)
    (hur : u = .downgradeUpgradableToRead → n .writer = 0) : u.admits m f = true := by
  obtain ⟨⟨h2, -, h4⟩, h1⟩ := hx
  cases u with
  | writerGuardDrop => exact h1.mpr (ht .writer)
  | downgradeWriteToRead => exact h1.mpr (ht .writer)
  | downgradeWriteToUpgradable => exact h1.mpr (ht .writer)
  | upgradableReadDrop => exact h2.mpr (ht .upgradable)
  | decreaseReaderCount =>
      have hr : 0 < n .reader := ht .reader
      simp only [Update.admits, decide_eq_true_eq]
      omega
  | downgradeUpgradableToRead =>
      have hup : 0 < n .upgradable := ht .upgradable
      have hW : f.writerActive = false := Bool.eq_false_iff.mpr fun hW => by
        have := h1.mp hW
        have := hur rfl
        omega
      have hU := h2.mpr hup
      have hc : 0 < f.count := by omega
      simp [Update.admits, hU, hW, hc]
  | _ => cases hu

section Runs

variable [Fintype ι]

/-- A state whose word means its guards. -/
structure Faithful (s : Config w ι T) : Prop where
  exclusive : Exclusive s
  owned : ActiveOwned (fields s.stat) s.live
  readers : ReadersExact (fields s.stat) s.live

theorem Faithful.exact {s : Config w ι T} (hF : Faithful s) : Exact (fields s.stat) s.live :=
  ⟨hF.readers, hF.owned, hF.exclusive.alone.word⟩

theorem faithful_init (hw : 8 ≤ w) (d : T) : Faithful (init w ι d) where
  exclusive := exclusive_init hw d
  owned := activeOwned_init hw d
  readers := readersExact_init hw d

/-- **No upgradable guard is alive beside a writer** whose `Upgrade`, if it has one, is gone. -/
theorem no_upgradable_beside {s : Config w ι T} (hE : Exclusive s) {i : ι} {o : Origin ι}
    (hi : s.slots i = .writer o)
    (ho : ∀ u, o = .pinned u → ¬ (s.slots u).holds .upgradable = true) :
    s.live .upgradable = 0 := by
  by_contra hpos
  obtain ⟨v, hv⟩ := exists_of_live_pos (Nat.pos_of_ne_zero hpos)
  have hwr : (s.slots i).holds .writer = true := holds_of_slot hi rfl
  have hsrc := hE.source i v hwr hv
  rw [hi] at hsrc
  cases o with
  | pinned u =>
      obtain rfl : u = v := Option.some.inj hsrc
      exact ho u rfl hv
  | acquired => cases hsrc
  | consumed => cases hsrc

/-- The upgradable guard that is downgraded to a reader has no writer beside it. -/
theorem no_writer_at_downgrade {s : Config w ι T} (hE : Exclusive s) {i : ι} {a : Action}
    {g r : Slot ι} (hi : (s.slots i).instr a = some (.update .downgradeUpgradableToRead g r))
    (hL : ¬ Lent s i) : s.live .writer = 0 := by
  have hc := (Slot.instr_from hi).2.1 rfl
  refine no_writer_beside hE ?_ ?_ hL
  · rw [hc]
    rfl
  · rw [hc]
    nofun

/-- … which under the borrow rule is every one. -/
theorem no_writer_of_borrow {t : LockTrans w ι T} (hE : Exclusive t.pre)
    (ha : updateAt t.pre t.act = some .downgradeUpgradableToRead) (hB : ¬ BreaksBorrow t) :
    t.pre.live .writer = 0 := by
  rcases instr_of_updateAt ha with ⟨i, b, g, r, hact, hi⟩ | ⟨i, j, -, e⟩
  · refine no_writer_at_downgrade hE hi fun hL => hB ?_
    unfold BreaksBorrow
    rw [hact]
    exact hL
  · cases e

/-- A writer that is downgraded to upgradable, no lent one, has no upgradable guard beside it. -/
theorem no_upgradable_at_downgrade {t : LockTrans w ι T} (hE : Exclusive t.pre)
    (ha : updateAt t.pre t.act = some .downgradeWriteToUpgradable) (hP : ¬ DowngradesPinned t) :
    t.pre.live .upgradable = 0 := by
  rcases instr_of_updateAt ha with ⟨i, b, g, r, hact, hi⟩ | ⟨i, j, -, e⟩
  · obtain ⟨o, ho, -⟩ := (Slot.instr_from hi).2.2 rfl
    refine no_upgradable_beside hE ho fun v hv hup => hP ⟨ha, v, ?_, hup⟩
    rw [hact]
    exact ho.trans (by rw [hv])
  · cases e

/-- **Every drop and every downgrade finds its own hold.** -/
theorem release_granted (hw : 8 ≤ w) {s : Config w ι T} (hF : Faithful s) {i : ι} {a : Action}
    {u : Update} {g r : Slot ι} (hi : (s.slots i).instr a = some (.update u g r))
    (hu : u.givesUp = true) (hL : ¬ Lent s i) : (u.run s.stat).isSome = true := by
  rw [Update.isSome_run hw]
  refine hF.exact.release hu (fun ρ => ?_) fun e => ?_
  · have h1 := (Slot.instr_update_weight hi ρ).2
    have h2 : (s.slots i).weight ρ ≤ s.live ρ := Population.le_total _ s.slots i
    omega
  · subst e
    exact no_writer_at_downgrade hF.exclusive hi hL

variable [DecidableEq ι]

/-- **The step lemma.** -/
theorem faithful_step (hw : 8 ≤ w) (t : LockTrans w ι T) (h : step t.pre t.act = some t.post)
    (hC : Disciplined t) (hF : Faithful t.pre) : Faithful t.post := by
  obtain ⟨hL, hB, hO, hP⟩ := hC
  have hE := hF.exclusive
  refine ⟨exclusive_step hw t h ⟨hO, not_reupgrades hB⟩ hE,
    activeOwned_step hw h hO (not_leaksWriter hL) hE.bounded hF.owned,
    readersExact_step hw h hO hL hE.bounded (fun ha => no_upgradable_at_downgrade hE ha hP)
      (fun ha => hF.owned.inactive (no_writer_of_borrow hE ha hB)) hF.readers⟩

/-- **The run lemma.** -/
theorem faithful_run (hw : 8 ≤ w) {d : T} {ts : List (LockTrans w ι T)} {s : Config w ι T}
    (hr : Run step (init w ι d) ts s) (hL : ∀ t ∈ ts, ¬ Leaks t) (hB : ∀ t ∈ ts, ¬ BreaksBorrow t)
    (hO : ∀ t ∈ ts, ¬ Overflows t) (hP : ∀ t ∈ ts, ¬ DowngradesPinned t) : Faithful s :=
  hr.invariant (faithful_init hw d) (faithful_step hw) fun t ht =>
    ⟨hL t ht, hB t ht, hO t ht, hP t ht⟩

/-- **The state word is the guards.** After every step of a run without leaks, without an
    overflow, under the borrow rule and with `downgrade_to_upgradable` applied to acquired and
    consumed WriterGuards only: WRITER_ACTIVE is set iff a WriterGuard is alive, and one at most
    is; UPGRADE_ACTIVE iff an UpgradableReaderGuard is, and one at most is; the counter is the
    ReaderGuards plus that one; and every drop and downgrade is granted to its holder. -/
theorem word_reflects_guards (hw : 8 ≤ w) {d : T} {ts : List (LockTrans w ι T)}
    {s : Config w ι T} (hr : Run step (init w ι d) ts s) (hL : ∀ t ∈ ts, ¬ Leaks t)
    (hB : ∀ t ∈ ts, ¬ BreaksBorrow t) (hO : ∀ t ∈ ts, ¬ Overflows t)
    (hP : ∀ t ∈ ts, ¬ DowngradesPinned t) :
    ((fields s.stat).writerActive = true ↔ 0 < s.live .writer) ∧ s.live .writer ≤ 1 ∧
      ((fields s.stat).upgradeActive = true ↔ 0 < s.live .upgradable) ∧
      s.live .upgradable ≤ 1 ∧ (fields s.stat).count = s.live .reader + s.live .upgradable ∧
      ∀ i a u g r, (s.slots i).instr a = some (.update u g r) → u.givesUp = true →
        ¬ Lent s i → (u.run s.stat).isSome = true := by
  have hF := faithful_run hw hr hL hB hO hP
  refine ⟨hF.exact.writer, hF.exclusive.alone.alone, hF.exact.upgradable, hF.exact.single,
    hF.exact.count, ?_⟩
  intro i a u g r hi hu hlent
  exact release_granted hw hF hi hu hlent

/-- The theorem at work: a pinned `Upgrade` suspended under the WriterGuard it lent. -/
theorem word_reflects_suspended_upgrade :
    ∃ ts s, Run step (init 8 (Fin 2) ()) ts s ∧ s.slots 1 = .writer (.pinned 0) ∧
      ((fields s.stat).writerActive = true ↔ 0 < s.live .writer) ∧
      (fields s.stat).count = s.live .reader + s.live .upgradable := by
  obtain ⟨ts, s, hr, hL, hB, hO, hP, hs⟩ := Run.of_exec step (init 8 (Fin 2) ())
    (acquire .upgradableRead 0 ++ [.run 0 .upgrade, .run 0 (.startUpgrade .once),
      .attemptUpgrade 0 1])
    (fun ts s => (∀ t ∈ ts, ¬ Leaks t) ∧ (∀ t ∈ ts, ¬ BreaksBorrow t) ∧
      (∀ t ∈ ts, ¬ Overflows t) ∧ (∀ t ∈ ts, ¬ DowngradesPinned t) ∧
      s.slots 1 = .writer (.pinned 0)) (by decide)
  obtain ⟨h1, -, -, -, h5, -⟩ := word_reflects_guards (by decide) hr hL hB hO hP
  exact ⟨ts, s, hr, hs, h1, h5⟩

end Runs

end AtomicSync.RwLock
