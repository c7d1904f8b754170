/-
  File:      AtomicSync/RwLock/ReaderCount.lean
  Subject:   `SpinningRwLock::reader_count` against its documentation, on the two upgrade paths.

  The counter holds one unit for each ReaderGuard and one for the UpgradableReaderGuard. The
  documentation counts a writer obtained by upgrading as well; what the counter has for it is the
  unit of the guard it was upgraded from. On the pinned path that guard stays, suspended under the
  WriterGuard. The consuming `try_upgrade` moves it in and drops it on return, and its unit goes
  with it: from then on the upgraded writer is not counted.

  * `Config.documentedCount` -- the number the documentation promises, counted on the guards;
  * `Suspended` -- under the borrow rule a lent WriterGuard has its `Upgrade` under it;
  * **`reader_count_iff`** -- the two numbers agree iff no WriterGuard of the consuming path is
    alive; the one path keeps the counter, the other takes it from one to zero;
  * `reader_count_forgets_writer` -- the shortest run on which they differ.
-/
import AtomicSync.RwLock.Reflection

namespace AtomicSync.RwLock

variable {w : ℕ} {ι T : Type}

/-! ## 1. The two numbers -/

/-- `SpinningRwLock::reader_count`; `none` is its `unreachable!`, for a `usize` the counter does
    not fit. -/
def SpinningRwLock.readerCount (usizeBits : ℕ) (l : SpinningRwLock w T) : Option ℕ :=
  let c := (RwLockState.readerCount l.stat).toNat
  if c < 2 ^ usizeBits then some c else none

/-- Slot `i` holds an upgraded WriterGuard with no guard suspended under it. -/
def Config.loneUpgraded (s : Config w ι T) (i : ι) : Bool :=
  match s.slots i with
  | .writer .consumed => true
  | .writer (.pinned u) => !(s.slots u).holds .upgradable
  | _ => false

/-- **The number of readers, upgradable readers and upgraded writers**, an upgraded writer and
    the guard under it counting once. -/
def Config.documentedCount [Fintype ι] (s : Config w ι T) : ℕ :=
  s.live .reader + s.live .upgradable + Population.total Bool.toNat s.loneUpgraded

/-! ## 2. The guard under a lent writer -/

theorem Slot.instr_dropMoved {c : Slot ι} {ins : Instr ι} (h : c.instr .dropMoved = some ins) :
    c = .consuming := by
  cases c with
  | consuming => rfl
  | calling k m => cases k <;> cases h
  | _ => cases h

/-- The `Upgrade` of every lent WriterGuard is where it was lent from. -/
def Suspended (s : Config w ι T) : Prop :=
  ∀ j u, s.slots j = .writer (.pinned u) → s.slots u = .upgrade

theorem suspended_init (d : T) : Suspended (init w ι d) := by
  intro j u h
  cases h

section Steps

variable [DecidableEq ι]

/-- A slot that has lent nothing changes, to no lent WriterGuard. -/
theorem suspended_put {s : Config w ι T} (hs : Suspended s) {i : ι} {c : Slot ι}
    (hL : ¬ Lent s i) (hc : ∀ u, c ≠ .writer (.pinned u)) : Suspended (s.put i c) := by
  intro j u hj
  by_cases hji : j = i
  · subst hji
    rw [Config.put_slots_self] at hj
    exact absurd hj (hc u)
  · rw [Config.put_slots_of_ne s hji] at hj
    have hui : u ≠ i := by
      rintro rfl
      exact hL ⟨j, hj⟩
    rw [Config.put_slots_of_ne s hui]
    exact hs j u hj

/-- **The step lemma.** -/
theorem suspended_step {t : LockTrans w ι T} (h : step t.pre t.act = some t.post)
    (hB : ¬ BreaksBorrow t) (hs : Suspended t.pre) : Suspended t.post := by
  obtain ⟨s, a, s'⟩ := t
  change step s a = some s' at h
  change Suspended s at hs
  show Suspended s'
  cases step_cases h with
  | move i b c hi =>
      refine suspended_put hs hB fun u hc => ?_
      have := Slot.instr_move_writer hi
      rw [hc] at this
      cases this
  | granted i b u g r stat' hi hu =>
      refine suspended_put hs hB fun v hg => ?_
      rcases Slot.instr_update_writer hi (by rw [hg]; rfl) with ⟨-, e⟩ | ⟨-, -, e⟩ | ⟨-, -, e⟩
      · cases hg.symm.trans e
      · cases hg.symm.trans e
      · cases hg.symm.trans e
  | refused i b u g r hi hu =>
      refine suspended_put hs hB fun v hr => ?_
      obtain ⟨-, e⟩ := Slot.instr_refused_writer hi (by rw [hr]; rfl)
      cases hr.symm.trans e
  | notLent i j m hi hj hu => exact suspended_put hs hB fun u => by cases m <;> nofun
  | store i o v hi => exact hs
  | lent i j m stat' hi hj hu =>
      have hij : i ≠ j := by
        rintro rfl
        rw [hi] at hj
        cases hj
      -- the new guard is suspended over slot i, every other lent one over what it was before
      have hup : Suspended (s.put i .upgrade) := suspended_put hs hB nofun
      intro k u hk
      show ((s.put i .upgrade).put j (.writer (.pinned i))).slots u = .upgrade
      change ((s.put i .upgrade).put j (.writer (.pinned i))).slots k = .writer (.pinned u) at hk
      by_cases hkj : k = j
      · subst hkj
        rw [Config.put_slots_self] at hk
        cases hk
        rw [Config.put_slots_of_ne _ hij, Config.put_slots_self]
      · rw [Config.put_slots_of_ne _ hkj] at hk
        have hu := hup k u hk
        have huj : u ≠ j := by
          rintro rfl
          rw [Config.put_slots_of_ne s hij.symm, hj] at hu
          cases hu
        rw [Config.put_slots_of_ne _ huj, hu]

end Steps

/-! ## 3. Agreement -/

section Counts

variable [Fintype ι]

/-- The counter against the documented number: they differ by the lone upgraded writers. -/
theorem documentedCount_eq {s : Config w ι T} (hF : Faithful s) :
    s.documentedCount = (fields s.stat).count + Population.total Bool.toNat s.loneUpgraded := by
  unfold Config.documentedCount
  rw [hF.exact.count]

/-- Under the borrow rule the lone upgraded writers are those of the consuming path. -/
theorem lone_eq_zero {s : Config w ι T} (hs : Suspended s) :
    Population.total Bool.toNat s.loneUpgraded = 0 ↔ ∀ i, s.slots i ≠ .writer .consumed := by
  rw [Population.total_eq_zero]
  constructor
  · intro h i hi
    have := h i
    simp [Config.loneUpgraded, hi] at this
  · intro h i
    unfold Config.loneUpgraded
    split
    · next hi => exact absurd hi (h i)
    · next u hi =>
      rw [hs i u hi]
      rfl
    · rfl

/-- **`reader_count` is the documented number exactly when no writer of the consuming path is
    alive**, as far as a `usize` can hold the number at all. -/
theorem readerCount_eq_documented {s : Config w ι T} (hF : Faithful s) (hs : Suspended s)
    (usizeBits : ℕ) :
    s.readerCount usizeBits = some s.documentedCount ↔
      (∀ i, s.slots i ≠ .writer .consumed) ∧ s.documentedCount < 2 ^ usizeBits := by
  have hdoc := documentedCount_eq hF
  have hword : (RwLockState.readerCount s.stat).toNat = (fields s.stat).count := rfl
  rw [← lone_eq_zero hs]
  unfold SpinningRwLock.readerCount
  simp only [hword]
  split
  · next hlt =>
    rw [Option.some.injEq]
    omega
  · next hge =>
    refine iff_of_false nofun ?_
    omega

variable [DecidableEq ι]

/-- An upgrade, granted or not, leaves the counter as it is. -/
theorem count_of_upgrade (hw : 8 ≤ w) {t : LockTrans w ι T} (h : step t.pre t.act = some t.post)
    (hF : Faithful t.pre) (hO : ¬ Overflows t)
    (ha : updateAt t.pre t.act = some .upgradeUpgradableToWrite) :
    (fields t.post.stat).count = (fields t.pre.stat).count := by
  rcases update_books h ha with ⟨hu, -, -⟩ | ⟨-, hs, -⟩
  · rw [Update.fields_run hw hu (fits_of_bounded hw hF.exclusive.bounded ha hu hO)]
    rfl
  · rw [hs]

/-- **The moved guard was the last one counted**: as the consuming `try_upgrade` returns it takes
    the counter from one to zero. -/
theorem count_of_dropMoved {t : LockTrans w ι T} (h : step t.pre t.act = some t.post)
    (hF : Faithful t.pre) (hF' : Faithful t.post) {i : ι} (ha : t.act = .run i .dropMoved) :
    (fields t.pre.stat).count = 1 ∧ (fields t.post.stat).count = 0 := by
  have hi : t.pre.slots i = .consuming := by
    rw [ha] at h
    obtain ⟨ins, hins, -⟩ := Option.map_eq_some_iff.mp h
    exact Slot.instr_dropMoved hins
  have hup : updateAt t.pre t.act = some .upgradableReadDrop := by
    rw [ha]
    simp only [updateAt, hi, Slot.instr, Acquire.dropMovedGuard]
  have hwr := hF.exclusive.alone.readers (live_pos (holds_of_slot hi rfl))
  have hone := hF.exact.single
  have hpos : 0 < t.pre.live .upgradable := live_pos (holds_of_slot hi rfl)
  have hcount := hF.exact.count
  have hcount' := hF'.exact.count
  have hl : ∀ ρ, t.post.live ρ + Update.upgradableReadDrop.takes ρ = t.pre.live ρ := by
    rcases update_books h hup with ⟨-, hl, -⟩ | ⟨-, -, hl⟩
    · exact fun ρ => (hl ρ).trans (by cases ρ <;> rfl)
    · exact hl
  have hr := hl .reader
  have hu := hl .upgradable
  simp only [Update.takes] at hr hu
  exact ⟨by omega, by omega⟩

/-- **What `reader_count` reports.** In every run without leaks and overflows, under the borrow
    rule and with no lent WriterGuard downgraded to upgradable: it is the documented number in
    exactly the states with no WriterGuard of the consuming path; a pinned upgrade keeps it, and
    a consuming one ends by taking it from one to zero. -/
theorem reader_count_iff (hw : 8 ≤ w) {d : T} {ts : List (LockTrans w ι T)} {s : Config w ι T}
    (hr : Run step (init w ι d) ts s) (hC : ∀ t ∈ ts, Disciplined t) (usizeBits : ℕ) :
    (s.readerCount usizeBits = some s.documentedCount ↔
      (∀ i, s.slots i ≠ .writer .consumed) ∧ s.documentedCount < 2 ^ usizeBits) ∧
    (∀ t ∈ ts, ∀ i j, t.act = .attemptUpgrade i j →
      (fields t.post.stat).count = (fields t.pre.stat).count) ∧
    ∀ t ∈ ts, ∀ i, t.act = .run i .dropMoved →
      (fields t.pre.stat).count = 1 ∧ (fields t.post.stat).count = 0 := by
  have hF : Faithful s := hr.invariant (faithful_init hw d) (faithful_step hw) hC
  have hs : Suspended s := hr.invariant (suspended_init d)
    (fun t h hD hs => suspended_step h hD.borrow hs) hC
  refine ⟨readerCount_eq_documented hF hs usizeBits, fun t ht i j ha => ?_, fun t ht i ha => ?_⟩
  · obtain ⟨h, hpre, -⟩ := Run.invariant_mem (faithful_init hw d) (faithful_step hw) hr hC ht
    exact count_of_upgrade hw h hpre (hC t ht).overflow (by rw [ha]; rfl)
  · obtain ⟨h, hpre, hpost⟩ := Run.invariant_mem (faithful_init hw d) (faithful_step hw) hr hC ht
    exact count_of_dropMoved h hpre hpost ha

/-- The criterion at work: a reader comes and goes under a pinned `Upgrade`, which then upgrades. -/
theorem reader_count_iff_pinned :
    ∃ ts s, Run step (init 8 (Fin 3) ()) ts s ∧ s.slots 2 = .writer (.pinned 0) ∧
      s.readerCount 64 = some s.documentedCount := by
  obtain ⟨ts, s, hr, hL, hB, hO, hP, hs, hn, hd⟩ := Run.of_exec step (init 8 (Fin 3) ())
    (acquire .upgradableRead 0 ++ acquire .read 1 ++ [.run 0 .upgrade, .run 1 .drop,
      .run 0 (.startUpgrade .task), .attemptUpgrade 0 2])
    (fun ts s => (∀ t ∈ ts, ¬ Leaks t) ∧ (∀ t ∈ ts, ¬ BreaksBorrow t) ∧
      (∀ t ∈ ts, ¬ Overflows t) ∧ (∀ t ∈ ts, ¬ DowngradesPinned t) ∧
      s.slots 2 = .writer (.pinned 0) ∧ (∀ i, s.slots i ≠ .writer .consumed) ∧
      s.documentedCount < 2 ^ 64) (by decide)
  have hC : ∀ t ∈ ts, Disciplined t := fun t ht => ⟨hL t ht, hB t ht, hO t ht, hP t ht⟩
  exact ⟨ts, s, hr, hs, (reader_count_iff (by decide) hr hC 64).1.mpr ⟨hn, hd⟩⟩

/-- **One thread, `upgradable_read` and the consuming `try_upgrade`**: an upgraded writer holds
    the lock and `reader_count` says zero. -/
theorem reader_count_forgets_writer :
    ∃ ts s, Run step (init 8 (Fin 1) ()) ts s ∧ (∀ t ∈ ts, Disciplined t) ∧
      s.slots 0 = .writer .consumed ∧ s.readerCount 64 = some 0 ∧ s.documentedCount = 1 := by
  obtain ⟨ts, s, hr, hL, hB, hO, hP, hs⟩ := Run.of_exec step (init 8 (Fin 1) ())
    (acquire .upgradableRead 0 ++ [.run 0 .tryUpgrade, .run 0 .dropMoved])
    (fun ts s => (∀ t ∈ ts, ¬ Leaks t) ∧ (∀ t ∈ ts, ¬ BreaksBorrow t) ∧
      (∀ t ∈ ts, ¬ Overflows t) ∧ (∀ t ∈ ts, ¬ DowngradesPinned t) ∧
      s.slots 0 = .writer .consumed ∧ s.readerCount 64 = some 0 ∧ s.documentedCount = 1)
    (by decide)
  exact ⟨ts, s, hr, fun t ht => ⟨hL t ht, hB t ht, hO t ht, hP t ht⟩, hs⟩

end Counts

end AtomicSync.RwLock
