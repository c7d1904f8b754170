/-
  File:      AtomicSync/RwLock/Reupgrade.lean
  Subject:   Writers without the borrow rule: what the inherent `UpgradeTask::may_cancel_with`
             lets a caller do, and the one call that breaks the lock.

  The WriterGuard the inherent method returns has the lifetime of the lock's borrow, not of the
  `Upgrade`'s, so the `Upgrade` can be used while the guard is alive. Turning it back into a
  guard, dropping it or downgrading it then does no harm. A second upgrade does:
  `expect_can_upgrade_` does not test WRITER_ACTIVE, and an upgrade leaves the word with
  UPGRADE_ACTIVE and one reader, which is all the test asks for.

  * `Sealed` -- while no upgrade is granted, UPGRADE_ACTIVE is clear under WRITER_ACTIVE: no word
    reached admits an access there (`shut_run`); every upgrade on a word with UPGRADE_ACTIVE
    and one reader is granted and leaves a word that does (`not_shut_after_sole`);
  * `Paired` -- beside a live writer, a live upgradable guard has UPGRADE_ACTIVE and a counter of
    one: the reason a re-upgrade is always granted;
  * **`no_grant_under_writer_iff`** -- every word reached with WRITER_ACTIVE refuses all four
    updates that acquire exactly when no step upgrades on such a word; and no call of the run is
    granted under WRITER_ACTIVE exactly when no step is a re-upgrade;
  * `second_writer_by_reupgrade` -- the run that has two.
-/
import AtomicSync.RwLock.Reflection

namespace AtomicSync.RwLock

variable {w : ℕ} {ι T : Type}

/-! ## 1. A writer and an upgradable guard at once -/

/-- Beside a live WriterGuard, a live upgradable guard has its flag and is the only reader. -/
def Paired (f : Fields) (n : Role → ℕ) : Prop :=
  0 < n .writer → 0 < n .upgradable → f.upgradeActive = true ∧ f.count = 1

namespace Paired

variable {f : Fields} {n n' : Role → ℕ} {u : Update} {m : ℕ}

theorem grant (hx : Paired f n) (hb : Bounded f n) (hw : WriterAlone f n)
    (ha : u.admits m f = true) (hup : u = .upgradeUpgradableToWrite → n .writer = 0)
    (hl : ∀ ρ, n' ρ + u.takes ρ = n ρ + u.gives ρ) (ht : ∀ ρ, u.takes ρ ≤ n ρ) :
    Paired (u.effect f) n' := by
  obtain ⟨h1, h2, h3⟩ := hw
  obtain ⟨b1, b2, -⟩ := hb
  intro hwr hur
  unfold Paired at hx
  have lu := hl .upgradable
  have lw := hl .writer
  have tr := ht .reader
  have tw := ht .writer
  cases u <;>
    simp only [Update.admits, Update.takes, Update.gives] at ha lu lw tr tw <;>
    simp only [Update.effect] <;> grind

theorem mono (hx : Paired f n) (hl : ∀ ρ, n' ρ ≤ n ρ) : Paired f n' := by
  intro hwr hur
  have lu := hl .upgradable
  have lw := hl .writer
  exact hx (by omega) (by omega)

end Paired

/-! ## 2. The inherent API -/

/-- The updates that acquire: the three of `Acquire` and the upgrade. -/
def Update.acquires : Update → Bool
  | .tryRead | .tryWrite | .tryUpgradableRead | .upgradeUpgradableToWrite => true
  | _ => false

/-- A call that acquires is granted in a state with WRITER_ACTIVE set. -/
def GrantsUnderWriter (t : LockTrans w ι T) : Prop :=
  (fields t.pre.stat).writerActive = true ∧
    ∃ u, updateAt t.pre t.act = some u ∧ u.acquires = true ∧ (u.run t.pre.stat).isSome = true

/-- An upgrade is attempted on a word with UPGRADE_ACTIVE and one reader. -/
def UpgradesSole (t : LockTrans w ι T) : Prop :=
  updateAt t.pre t.act = some .upgradeUpgradableToWrite ∧
    (fields t.pre.stat).upgradeActive = true ∧ (fields t.pre.stat).count = 1

instance (t : LockTrans w ι T) : Decidable (UpgradesSole t) :=
  inferInstanceAs (Decidable (_ ∧ _ ∧ _))

/-! ## 3. Every word reached -/

/-- Without a granted upgrade: UPGRADE_ACTIVE is clear under WRITER_ACTIVE, and a live WriterGuard
    has WRITER_ACTIVE behind it and is the only one. -/
structure Sealed (f : Fields) (n : Role → ℕ) : Prop where
  clear : f.writerActive = true → f.upgradeActive = false
  word : 0 < n .writer → f.writerActive = true
  alone : n .writer ≤ 1

namespace Sealed

variable {f : Fields} {n n' : Role → ℕ} {u : Update} {m : ℕ}

/-- A granted update keeps the seal, the upgrade excepted: a `try_write` finds the counter at
    zero, so UPGRADE_ACTIVE clear. -/
theorem grant (hS : Sealed f n) (hb : Bounded f n) (ha : u.admits m f = true)
    (hup : u ≠ .upgradeUpgradableToWrite) (hl : ∀ ρ, n' ρ + u.takes ρ = n ρ + u.gives ρ)
    (ht : ∀ ρ, u.takes ρ ≤ n ρ) : Sealed (u.effect f) n' := by
  obtain ⟨h1, h2, h3⟩ := hS
  obtain ⟨-, b2, -⟩ := hb
  have lw := hl .writer
  have tw := ht .writer
  cases u <;>
    simp only [Update.admits, Update.takes, Update.gives] at ha lw tw <;>
    exact ⟨by simp only [Update.effect]; grind, by simp only [Update.effect]; grind, by grind⟩

theorem mono (hS : Sealed f n) (hl : ∀ ρ, n' ρ ≤ n ρ) : Sealed f n' := by
  obtain ⟨h1, h2, h3⟩ := hS
  have lw := hl .writer
  exact ⟨h1, fun h => h2 (by omega), by omega⟩

/-- A sealed word with WRITER_ACTIVE admits nothing that acquires. -/
theorem not_admits (hS : Sealed f n) (hW : f.writerActive = true) (hu : u.acquires = true) :
    u.admits m f = false := by
  have hU := hS.clear hW
  cases u with
  | tryRead => simp [Update.admits, hW]
  | tryWrite => simp [Update.admits, hW]
  | tryUpgradableRead => simp [Update.admits, hW]
  | upgradeUpgradableToWrite => simp [Update.admits, hU]
  | _ => cases hu

end Sealed

section Runs

variable [Fintype ι]

/-- **The word of a state with WRITER_ACTIVE refuses every access**: `try_read`, `try_write`,
    `try_upgradable_read` and `try_upgrade_upgradable_to_write`. And there are not two writers. -/
structure ShutUnderWriter (s : Config w ι T) : Prop where
  refuses : (fields s.stat).writerActive = true → ∀ u : Update, u.acquires = true →
    u.run s.stat = none
  single : s.live .writer ≤ 1

theorem Sealed.shut (hw : 8 ≤ w) {s : Config w ι T} (hS : Sealed (fields s.stat) s.live) :
    ShutUnderWriter s := by
  refine ⟨fun hW u hu => ?_, hS.alone⟩
  rw [← Option.not_isSome_iff_eq_none, Update.isSome_run hw, hS.not_admits hW hu]
  exact Bool.false_ne_true

/-- The invariant of the runs without such an upgrade. -/
structure Unupgraded (s : Config w ι T) : Prop where
  bounded : s.Bounded
  shutting : Sealed (fields s.stat) s.live

theorem unupgraded_init (hw : 8 ≤ w) (d : T) : Unupgraded (init w ι d) where
  bounded := bounded_init hw d
  shutting := by
    have e : fields (init w ι d).stat = ⟨false, false, false, 0⟩ := fields_zero hw
    rw [e]
    constructor
    · intro h
      cases h
    · intro h
      rw [live_init] at h
      cases h
    · rw [live_init]
      exact Nat.zero_le 1

variable [DecidableEq ι]

/-- **The step lemma**: neither an overflow nor an upgrade on a sole upgradable reader's word. -/
theorem unupgraded_step (hw : 8 ≤ w) (t : LockTrans w ι T) (h : step t.pre t.act = some t.post)
    (hC : ¬ Overflows t ∧ ¬ UpgradesSole t) (hI : Unupgraded t.pre) : Unupgraded t.post := by
  obtain ⟨hO, hS⟩ := hC
  refine ⟨bounded_step hw t h hO hI.bounded, ?_⟩
  refine ledger_rule_mono hw h hI.shutting (fun _ _ _ hI hl => hI.mono hl)
    (fun u _ ha hu => fits_of_bounded hw hI.bounded ha hu hO) ?_
  intro u n' ha hadm _ hl ht
  refine hI.shutting.grant hI.bounded hadm (fun e => hS ?_) hl ht
  subst e
  simp only [Update.admits, Bool.and_eq_true, decide_eq_true_eq] at hadm
  exact ⟨ha, hadm⟩

/-- **The run lemma**: no state such a run reaches admits an access under WRITER_ACTIVE. -/
theorem shut_run (hw : 8 ≤ w) {d : T} {ts : List (LockTrans w ι T)} {s : Config w ι T}
    (hr : Run step (init w ι d) ts s) (hO : ∀ t ∈ ts, ¬ Overflows t)
    (hS : ∀ t ∈ ts, ¬ UpgradesSole t) : ∀ t ∈ ts, ShutUnderWriter t.post := by
  intro t ht
  obtain ⟨-, -, hI⟩ := Run.invariant_mem (unupgraded_init hw d) (unupgraded_step hw) hr
    (fun t ht => ⟨hO t ht, hS t ht⟩) ht
  exact hI.shutting.shut hw

/-- **An upgrade on a sole upgradable reader's word leaves it open to the next**: WRITER_ACTIVE
    is set, UPGRADE_ACTIVE and the one reader are still there. -/
theorem not_shut_after_sole (hw : 8 ≤ w) {t : LockTrans w ι T}
    (h : step t.pre t.act = some t.post) (hS : UpgradesSole t) : ¬ ShutUnderWriter t.post := by
  obtain ⟨ha, hU, hc⟩ := hS
  have hadm : Update.upgradeUpgradableToWrite.admits (maxReaderCount w) (fields t.pre.stat)
      = true := by simp [Update.admits, hU, hc]
  have hfit : Update.upgradeUpgradableToWrite.fits (maxReaderCount w) (fields t.pre.stat) :=
    ⟨Nat.zero_le _, count_le_max hw _⟩
  rcases update_books h ha with ⟨hu, -, -⟩ | ⟨hu, -, -⟩
  · have hf := Update.fields_run hw hu hfit
    intro hshut
    have hnone := hshut.refuses (by rw [hf]; rfl) .upgradeUpgradableToWrite rfl
    have hrefused := Update.not_admits_of_run hw hnone
    rw [hf] at hrefused
    exact absurd (hrefused.symm.trans hadm) Bool.false_ne_true
  · exact absurd ((Update.not_admits_of_run hw hu).symm.trans hadm) Bool.false_ne_true

end Runs

/-! ## 4. The calls of a run -/

section Runs

variable [Fintype ι]

/-- The invariant of the inherent API. -/
structure Unborrowed (s : Config w ι T) : Prop where
  exclusive : Exclusive s
  owned : ActiveOwned (fields s.stat) s.live
  paired : Paired (fields s.stat) s.live

theorem unborrowed_init (hw : 8 ≤ w) (d : T) : Unborrowed (init w ι d) where
  exclusive := exclusive_init hw d
  owned := activeOwned_init hw d
  paired := by
    intro h
    rw [live_init] at h
    cases h

variable [DecidableEq ι]

theorem unborrowed_step (hw : 8 ≤ w) {t : LockTrans w ι T} (h : step t.pre t.act = some t.post)
    (hL : ¬ LeaksWriter t) (hO : ¬ Overflows t) (hR : ¬ Reupgrades t) (hU : Unborrowed t.pre) :
    Unborrowed t.post := by
  have hE := hU.exclusive
  refine ⟨exclusive_step hw t h ⟨hO, hR⟩ hE, activeOwned_step hw h hO hL hE.bounded hU.owned, ?_⟩
  refine ledger_rule_mono hw h hU.paired (fun _ _ _ hx hl => hx.mono hl)
    (fun u _ ha hu => fits_of_bounded hw hE.bounded ha hu hO) ?_
  intro u n' ha hadm _ hl ht
  refine hU.paired.grant hE.bounded hE.alone hadm (fun e => ?_) hl ht
  exact no_writer_at_upgrade h hE (e ▸ ha) hR

/-- **A re-upgrade is always granted**, under the WRITER_ACTIVE of the guard it lent. -/
theorem grants_of_reupgrades (hw : 8 ≤ w) {t : LockTrans w ι T}
    (h : step t.pre t.act = some t.post) (hU : Unborrowed t.pre) (hR : Reupgrades t) :
    GrantsUnderWriter t := by
  obtain ⟨ha, j, hj⟩ := hR
  have hwr : 0 < t.pre.live .writer := live_pos (holds_of_slot hj rfl)
  have hup := live_pos (upgrading_slot h ha).1
  obtain ⟨hua, hc⟩ := hU.paired hwr hup
  refine ⟨hU.exclusive.alone.word hwr, .upgradeUpgradableToWrite, ha, rfl, ?_⟩
  rw [Update.isSome_run hw]
  simp [Update.admits, hua, hc]

/-- Nothing else that acquires is. -/
theorem reupgrades_of_grants (hw : 8 ≤ w) {t : LockTrans w ι T}
    (h : step t.pre t.act = some t.post) (hU : Unborrowed t.pre) (hG : GrantsUnderWriter t) :
    Reupgrades t := by
  obtain ⟨hW, u, ha, hacq, hsome⟩ := hG
  rw [Update.isSome_run hw] at hsome
  cases u with
  | tryRead => simp [Update.admits, hW] at hsome
  | tryWrite => simp [Update.admits, hW] at hsome
  | tryUpgradableRead => simp [Update.admits, hW] at hsome
  | upgradeUpgradableToWrite =>
      by_contra hR
      have := no_writer_at_upgrade h hU.exclusive ha hR
      have := hU.owned hW
      omega
  | _ => cases hacq

/-- **No call is granted under an active writer, exactly as long as nobody re-upgrades.** Every
    run of the inherent API without a leaked WriterGuard and without an overflow. -/
theorem no_call_granted_iff (hw : 8 ≤ w) {d : T} {ts : List (LockTrans w ι T)}
    {s : Config w ι T} (hr : Run step (init w ι d) ts s) (hL : ∀ t ∈ ts, ¬ LeaksWriter t)
    (hO : ∀ t ∈ ts, ¬ Overflows t) :
    (∀ t ∈ ts, ¬ GrantsUnderWriter t ∧ t.post.live .writer ≤ 1) ↔ ∀ t ∈ ts, ¬ Reupgrades t := by
  constructor
  · intro hG t ht hR
    have hstep : ∀ t : LockTrans w ι T, step t.pre t.act = some t.post →
        (¬ LeaksWriter t ∧ ¬ Overflows t ∧ ¬ GrantsUnderWriter t) → Unborrowed t.pre →
        Unborrowed t.post := by
      intro t h hC hU
      exact unborrowed_step hw h hC.1 hC.2.1 (fun hR => hC.2.2 (grants_of_reupgrades hw h hU hR)) hU
    obtain ⟨h, hU, -⟩ := Run.invariant_mem (unborrowed_init hw d) hstep hr
      (fun t ht => ⟨hL t ht, hO t ht, (hG t ht).1⟩) ht
    exact (hG t ht).1 (grants_of_reupgrades hw h hU hR)
  · intro hR t ht
    have hstep : ∀ t : LockTrans w ι T, step t.pre t.act = some t.post →
        (¬ LeaksWriter t ∧ ¬ Overflows t ∧ ¬ Reupgrades t) → Unborrowed t.pre →
        Unborrowed t.post := fun t h hC hU => unborrowed_step hw h hC.1 hC.2.1 hC.2.2 hU
    obtain ⟨h, hU, hU'⟩ := Run.invariant_mem (unborrowed_init hw d) hstep hr
      (fun t ht => ⟨hL t ht, hO t ht, hR t ht⟩) ht
    exact ⟨fun hG => hR t ht (reupgrades_of_grants hw h hU hG), hU'.exclusive.alone.alone⟩

/-- **What an active writer excludes**, in every run of the inherent API without an overflow:
    every state it reaches refuses all accesses under WRITER_ACTIVE, and has one writer at most,
    exactly when no step upgrades on a word with UPGRADE_ACTIVE and one reader. Of the calls the
    run itself makes, none is granted under WRITER_ACTIVE exactly as long as none is a
    re-upgrade, provided that no WriterGuard is leaked. -/
theorem no_grant_under_writer_iff (hw : 8 ≤ w) {d : T} {ts : List (LockTrans w ι T)}
    {s : Config w ι T} (hr : Run step (init w ι d) ts s) (hO : ∀ t ∈ ts, ¬ Overflows t) :
    ((∀ t ∈ ts, ShutUnderWriter t.post) ↔ ∀ t ∈ ts, ¬ UpgradesSole t) ∧
      ((∀ t ∈ ts, ¬ LeaksWriter t) →
        ((∀ t ∈ ts, ¬ GrantsUnderWriter t ∧ t.post.live .writer ≤ 1) ↔
          ∀ t ∈ ts, ¬ Reupgrades t)) := by
  refine ⟨⟨fun hshut t ht hS => ?_, shut_run hw hr hO⟩, fun hL => no_call_granted_iff hw hr hL hO⟩
  obtain ⟨hstep, -⟩ := hr.of_mem ht
  exact not_shut_after_sole hw hstep hS (hshut t ht)

/-- One `Upgrade`, two calls of `upgrade().may_cancel_with`: two live WriterGuards. -/
theorem second_writer_by_reupgrade :
    ∃ ts s, Run step (init 8 (Fin 3) ()) ts s ∧ (∀ t ∈ ts, ¬ LeaksWriter t) ∧
      (∀ t ∈ ts, ¬ Overflows t) ∧ (∃ t ∈ ts, GrantsUnderWriter t) ∧
      s.slots 1 = .writer (.pinned 0) ∧ s.slots 2 = .writer (.pinned 0) := by
  obtain ⟨ts, s, hr, hL, hO, ⟨t, ht, hW, ha, hu⟩, hs⟩ := Run.of_exec step (init 8 (Fin 3) ())
    (acquire .upgradableRead 0 ++ [.run 0 .upgrade, .run 0 (.startUpgrade .task),
      .attemptUpgrade 0 1, .run 0 (.startUpgrade .task), .attemptUpgrade 0 2])
    (fun ts s => (∀ t ∈ ts, ¬ LeaksWriter t) ∧ (∀ t ∈ ts, ¬ Overflows t) ∧
      (∃ t ∈ ts, (fields t.pre.stat).writerActive = true ∧
        updateAt t.pre t.act = some .upgradeUpgradableToWrite ∧
        (Update.upgradeUpgradableToWrite.run t.pre.stat).isSome = true) ∧
      s.slots 1 = .writer (.pinned 0) ∧ s.slots 2 = .writer (.pinned 0)) (by decide)
  exact ⟨ts, s, hr, hL, hO, ⟨t, ht, hW, _, ha, rfl, hu⟩, hs⟩

/-- The criteria at work: after an upgrade refused against a reader a writer has the lock, and
    every state shuts the others out; and an `Upgrade` is dropped under the WriterGuard it lent,
    without a call granted beside that. -/
theorem no_grant_under_writer_iff_dropped :
    (∃ ts s, Run step (init 8 (Fin 2) ()) ts s ∧ s.slots 1 = .writer .acquired ∧
      (∃ t ∈ ts, updateAt t.pre t.act = some .upgradeUpgradableToWrite) ∧
      ∀ t ∈ ts, ShutUnderWriter t.post) ∧
    ∃ ts s, Run step (init 8 (Fin 2) ()) ts s ∧ s.slots 1 = .writer (.pinned 0) ∧
      s.slots 0 = .idle ∧ ∀ t ∈ ts, ¬ GrantsUnderWriter t ∧ t.post.live .writer ≤ 1 := by
  obtain ⟨ts, s, hr, hO, hS, h1, hup⟩ := Run.of_exec step (init 8 (Fin 2) ())
    (acquire .upgradableRead 0 ++ acquire .read 1 ++ [.run 0 .tryUpgrade, .run 1 .drop,
      .run 0 .drop] ++ acquire .write 1 ++ acquire .upgradableRead 0)
    (fun ts s => (∀ t ∈ ts, ¬ Overflows t) ∧ (∀ t ∈ ts, ¬ UpgradesSole t) ∧
      s.slots 1 = .writer .acquired ∧
      ∃ t ∈ ts, updateAt t.pre t.act = some .upgradeUpgradableToWrite) (by decide)
  obtain ⟨ts', s', hr', hL', hO', hR', h1', h0'⟩ := Run.of_exec step (init 8 (Fin 2) ())
    (acquire .upgradableRead 0 ++ [.run 0 .upgrade, .run 0 (.startUpgrade .task),
      .attemptUpgrade 0 1, .run 0 .drop])
    (fun ts s => (∀ t ∈ ts, ¬ LeaksWriter t) ∧ (∀ t ∈ ts, ¬ Overflows t) ∧
      (∀ t ∈ ts, ¬ Reupgrades t) ∧ s.slots 1 = .writer (.pinned 0) ∧ s.slots 0 = .idle) (by decide)
  have hshut := (no_grant_under_writer_iff (by decide) hr hO).1.mpr hS
  have hcalls := ((no_grant_under_writer_iff (by decide) hr' hO').2 hL').mpr hR'
  exact ⟨⟨ts, s, hr, h1, hup, hshut⟩, ts', s', hr', h1', h0', hcalls⟩

end Runs

end AtomicSync.RwLock
