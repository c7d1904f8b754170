/-
  File:      AtomicSync/RwLock/Leaks.lean
  Subject:   What a leaked guard leaves behind in the word.

  `mem::forget` is safe, so the lock has to live with it. The word keeps what the guard put there,
  and nobody is left to take it back.

  * **`counter_account`** -- in EVERY run without an overflow the counter is the readers of both
    kinds and the units that were lost: leaked with a guard, or left by a refused release;
  * `lost_unit_shuts_writers_out` -- from the first lost unit on nobody is granted a WriterGuard;
  * `leaked_writer_shuts_everybody_out` -- behind a leaked WriterGuard nobody is granted anything;
  * `release_refused_iff` -- the one release a leak can make fail;
  * `exclusive_on_used_cell` -- a new lock on the cell of an old one (`SpinningRwLockBorrowed`)
    excludes as the old one did, whatever was left in the word.
-/
import AtomicSync.RwLock.Preference
import AtomicSync.RwLock.Reflection
import AtomicSync.RwLock.Reupgrade

namespace AtomicSync.RwLock

variable {w : ℕ} {ι T : Type}

/-! ## 1. Lost units -/

/-- The units of the counter the guards of a slot stand for. -/
def Slot.units (c : Slot ι) : ℕ := c.weight .reader + c.weight .upgradable

/-- The units a step loses: those of the guard it forgets, or of the guard whose release it is,
    where the word refuses the release. -/
def lost (t : LockTrans w ι T) : ℕ :=
  if t.act.forgets then (t.pre.slots (actor t.act)).units
  else match updateAt t.pre t.act with
    | some u => if (u.run t.pre.stat).isSome then 0 else u.takes .reader + u.takes .upgradable
    | none => 0

theorem lost_of_update {t : LockTrans w ι T} {u : Update} (ha : t.act.forgets = false)
    (hu : updateAt t.pre t.act = some u) :
    lost t = if (u.run t.pre.stat).isSome then 0 else u.takes .reader + u.takes .upgradable := by
  simp [lost, ha, hu]

theorem lost_of_silent {t : LockTrans w ι T} (ha : t.act.forgets = false)
    (hu : updateAt t.pre t.act = none) : lost t = 0 := by
  simp [lost, ha, hu]

theorem Slot.instr_forget {c : Slot ι} {ins : Instr ι} (h : c.instr .forget = some ins) :
    ins = .move .idle := by
  cases c with
  | reader => exact (Option.some.inj h).symm
  | upgradable => exact (Option.some.inj h).symm
  | upgrade => exact (Option.some.inj h).symm
  | writer o => exact (Option.some.inj h).symm
  | calling k m => cases k <;> cases h
  | _ => cases h

/-- What an update gains and loses is what it gives and takes of readers. -/
theorem Update.gives_sub_takes (u : Update) :
    u.gives .reader + u.gives .upgradable + u.loss =
      u.takes .reader + u.takes .upgradable + u.gain := by
  cases u <;> rfl

section Runs

variable [Fintype ι] [DecidableEq ι]

/-- The units the live guards stand for. -/
def Config.units (s : Config w ι T) : ℕ := s.live .reader + s.live .upgradable

/-- **The books of the counter**: a step changes it by what the live guards change, and by what the
    step loses. -/
theorem count_step (hw : 8 ≤ w) {t : LockTrans w ι T} (h : step t.pre t.act = some t.post)
    (hO : ¬ Overflows t) (hb : t.pre.Bounded) :
    (fields t.post.stat).count + t.pre.units =
      (fields t.pre.stat).count + t.post.units + lost t := by
  unfold Config.units
  cases hf : t.act.forgets with
  | true =>
      obtain ⟨i, ha⟩ : ∃ i, t.act = .run i .forget := by
        unfold Act.forgets at hf
        split at hf
        · next i e => exact ⟨i, e⟩
        · cases hf
      have hlost : lost t = (t.pre.slots i).units := by simp [lost, ha, Act.forgets, actor]
      rw [hlost]
      rw [ha] at h
      obtain ⟨ins, hi, e⟩ := Option.map_eq_some_iff.mp h
      obtain rfl := Slot.instr_forget hi
      have hr := live_put t.pre i .idle .reader
      have hu := live_put t.pre i .idle .upgradable
      rw [← e]
      show (fields t.pre.stat).count + _ =
        (fields t.pre.stat).count + ((t.pre.put i .idle).live .reader +
          (t.pre.put i .idle).live .upgradable) + _
      unfold Slot.units
      have hz : ∀ ρ, (Slot.idle : Slot ι).weight ρ = 0 := fun ρ => rfl
      rw [hz] at hr hu
      omega
  | false =>
      cases step_books h with
      | granted u ha hu hl _ =>
          rw [lost_of_update hf ha, hu]
          have hfit := fits_of_bounded hw hb ha hu hO
          have hr := hl .reader
          have hup := hl .upgradable
          have hgt := u.gives_sub_takes
          have hlo := hfit.1
          rw [Update.fields_run hw hu hfit, Update.effect_count]
          show _ = _ + 0
          omega
      | refused u ha hu hs hl =>
          rw [lost_of_update hf ha, hu, hs]
          have hr := hl .reader
          have hup := hl .upgradable
          show _ = _ + (u.takes .reader + u.takes .upgradable)
          omega
      | silent ha hs hl =>
          rw [lost_of_silent hf ha, hs, hl, hl]
          omega
      | forgotten i ha _ _ _ =>
          rw [ha] at hf
          cases hf

/-- **What the counter counts.** In every run without an overflow, whatever is leaked, re-used or
    refused in it: the ReaderGuards and UpgradableReaderGuards alive, and one unit for each that
    was leaked or whose release the word refused. -/
theorem counter_account (hw : 8 ≤ w) {d : T} {ts : List (LockTrans w ι T)} {s : Config w ι T}
    (hr : Run step (init w ι d) ts s) (hO : ∀ t ∈ ts, ¬ Overflows t) :
    (fields s.stat).count = s.live .reader + s.live .upgradable + (ts.map lost).sum := by
  have hsum := hr.earned (fun s => (fields s.stat).count - s.units) lost fun t ht => by
    obtain ⟨h, hb, hb'⟩ := Run.invariant_mem (bounded_init hw d) (bounded_step hw) hr hO ht
    have hstep := count_step hw h (hO t ht) hb
    have := hb.held
    have := hb'.held
    unfold Config.units at hstep ⊢
    omega
  have hinit : (fields (init w ι d).stat).count = 0 := by
    rw [show fields (init w ι d).stat = _ from fields_zero hw]
  have hb := (bounded_run hw hr hO).held
  simp only [hinit, Nat.zero_sub, Nat.zero_add] at hsum
  unfold Config.units at hsum
  omega

/-- The account at work: of two readers one leaks its guard, the other leaves. -/
theorem counter_account_leaked :
    ∃ ts s, Run step (init 8 (Fin 2) ()) ts s ∧ (ts.map lost).sum = 1 ∧
      (fields s.stat).count = s.live .reader + s.live .upgradable + (ts.map lost).sum := by
  obtain ⟨ts, s, hr, hO, hlost⟩ := Run.of_exec step (init 8 (Fin 2) ())
    (acquire .read 0 ++ acquire .read 1 ++
      ([.run 0 .forget, .run 1 .drop] : List (Act (Fin 2) Unit)))
    (fun ts _ => (∀ t ∈ ts, ¬ Overflows t) ∧ (ts.map lost).sum = 1) (by decide)
  exact ⟨ts, s, hr, hlost, counter_account (by decide) hr hO⟩

/-! ## 2. Nobody writes again -/

/-- The updates that yield a WriterGuard where there was none. -/
def Update.writes : Update → Bool
  | .tryWrite | .upgradeUpgradableToWrite => true
  | _ => false

/-- **From the first lost unit on nobody is granted a WriterGuard**: the counter never comes down to
    what `try_write` asks for, nor to what the upgrade of a live guard asks for. -/
theorem lost_unit_shuts_writers_out (hw : 8 ≤ w) {d : T} {ts us : List (LockTrans w ι T)}
    {s s' : Config w ι T} (hr : Run step (init w ι d) ts s) (hlost : 0 < (ts.map lost).sum)
    (hseg : Run step s us s') (hO : ∀ t ∈ us ++ ts, ¬ Overflows t) :
    ∀ t ∈ us, ∀ u, updateAt t.pre t.act = some u → u.writes = true → u.run t.pre.stat = none := by
  intro t ht u ha hu
  obtain ⟨h, vs, hvs, hsub⟩ := hseg.of_mem ht
  have hO' : ∀ x ∈ vs ++ ts, ¬ Overflows x := by
    intro x hx
    rcases List.mem_append.mp hx with hx | hx
    · exact hO x (List.mem_append_left _ (hsub x hx))
    · exact hO x (List.mem_append_right _ hx)
  have hcount := counter_account hw (hr.append hvs) hO'
  rw [List.map_append, List.sum_append] at hcount
  have hadm := Update.isSome_run hw u t.pre.stat
  cases hrun : u.run t.pre.stat with
  | none => rfl
  | some stat' =>
      rw [hrun] at hadm
      cases u with
      | tryWrite =>
          have hc : (fields t.pre.stat).count = 0 := by
            have := hadm.symm
            simp only [Update.admits, Option.isSome_some, Bool.and_eq_true,
              decide_eq_true_eq] at this
            exact this.1
          omega
      | upgradeUpgradableToWrite =>
          have hc : (fields t.pre.stat).count = 1 := by
            have := hadm.symm
            simp only [Update.admits, Option.isSome_some, Bool.and_eq_true,
              decide_eq_true_eq] at this
            exact this.2
          have := live_pos (upgrading_slot h ha).1
          omega
      | _ => cases hu

/-- The theorem at work: a leaked reader, and a `try_write` on a lock without a guard. -/
theorem lost_unit_shuts_writers_out_reader :
    ∃ us s', (∃ s, Run (step (ι := Fin 2) (T := Unit)) s us s' ∧ ∀ i, s.slots i = .idle) ∧
      ∃ t ∈ us, updateAt t.pre t.act = some .tryWrite ∧
        Update.tryWrite.run (w := 8) t.pre.stat = none := by
  obtain ⟨ts, s, us, s', hr, hseg, hlost, hO, hidle, t, ht, ha⟩ :=
    Run.of_exec_segment step (init 8 (Fin 2) ())
      (acquire .read 0 ++ ([.run 0 .forget] : List (Act (Fin 2) Unit)))
      (acquire .write 1)
      (fun ts s us _ => 0 < (ts.map lost).sum ∧ (∀ t ∈ us ++ ts, ¬ Overflows t) ∧
        (∀ i, s.slots i = .idle) ∧ ∃ t ∈ us, updateAt t.pre t.act = some .tryWrite) (by decide)
  exact ⟨us, s', ⟨s, hseg, hidle⟩, t, ht, ha,
    lost_unit_shuts_writers_out (by decide) hr hlost hseg hO t ht .tryWrite ha rfl⟩

/-! ## 3. Nobody gets in again -/

/-- **A lock shut for good**: WRITER_ACTIVE is set and no guard is alive. -/
structure Shut (s : Config w ι T) : Prop where
  bounded : s.Bounded
  active : (fields s.stat).writerActive = true
  empty : ∀ ρ, s.live ρ = 0

/-- A shut lock grants nothing but the queueing of a writer. -/
theorem Shut.granted {s s' : Config w ι T} {a : Act ι T} (hs : Shut s) (h : step s a = some s')
    {u : Update} {m : ℕ} (ha : updateAt s a = some u) (hadm : u.admits m (fields s.stat) = true) :
    u = .tryWriteQueue := by
  have ht : ∀ ρ, u.takes ρ = 0 := by
    intro ρ
    have := takes_le h ha ρ
    have := hs.empty ρ
    omega
  have hW := hs.active
  cases u with
  | tryWriteQueue => rfl
  | tryRead => simp [Update.admits, hW] at hadm
  | tryWrite => simp [Update.admits, hW] at hadm
  | tryUpgradableRead => simp [Update.admits, hW] at hadm
  | upgradeUpgradableToWrite =>
      have := live_pos (upgrading_slot h ha).1
      have := hs.empty .upgradable
      omega
  | writerGuardDrop => cases ht .writer
  | decreaseReaderCount => cases ht .reader
  | upgradableReadDrop => cases ht .upgradable
  | downgradeWriteToRead => cases ht .writer
  | downgradeWriteToUpgradable => cases ht .writer
  | downgradeUpgradableToRead => cases ht .upgradable

/-- **A live upgradable guard is the only one, and has UPGRADE_ACTIVE behind it.** -/
structure Backed (f : Fields) (n : Role → ℕ) : Prop where
  flag : 0 < n .upgradable → f.upgradeActive = true
  single : n .upgradable ≤ 1

namespace Backed

variable {f : Fields} {n n' : Role → ℕ} {u : Update} {m : ℕ}

theorem grant (hx : Backed f n) (ha : u.admits m f = true)
    (hdu : u = .downgradeWriteToUpgradable → n .upgradable = 0)
    (hl : ∀ ρ, n' ρ + u.takes ρ = n ρ + u.gives ρ) (ht : ∀ ρ, u.takes ρ ≤ n ρ) :
    Backed (u.effect f) n' := by
  obtain ⟨h1, h2⟩ := hx
  have lu := hl .upgradable
  have tu := ht .upgradable
  cases u <;>
    simp only [Update.admits, Update.takes, Update.gives] at ha lu tu <;>
    refine ⟨?_, ?_⟩ <;> grind [Update.effect]

theorem mono (hx : Backed f n) (hl : ∀ ρ, n' ρ ≤ n ρ) : Backed f n' := by
  obtain ⟨h1, h2⟩ := hx
  have lu := hl .upgradable
  exact ⟨fun h => h1 (by omega), by omega⟩

end Backed

/-- What the runs under the borrow rule keep, leaks or not. -/
structure Upright (s : Config w ι T) : Prop where
  exclusive : Exclusive s
  backed : Backed (fields s.stat) s.live

omit [DecidableEq ι] in
theorem upright_init (hw : 8 ≤ w) (d : T) : Upright (init w ι d) where
  exclusive := exclusive_init hw d
  backed := by
    constructor
    · intro h
      rw [live_init] at h
      cases h
    · rw [live_init]
      exact Nat.zero_le 1

theorem upright_step (hw : 8 ≤ w) (t : LockTrans w ι T) (h : step t.pre t.act = some t.post)
    (hC : ¬ BreaksBorrow t ∧ ¬ Overflows t ∧ ¬ DowngradesPinned t) (hs : Upright t.pre) :
    Upright t.post := by
  obtain ⟨hB, hO, hP⟩ := hC
  have hE := hs.exclusive
  refine ⟨exclusive_step hw t h ⟨hO, not_reupgrades hB⟩ hE, ?_⟩
  refine ledger_rule_mono hw h hs.backed (fun _ _ _ hx hl => hx.mono hl)
    (fun u _ ha hu => fits_of_bounded hw hE.bounded ha hu hO) ?_
  intro u n' ha hadm _ hl ht
  exact hs.backed.grant hadm (fun e => no_upgradable_at_downgrade hE (e ▸ ha) hP) hl ht

omit [DecidableEq ι] in
/-- **The releases an upright state admits**: all of them, except the downgrade of an upgradable
    guard under WRITER_ACTIVE. -/
theorem Upright.release {s : Config w ι T} (hs : Upright s) {u : Update} {m : ℕ}
    (hu : u.givesUp = true) (ht : ∀ ρ, u.takes ρ ≤ s.live ρ) :
    u.admits m (fields s.stat) = true ↔
      ¬ (u = .downgradeUpgradableToRead ∧ (fields s.stat).writerActive = true) := by
  have hheld := hs.exclusive.bounded.held
  have hword := hs.exclusive.alone.word
  cases u with
  | writerGuardDrop => exact iff_of_true (hword (ht .writer)) fun e => by cases e.1
  | downgradeWriteToRead => exact iff_of_true (hword (ht .writer)) fun e => by cases e.1
  | downgradeWriteToUpgradable => exact iff_of_true (hword (ht .writer)) fun e => by cases e.1
  | upgradableReadDrop => exact iff_of_true (hs.backed.flag (ht .upgradable)) fun e => by cases e.1
  | decreaseReaderCount =>
      have hr : 0 < s.live .reader := ht .reader
      exact iff_of_true (decide_eq_true (by omega)) fun e => by cases e.1
  | downgradeUpgradableToRead =>
      have hup : 0 < s.live .upgradable := ht .upgradable
      have hc : 0 < (fields s.stat).count := by omega
      simp [Update.admits, hs.backed.flag hup, hc]
  | _ => cases hu

/-- **The one release a leak can make fail.** In every run without an overflow, under the borrow
    rule and with no lent WriterGuard downgraded to upgradable, guards leaked at any point: every
    drop and every downgrade is granted to its holder, except `downgrade` on an
    UpgradableReaderGuard under WRITER_ACTIVE (an `unreachable!`); and there a WriterGuard was
    leaked before. -/
theorem release_refused_iff (hw : 8 ≤ w) {d : T} {ts : List (LockTrans w ι T)} {s : Config w ι T}
    (hr : Run step (init w ι d) ts s) (hB : ∀ t ∈ ts, ¬ BreaksBorrow t)
    (hO : ∀ t ∈ ts, ¬ Overflows t) (hP : ∀ t ∈ ts, ¬ DowngradesPinned t) {i : ι} {a : Action}
    {u : Update} {g r : Slot ι} (hi : (s.slots i).instr a = some (.update u g r))
    (hu : u.givesUp = true) (hlent : ¬ Lent s i) :
    (u.run s.stat = none ↔
      u = .downgradeUpgradableToRead ∧ (fields s.stat).writerActive = true) ∧
    (u.run s.stat = none → ∃ t ∈ ts, LeaksWriter t) := by
  have hs : Upright s := hr.invariant (upright_init hw d) (upright_step hw)
    fun t ht => ⟨hB t ht, hO t ht, hP t ht⟩
  have ht : ∀ ρ, u.takes ρ ≤ s.live ρ := by
    intro ρ
    have h1 := (Slot.instr_update_weight hi ρ).2
    have h2 : (s.slots i).weight ρ ≤ s.live ρ := Population.le_total _ s.slots i
    omega
  have hiff : u.run s.stat = none ↔
      u = .downgradeUpgradableToRead ∧ (fields s.stat).writerActive = true := by
    rw [← Option.not_isSome_iff_eq_none, Update.isSome_run hw, hs.release hu ht, not_not]
  refine ⟨hiff, fun hnone => ?_⟩
  obtain ⟨rfl, hW⟩ := hiff.mp hnone
  -- with no writer leaked, WRITER_ACTIVE has a live writer behind it: not beside this guard
  have hwr := no_writer_at_downgrade hs.exclusive hi hlent
  by_contra hno
  have hL : ∀ t ∈ ts, ¬ LeaksWriter t := fun t ht hl => hno ⟨t, ht, hl⟩
  obtain ⟨-, howned⟩ := hr.invariant
    (I := fun x : Config w ι T => x.Bounded ∧ ActiveOwned (fields x.stat) x.live)
    (C := fun t => ¬ Overflows t ∧ ¬ LeaksWriter t)
    ⟨bounded_init hw d, activeOwned_init hw d⟩
    (fun t h hC hx => ⟨bounded_step hw t h hC.1 hx.1, activeOwned_step hw h hC.1 hC.2 hx.1 hx.2⟩)
    fun t ht => ⟨hO t ht, hL t ht⟩
  have := howned hW
  omega

/-- The criterion at work: an `Upgrade` lends its WriterGuard, the guard is leaked, and the
    downgrade of what the `Upgrade` still holds runs into its `unreachable!`. -/
theorem release_refused_after_leak :
    ∃ ts s, Run step (init 8 (Fin 2) ()) ts s ∧ s.slots 0 = .upgradable ∧
      Update.downgradeUpgradableToRead.run s.stat = none ∧ ∃ t ∈ ts, LeaksWriter t := by
  obtain ⟨ts, s, hr, hB, hO, hP, h0, hlent, hW⟩ := Run.of_exec step (init 8 (Fin 2) ())
    (acquire .upgradableRead 0 ++ ([.run 0 .upgrade, .run 0 (.startUpgrade .once),
      .attemptUpgrade 0 1, .run 1 .forget, .run 0 .intoGuard] : List (Act (Fin 2) Unit)))
    (fun ts s => (∀ t ∈ ts, ¬ BreaksBorrow t) ∧ (∀ t ∈ ts, ¬ Overflows t) ∧
      (∀ t ∈ ts, ¬ DowngradesPinned t) ∧ s.slots 0 = .upgradable ∧ ¬ Lent s 0 ∧
      (fields s.stat).writerActive = true) (by decide)
  have hi : (s.slots 0).instr .downgrade =
      some (.update .downgradeUpgradableToRead .reader .idle) := by
    rw [h0]
    rfl
  obtain ⟨hiff, hleak⟩ := release_refused_iff (by decide) hr hB hO hP hi rfl hlent
  have hnone := hiff.mpr ⟨rfl, hW⟩
  exact ⟨ts, s, hr, h0, hnone, hleak hnone⟩

/-! ## 5. A new lock on a used cell -/

/-- `SpinningRwLock::new(d, cell)` on the cell of a lock that is gone: its guards are dropped or
    leaked, its word is in the cell. -/
def Config.renew (s : Config w ι T) (d : T) : Config w ι T := ⟨⟨s.stat, d⟩, fun _ => .idle⟩

/-- **The locks on one cell, one after the other**, each used without an overflow and without a
    re-upgrade. -/
inductive Generations (w : ℕ) (ι : Type) {T : Type} [Fintype ι] [DecidableEq ι] :
    Config w ι T → Prop where
  | first (d : T) : Generations w ι (init w ι d)
  | next {s s' : Config w ι T} {a : Act ι T} (h : Generations w ι s) (hs : step s a = some s')
      (hO : ¬ Overflows ⟨s, a, s'⟩) (hR : ¬ Reupgrades ⟨s, a, s'⟩) : Generations w ι s'
  | renew {s : Config w ι T} (d : T) (h : Generations w ι s) : Generations w ι (s.renew d)

/-- A generation is used by a run. -/
theorem Generations.run {s s' : Config w ι T} {ts : List (LockTrans w ι T)}
    (h : Generations w ι s) (hr : Run step s ts s')
    (hC : ∀ t ∈ ts, ¬ Overflows t ∧ ¬ Reupgrades t) : Generations w ι s' := by
  induction hr with
  | start => exact h
  | next _ hs ih =>
      obtain ⟨hO, hR⟩ := hC _ List.mem_cons_self
      exact (ih fun t ht => hC t (List.mem_cons_of_mem _ ht)).next hs hO hR

omit [DecidableEq ι] in
/-- What the old lock left in the word bounds no guard of the new one. -/
theorem exclusive_renew {s : Config w ι T} (hE : Exclusive s) (d : T) : Exclusive (s.renew d) where
  bounded := hE.bounded.mono fun ρ => by
    rw [show (s.renew d).live ρ = 0 from live_init (w := w) d ρ]
    exact Nat.zero_le _
  alone := hE.alone.mono fun ρ => by
    rw [show (s.renew d).live ρ = 0 from live_init (w := w) d ρ]
    exact Nat.zero_le _
  source := by
    intro j v h
    cases h

/-- **A lock excludes on a used cell as on a new one**, whatever its predecessors leaked: a live
    WriterGuard is the only one, no ReaderGuard is alive beside it, and no UpgradableReaderGuard
    but the one it was upgraded from. -/
theorem exclusive_on_used_cell (hw : 8 ≤ w) {s : Config w ι T} (h : Generations w ι s) {j : ι}
    (hj : (s.slots j).holds .writer = true) :
    (∀ i, (s.slots i).holds .writer = true → i = j) ∧ (∀ i, s.slots i ≠ .reader) ∧
      ∀ v, (s.slots v).holds .upgradable = true → (s.slots j).upgradedFrom j = some v := by
  refine Exclusive.excludes ?_ hj
  clear hj
  induction h with
  | first d => exact exclusive_init hw d
  | next h hs hO hR ih => exact exclusive_step hw ⟨_, _, _⟩ hs ⟨hO, hR⟩ ih
  | renew d h ih => exact exclusive_renew ih d

/-- The theorem at work: the old lock leaves WRITER_QUEUED behind, the new one has a writer. -/
theorem exclusive_on_queued_cell :
    ∃ s, Generations 8 (Fin 2) (T := Unit) s ∧ s.stat = 0xc0#8 ∧ s.slots 0 = .writer .acquired ∧
      ∀ i, s.slots i ≠ .reader := by
  obtain ⟨ts, s, hr, hC, hgo⟩ := Run.of_exec step (init 8 (Fin 2) ())
    (acquire .read 0 ++ acquire .write 1 ++
      ([.run 1 .queue, .run 0 .drop] : List (Act (Fin 2) Unit)))
    (fun ts s => (∀ t ∈ ts, ¬ Overflows t ∧ ¬ Reupgrades t) ∧
      (exec step (s.renew ()) [] (acquire .write 0)).any fun r =>
        decide ((∀ t ∈ r.1, ¬ Overflows t ∧ ¬ Reupgrades t) ∧ r.2.stat = 0xc0#8 ∧
          r.2.slots 0 = .writer .acquired)) (by decide)
  obtain ⟨us, s', hr', hC', hstat, h0⟩ := Run.of_exec step (s.renew ()) (acquire .write 0)
    (fun us s' => (∀ t ∈ us, ¬ Overflows t ∧ ¬ Reupgrades t) ∧ s'.stat = 0xc0#8 ∧
      s'.slots 0 = .writer .acquired) hgo
  have hgen := (Generations.renew () ((Generations.first ()).run hr hC)).run hr' hC'
  have hj : (s'.slots 0).holds .writer = true := holds_of_slot h0 rfl
  exact ⟨s', hgen, hstat, h0, (exclusive_on_used_cell (by decide) hgen hj).2.1⟩

end Runs

end AtomicSync.RwLock
