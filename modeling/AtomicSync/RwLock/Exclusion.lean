/-
  File:      AtomicSync/RwLock/Exclusion.lean
  Subject:   Mutual exclusion of the reader-writer lock.

  `try_write` never looks at UPGRADE_ACTIVE and the upgrade never looks at WRITER_ACTIVE, so
  that writers exclude each other is a fact about guards, not about one word: `Exclusive` says
  that a live WriterGuard has WRITER_ACTIVE behind it, is the only one, has no reader beside it,
  and that the only upgradable guard alive beside it is the one it was upgraded from. Together
  with the counter's bounds (`Bounded`) it is kept by every step but one: an upgrade attempted
  on an `Upgrade` whose WriterGuard is still alive (`Reupgrades`).

  * `exclusive_run` -- no overflow and no re-upgrade, then `Exclusive` at the end of every run,
    leaked guards and refused releases included;
  * **`mutual_exclusion`** -- for the runs that respect the borrow.

  The inherent `UpgradeTask::may_cancel_with` does not enforce the borrow: Reupgrade.lean.
-/
import AtomicSync.RwLock.Bounds

namespace AtomicSync.RwLock

variable {w : ℕ} {ι T : Type}

/-! ## 1. Rows of the step table -/

/-- The upgradable guard the WriterGuard in slot `j` was upgraded from, while both are alive. -/
def Slot.upgradedFrom (j : ι) : Slot ι → Option ι
  | .consuming => some j
  | .writer (.pinned u) => some u
  | _ => none

theorem Slot.instr_move_writer {c c' : Slot ι} {a : Action} (h : c.instr a = some (.move c')) :
    c'.holds .writer = false := by
  cases c <;> cases a <;> simp only [Slot.instr, reduceCtorEq, Option.some.injEq] at h
  case calling.attempt k m => cases k <;> cases h
  case polling.poll k b => cases h; cases b <;> rfl
  case upgradePolling.poll b => cases h; cases b <;> rfl
  all_goals first
    | (cases h; rfl)
    | cases h

theorem Slot.instr_update_writer {c g r : Slot ι} {a : Action} {u : Update}
    (h : c.instr a = some (.update u g r)) (hg : g.holds .writer = true) :
    u = .tryWrite ∧ g = .writer .acquired ∨
    u = .upgradeUpgradableToWrite ∧ c = .upgradable ∧ g = .consuming ∨
    u = .upgradableReadDrop ∧ c = .consuming ∧ g = .writer .consumed := by
  cases c <;> cases a <;> simp only [Slot.instr, reduceCtorEq, Option.some.injEq] at h
  case calling.attempt k m =>
    cases k <;> cases h <;> first
      | exact Or.inl ⟨rfl, rfl⟩
      | cases hg
  case refused.queue m => cases h; cases m <;> cases hg
  all_goals cases h; first
    | exact Or.inr (Or.inl ⟨rfl, rfl, rfl⟩)
    | exact Or.inr (Or.inr ⟨rfl, rfl, rfl⟩)
    | cases hg

theorem Slot.instr_refused_writer {c g r : Slot ι} {a : Action} {u : Update}
    (h : c.instr a = some (.update u g r)) (hr : r.holds .writer = true) :
    c = .consuming ∧ r = .writer .consumed := by
  cases c <;> cases a <;> simp only [Slot.instr, reduceCtorEq, Option.some.injEq] at h
  case calling.attempt k m => cases k <;> cases h <;> cases m <;> cases hr
  case refused.queue m => cases h; cases m <;> cases hr
  all_goals cases h; first
    | exact ⟨rfl, rfl⟩
    | cases hr

/-- A row that makes an upgradable guard where none was. -/
theorem Slot.instr_update_upgradable {c g r : Slot ι} {a : Action} {u : Update}
    (h : c.instr a = some (.update u g r)) (hg : g.holds .upgradable = true)
    (hc : c.holds .upgradable = false) :
    u = .tryUpgradableRead ∨ u = .downgradeWriteToUpgradable ∧ c.holds .writer = true := by
  have hp := (Slot.instr_update_weight h .upgradable).1
  have hcw : c.weight .upgradable = 0 := by
    unfold Slot.weight
    rw [hc]
    rfl
  rw [Slot.weight_of_holds hg, hcw] at hp
  cases u <;> simp only [Update.gives, Update.takes] at hp <;> try omega
  · exact Or.inl rfl
  · refine Or.inr ⟨rfl, Slot.weight_pos.mp ?_⟩
    have hq := (Slot.instr_update_weight h .writer).2
    simp only [Update.takes] at hq
    omega

/-- What a slot holds when a row of it upgrades or downgrades. -/
theorem Slot.instr_from {c g r : Slot ι} {a : Action} {u : Update}
    (h : c.instr a = some (.update u g r)) :
    (u = .upgradeUpgradableToWrite → c = .upgradable) ∧
      (u = .downgradeUpgradableToRead → c = .upgradable) ∧
      (u = .downgradeWriteToUpgradable → ∃ o, c = .writer o ∧ g = .upgradable) := by
  cases c <;> cases a <;> simp only [Slot.instr, reduceCtorEq, Option.some.injEq] at h
  case calling.attempt k m =>
    refine ⟨?_, ?_, ?_⟩ <;> rintro rfl <;> cases k <;> cases h
  case upgradable.tryUpgrade =>
    cases h
    exact ⟨fun _ => rfl, fun _ => rfl, fun e => by cases e⟩
  case upgradable.downgrade =>
    cases h
    exact ⟨fun _ => rfl, fun _ => rfl, fun e => by cases e⟩
  case writer.downgradeToUpgradable o =>
    cases h
    exact ⟨(fun e => by cases e), (fun e => by cases e), fun _ => ⟨o, rfl, rfl⟩⟩
  all_goals refine ⟨?_, ?_, ?_⟩ <;> rintro rfl <;> cases h

/-- A refused row makes no guard. -/
theorem Slot.instr_refused_holds {c g r : Slot ι} {a : Action} {u : Update}
    (h : c.instr a = some (.update u g r)) {ρ : Role} (hr : r.holds ρ = true) :
    c.holds ρ = true := by
  have hp := (Slot.instr_update_weight h ρ).2
  rw [Slot.weight_of_holds hr] at hp
  exact Slot.weight_pos.mp (by omega)

theorem Slot.instr_move_holds {c c' : Slot ι} {a : Action} (h : c.instr a = some (.move c'))
    {ρ : Role} (hc : c'.holds ρ = true) : c.holds ρ = true := by
  rcases Slot.instr_move_weight h with hw | ⟨-, rfl⟩
  · refine Slot.weight_pos.mp ?_
    rw [← hw ρ, Slot.weight_of_holds hc]
    exact Nat.one_pos
  · cases hc

/-- The slot that attempts an upgrade holds its guard, not yet upgraded. -/
theorem upgrading_slot [DecidableEq ι] {s s' : Config w ι T} {a : Act ι T}
    (h : step s a = some s') (hu : updateAt s a = some .upgradeUpgradableToWrite) :
    (s.slots (actor a)).holds .upgradable = true ∧ s.slots (actor a) ≠ .consuming := by
  rcases instr_of_updateAt hu with ⟨i, b, g, r, rfl, hi⟩ | ⟨i, j, rfl, -⟩
  · show (s.slots i).holds .upgradable = true ∧ s.slots i ≠ .consuming
    rw [(Slot.instr_from hi).1 rfl]
    exact ⟨rfl, nofun⟩
  · obtain ⟨m, hi⟩ := upgrading_of_step h
    show (s.slots i).holds .upgradable = true ∧ s.slots i ≠ .consuming
    rw [hi]
    exact ⟨rfl, nofun⟩

/-! ## 2. The counts -/

/-- A live WriterGuard has WRITER_ACTIVE behind it, is the only one and has no reader beside
    it. -/
structure WriterAlone (f : Fields) (n : Role → ℕ) : Prop where
  word : 0 < n .writer → f.writerActive = true
  alone : n .writer ≤ 1
  readers : 0 < n .writer → n .reader = 0

namespace WriterAlone

variable {f : Fields} {n n' : Role → ℕ} {u : Update} {m : ℕ}

/-- A granted update keeps the writer alone, if no writer is alive when an upgrade is granted. -/
theorem grant (hx : WriterAlone f n) (hb : Bounded f n) (ha : u.admits m f = true)
    (hup : u = .upgradeUpgradableToWrite → n .writer = 0)
    (hl : ∀ ρ, n' ρ + u.takes ρ = n ρ + u.gives ρ) (ht : ∀ ρ, u.takes ρ ≤ n ρ) :
    WriterAlone (u.effect f) n' := by
  obtain ⟨h1, h2, h3⟩ := hx
  obtain ⟨b1, b2, -⟩ := hb
  have lr := hl .reader
  have lw := hl .writer
  have tr := ht .reader
  have tw := ht .writer
  cases u <;>
    simp only [Update.admits, Update.takes, Update.gives] at ha lr lw tr tw <;>
    exact ⟨by simp only [Update.effect]; grind, by grind, by grind⟩

theorem mono (hx : WriterAlone f n) (hl : ∀ ρ, n' ρ ≤ n ρ) : WriterAlone f n' := by
  obtain ⟨h1, h2, h3⟩ := hx
  have lr := hl .reader
  have lw := hl .writer
  exact ⟨fun h => h1 (by omega), by omega, fun h => by have := h3 (by omega); omega⟩

end WriterAlone

/-! ## 3. The exclusion invariant -/

section Invariant

/-- Every upgradable guard alive beside a WriterGuard is the one that writer came from. -/
def Sourced (slots : ι → Slot ι) : Prop :=
  ∀ j v, (slots j).holds .writer = true → (slots v).holds .upgradable = true →
    (slots j).upgradedFrom j = some v

variable [Fintype ι]

/-- **The exclusion invariant**: the counter's bounds, the writer alone, and its source. -/
structure Exclusive (s : Config w ι T) : Prop where
  bounded : s.Bounded
  alone : WriterAlone (fields s.stat) s.live
  source : Sourced s.slots

theorem exclusive_init (hw : 8 ≤ w) (d : T) : Exclusive (init w ι d) where
  bounded := bounded_init hw d
  alone := by
    constructor
    · intro h
      rw [live_init] at h
      cases h
    · rw [live_init]
      exact Nat.zero_le 1
    · intro _
      exact live_init d .reader
  source := by
    intro _ _ h
    cases h

variable [DecidableEq ι]

omit [Fintype ι] in
/-- One slot changes to contents that make no guard; a writer among them was its own source. -/
theorem sourced_put {s : Config w ι T} (hs : Sourced s.slots) {i : ι} {c : Slot ι}
    (hc : ∀ ρ, c.holds ρ = true → (s.slots i).holds ρ = true)
    (hw : c.holds .writer = true →
      (s.slots i).upgradedFrom i = some i ∧ c.holds .upgradable = false) :
    Sourced (s.put i c).slots := by
  intro j v hj hv
  by_cases hji : j = i
  · subst hji
    rw [Config.put_slots_self] at hj
    obtain ⟨hsrc, hup⟩ := hw hj
    by_cases hvi : v = j
    · subst hvi
      rw [Config.put_slots_self, hup] at hv
      cases hv
    · rw [Config.put_slots_of_ne s hvi] at hv
      have := hs j v (hc _ hj) hv
      rw [hsrc] at this
      exact absurd (Option.some.inj this).symm hvi
  · rw [Config.put_slots_of_ne s hji] at hj ⊢
    by_cases hvi : v = i
    · subst hvi
      rw [Config.put_slots_self] at hv
      exact hs j v hj (hc _ hv)
    · rw [Config.put_slots_of_ne s hvi] at hv
      exact hs j v hj hv

omit [DecidableEq ι] in
/-- **No writer is alive beside an upgradable guard that has lent none.** -/
theorem no_writer_beside {s : Config w ι T} (hE : Exclusive s) {i : ι}
    (hi : (s.slots i).holds .upgradable = true) (hc : s.slots i ≠ .consuming)
    (hL : ¬ Lent s i) : s.live .writer = 0 := by
  by_contra hpos
  obtain ⟨j, hj⟩ := exists_of_live_pos (Nat.pos_of_ne_zero hpos)
  have hsrc := hE.source j i hj hi
  cases hsj : s.slots j with
  | consuming =>
      rw [hsj] at hsrc
      have hji : j = i := Option.some.inj hsrc
      exact hc (hji ▸ hsj)
  | writer o =>
      rw [hsj] at hsrc
      cases o with
      | pinned u =>
          have hui : u = i := Option.some.inj hsrc
          exact hL ⟨j, hui ▸ hsj⟩
      | acquired => cases hsrc
      | consumed => cases hsrc
  | _ => rw [hsj] at hsrc; cases hsrc

/-- **No writer is alive where an upgrade is attempted** that is no re-upgrade. -/
theorem no_writer_at_upgrade {t : LockTrans w ι T} (h : step t.pre t.act = some t.post)
    (hE : Exclusive t.pre) (ha : updateAt t.pre t.act = some .upgradeUpgradableToWrite)
    (hR : ¬ Reupgrades t) : t.pre.live .writer = 0 := by
  obtain ⟨hup, hne⟩ := upgrading_slot h ha
  exact no_writer_beside hE hup hne fun hL => hR ⟨ha, hL⟩

/-- A writer comes into the slot of a granted update: whatever upgradable guard is alive
    beside it was its own. -/
theorem sourced_granted_self {s : Config w ι T} (hE : Exclusive s) {i : ι} {a : Action}
    {u : Update} {g r : Slot ι} {m : ℕ} (hi : (s.slots i).instr a = some (.update u g r))
    (ha : u.admits m (fields s.stat) = true) (hg : g.holds .writer = true) {v : ι}
    (hv : ((s.put i g).slots v).holds .upgradable = true) : g.upgradedFrom i = some v := by
  have hother : v ≠ i → (s.slots v).holds .upgradable = true := by
    intro hvi
    rwa [Config.put_slots_of_ne s hvi] at hv
  have hsame : v = i → g.holds .upgradable = true := by
    intro hvi
    rwa [hvi, Config.put_slots_self] at hv
  have hheld := hE.bounded.held
  rcases Slot.instr_update_writer hi hg with ⟨rfl, rfl⟩ | ⟨rfl, hc, rfl⟩ | ⟨rfl, hc, rfl⟩
  · -- try_write: the counter is zero, nobody holds an upgradable guard
    have hvi : v ≠ i := fun e => by cases hsame e
    have hlive := live_pos (hother hvi)
    simp only [Update.admits, Bool.and_eq_true, decide_eq_true_eq] at ha
    omega
  · -- the consuming upgrade: the counter is one, the moved guard is the only one
    by_cases hvi : v = i
    · rw [hvi]
      rfl
    · have hself : (s.slots i).holds .upgradable = true := holds_of_slot hc rfl
      have hlive := live_two hvi (hother hvi) hself
      simp only [Update.admits, Bool.and_eq_true, decide_eq_true_eq] at ha
      omega
  · -- the moved guard is dropped: it was the writer's source, so no other one is alive
    have hvi : v ≠ i := fun e => by cases hsame e
    have hw : (s.slots i).holds .writer = true := holds_of_slot hc rfl
    have hsrc := hE.source i v hw (hother hvi)
    rw [hc] at hsrc
    exact absurd (Option.some.inj hsrc).symm hvi

/-- An upgradable guard comes into the slot of a granted update while a writer is alive in
    another: the slot had it before. -/
theorem upgradable_granted_other {s : Config w ι T} (hE : Exclusive s) {i j : ι} {a : Action}
    {u : Update} {g r : Slot ι} {m : ℕ} (hi : (s.slots i).instr a = some (.update u g r))
    (ha : u.admits m (fields s.stat) = true) (hg : g.holds .upgradable = true) (hji : j ≠ i)
    (hj : (s.slots j).holds .writer = true) : (s.slots i).holds .upgradable = true := by
  by_contra hn
  have hW := hE.alone.word (live_pos hj)
  rcases Slot.instr_update_upgradable hi hg (eq_false_of_ne_true hn) with rfl | ⟨rfl, hwi⟩
  · -- try_upgradable_read tests WRITER_ACTIVE
    simp [Update.admits, hW] at ha
  · have := live_two hji hj hwi
    have := hE.alone.alone
    omega

/-- A granted update in one slot keeps the sources. -/
theorem sourced_granted {s : Config w ι T} (hE : Exclusive s) {i : ι} {a : Action}
    {u : Update} {g r : Slot ι} {m : ℕ} (hi : (s.slots i).instr a = some (.update u g r))
    (ha : u.admits m (fields s.stat) = true) : Sourced (s.put i g).slots := by
  intro j v hj hv
  by_cases hji : j = i
  · subst hji
    rw [Config.put_slots_self] at hj ⊢
    exact sourced_granted_self hE hi ha hj hv
  · rw [Config.put_slots_of_ne s hji] at hj ⊢
    refine hE.source j v hj ?_
    by_cases hvi : v = i
    · subst hvi
      rw [Config.put_slots_self] at hv
      exact upgradable_granted_other hE hi ha hv hji hj
    · rwa [Config.put_slots_of_ne s hvi] at hv

/-- The granted pinned upgrade: the new WriterGuard is the only one, its `Upgrade` the only
    upgradable guard. -/
theorem sourced_lent {s : Config w ι T} (hE : Exclusive s) {i k : ι} {m : ℕ}
    (hi : (s.slots i).holds .upgradable = true) (h0 : s.live .writer = 0)
    (ha : Update.upgradeUpgradableToWrite.admits m (fields s.stat) = true) :
    Sourced ((s.put i .upgrade).put k (.writer (.pinned i))).slots := by
  intro j v hj hv
  by_cases hjk : j = k
  · subst hjk
    rw [Config.put_slots_self]
    have hvj : v ≠ j := by
      rintro rfl
      rw [Config.put_slots_self] at hv
      cases hv
    by_cases hvi : v = i
    · rw [hvi]
      rfl
    · rw [Config.put_slots_of_ne _ hvj, Config.put_slots_of_ne s hvi] at hv
      have hlive := live_two hvi hv hi
      have hheld := hE.bounded.held
      simp only [Update.admits, Bool.and_eq_true, decide_eq_true_eq] at ha
      omega
  · rw [Config.put_slots_of_ne _ hjk] at hj
    by_cases hji : j = i
    · subst hji
      rw [Config.put_slots_self] at hj
      cases hj
    · rw [Config.put_slots_of_ne s hji] at hj
      have := live_pos hj
      omega

/-- **Every step but a re-upgrade keeps the sources.** -/
theorem sourced_step (hw : 8 ≤ w) {t : LockTrans w ι T} (h : step t.pre t.act = some t.post)
    (hR : ¬ Reupgrades t) (hE : Exclusive t.pre) : Sourced t.post.slots := by
  obtain ⟨s, a, s'⟩ := t
  have h0 := no_writer_at_upgrade h hE
  replace h : step s a = some s' := h
  replace hE : Exclusive s := hE
  cases step_cases h with
  | move i b c hi =>
      refine sourced_put hE.source (fun ρ hc => Slot.instr_move_holds hi hc) fun hc => ?_
      rw [Slot.instr_move_writer hi] at hc
      cases hc
  | granted i b u g r stat' hi hu => exact sourced_granted hE hi (Update.admits_of_run hw hu)
  | refused i b u g r hi hu =>
      refine sourced_put hE.source (fun ρ hr => Slot.instr_refused_holds hi hr) fun hr => ?_
      obtain ⟨hc, rfl⟩ := Slot.instr_refused_writer hi hr
      rw [hc]
      exact ⟨rfl, rfl⟩
  | lent i k m stat' hi hk hu =>
      have hup : (s.slots i).holds .upgradable = true := holds_of_slot hi rfl
      exact sourced_lent hE hup (h0 rfl hR) (Update.admits_of_run hw hu)
  | notLent i k m hi hk hu =>
      refine sourced_put hE.source (fun ρ hr => ?_) fun hr => ?_
      · rw [hi]
        cases m <;> exact hr
      · cases m <;> cases hr
  | store i o v hi => exact hE.source

/-! ## 4. Along a run -/

/-- **The step lemma**: neither an overflow nor a re-upgrade, and exclusion is kept. -/
theorem exclusive_step (hw : 8 ≤ w) (t : LockTrans w ι T) (h : step t.pre t.act = some t.post)
    (hC : ¬ Overflows t ∧ ¬ Reupgrades t) (hE : Exclusive t.pre) : Exclusive t.post := by
  obtain ⟨hO, hR⟩ := hC
  refine ⟨bounded_step hw t h hO hE.bounded, ?_, sourced_step hw h hR hE⟩
  refine ledger_rule_mono hw h hE.alone (fun _ _ _ hx hl => hx.mono hl)
    (fun u _ ha hu => fits_of_bounded hw hE.bounded ha hu hO) ?_
  intro u n' ha hadm _ hl ht
  refine hE.alone.grant hE.bounded hadm (fun e => ?_) hl ht
  exact no_writer_at_upgrade h hE (e ▸ ha) hR

/-- **The run lemma.** -/
theorem exclusive_run (hw : 8 ≤ w) {d : T} {ts : List (LockTrans w ι T)} {s : Config w ι T}
    (hr : Run step (init w ι d) ts s) (hO : ∀ t ∈ ts, ¬ Overflows t)
    (hR : ∀ t ∈ ts, ¬ Reupgrades t) : Exclusive s :=
  hr.invariant (exclusive_init hw d) (exclusive_step hw) fun t ht => ⟨hO t ht, hR t ht⟩

omit [DecidableEq ι] in
/-- **What the invariant excludes**: beside a live WriterGuard there is no other, no ReaderGuard,
    and no UpgradableReaderGuard but the one it was upgraded from. -/
theorem Exclusive.excludes {s : Config w ι T} (hE : Exclusive s) {j : ι}
    (hj : (s.slots j).holds .writer = true) :
    (∀ i, (s.slots i).holds .writer = true → i = j) ∧ (∀ i, s.slots i ≠ .reader) ∧
      ∀ v, (s.slots v).holds .upgradable = true → (s.slots j).upgradedFrom j = some v := by
  classical
  have halone := hE.alone.alone
  refine ⟨fun i hi => ?_, fun i hi => ?_, fun v hv => hE.source j v hj hv⟩
  · by_contra hij
    have := live_two hij hi hj
    omega
  · have := live_pos (holds_of_slot (ρ := Role.reader) hi rfl)
    have := hE.alone.readers (live_pos hj)
    omega

/-- **Mutual exclusion**: at the end of every run in which a WriterGuard lent by an `Upgrade`
    borrows it for as long as it lives, a live WriterGuard is the only one, no ReaderGuard is
    alive, and the only UpgradableReaderGuard that may be is the one it was upgraded from.
    Guards may be leaked at any point; no `try_upgradable_read` overflows the counter. -/
theorem mutual_exclusion (hw : 8 ≤ w) {d : T} {ts : List (LockTrans w ι T)} {s : Config w ι T}
    (hr : Run step (init w ι d) ts s) (hB : ∀ t ∈ ts, ¬ BreaksBorrow t)
    (hO : ∀ t ∈ ts, ¬ Overflows t) {j : ι} (hj : (s.slots j).holds .writer = true) :
    (∀ i, (s.slots i).holds .writer = true → i = j) ∧ (∀ i, s.slots i ≠ .reader) ∧
      ∀ v, (s.slots v).holds .upgradable = true → (s.slots j).upgradedFrom j = some v := by
  have hE := exclusive_run hw hr hO fun t ht => not_reupgrades (hB t ht)
  exact hE.excludes hj

/-- The theorem at work: an `Upgrade` and the WriterGuard it lent, a second writer waiting. -/
theorem mutual_exclusion_pinned :
    ∃ ts s, Run step (init 8 (Fin 3) ()) ts s ∧ s.slots 1 = .writer (.pinned 0) ∧
      (∀ i, (s.slots i).holds .writer = true → i = 1) ∧ ∀ i, s.slots i ≠ .reader := by
  obtain ⟨ts, s, hr, hB, hO, hs⟩ := Run.of_exec step (init 8 (Fin 3) ())
    (acquire .upgradableRead 0 ++ [.run 0 .upgrade, .run 0 (.startUpgrade .task)] ++
      acquire .write 2 ++ [.run 2 .queue, .attemptUpgrade 0 1])
    (fun ts s => (∀ t ∈ ts, ¬ BreaksBorrow t) ∧ (∀ t ∈ ts, ¬ Overflows t) ∧
      s.slots 1 = .writer (.pinned 0)) (by decide)
  have hj : (s.slots 1).holds .writer = true := holds_of_slot hs rfl
  obtain ⟨h1, h2, -⟩ := mutual_exclusion (by decide) hr hB hO hj
  exact ⟨ts, s, hr, hs, h1, h2⟩

end Invariant

end AtomicSync.RwLock
