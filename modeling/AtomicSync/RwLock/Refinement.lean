/-
  File:      AtomicSync/RwLock/Refinement.lean
  Subject:   The lock machine carries out an abstract reader-writer lock.

  `Holders` says what the lock is for: who may hold it together. It knows no word, no queue and
  no call in progress, and a state in which a writer and a reader hold the lock cannot be written
  down. `Holders.next` is the abstract lock as a state machine over whole operations (`Op`).

  `Holders.word` encodes the holders, and whether a writer is queued, as the fields of the state
  word. On encoded words the updates ARE the operations, two cases apart: the upgrade and
  `downgrade_to_upgradable` are admitted under a writer with an upgradable guard beneath it.

  * `admits_word_iff`, `effect_word` -- the two tables: what is admitted, what it does;
  * **`refines_holders`** -- the machine simulates the abstract lock on the runs whose word means
    its guards; each operation takes effect in its granted update;
  * **`lock_history`** -- so the operations that take effect along a run are, in this order,
    operations of the abstract lock;
  * **`granted_iff_permitted`** -- and an update is granted exactly when the abstract lock permits
    its operation, readers excepted that find a writer queued or the counter full.
-/
import AtomicSync.Lib.Simulation
import AtomicSync.RwLock.Counter
import AtomicSync.RwLock.Reflection

namespace AtomicSync.RwLock

variable {w : ℕ} {ι T : Type}

/-! ## 1. The abstract lock -/

/-- **Who holds the lock**: readers, perhaps with the upgradable reader among them; or one
    writer, perhaps with the upgradable reader it was upgraded from suspended under it. -/
inductive Holders where
  | shared (readers : ℕ) (upgradable : Bool)
  | exclusive (suspended : Bool)
  deriving DecidableEq, Repr

/-- The operations of a reader-writer lock. -/
inductive Op where
  | read
  | upgradableRead
  | write
  | upgrade
  | dropReader
  | dropUpgradable
  | dropWriter
  | writerToReader
  | writerToUpgradable
  | upgradableToReader
  deriving DecidableEq, Repr

namespace Holders

/-- Nobody. -/
def nobody : Holders := .shared 0 false

/-- **The abstract lock**: the holders after an operation, where it is permitted. -/
def next : Holders → Op → Option Holders
  | .shared n u, .read => some (.shared (n + 1) u)
  | .shared n false, .upgradableRead => some (.shared n true)
  | .shared 0 false, .write => some (.exclusive false)
  | .shared 0 true, .upgrade => some (.exclusive true)
  | .shared (n + 1) u, .dropReader => some (.shared n u)
  | .shared n true, .dropUpgradable => some (.shared n false)
  | .shared n true, .upgradableToReader => some (.shared (n + 1) false)
  | .exclusive u, .dropWriter => some (.shared 0 u)
  | .exclusive true, .dropUpgradable => some (.exclusive false)
  | .exclusive u, .writerToReader => some (.shared 1 u)
  | .exclusive false, .writerToUpgradable => some (.shared 0 true)
  | _, _ => none

/-- The guards of the holders. -/
def live : Holders → Role → ℕ
  | .shared n _, .reader => n
  | .shared _ u, .upgradable => u.toNat
  | .shared _ _, .writer => 0
  | .exclusive _, .reader => 0
  | .exclusive u, .upgradable => u.toNat
  | .exclusive _, .writer => 1

/-- The word of the holders; `queued` says whether a writer is queued. -/
def word (queued : Bool) : Holders → Fields
  | .shared n u => ⟨false, queued, u, n + u.toNat⟩
  | .exclusive u => ⟨true, queued, u, u.toNat⟩

end Holders

/-! ## 2. Updates as operations -/

/-- The operation that takes effect in an update; setting WRITER_QUEUED is none. -/
def Update.op : Update → Option Op
  | .tryRead => some .read
  | .tryUpgradableRead => some .upgradableRead
  | .tryWrite => some .write
  | .tryWriteQueue => none
  | .upgradeUpgradableToWrite => some .upgrade
  | .decreaseReaderCount => some .dropReader
  | .upgradableReadDrop => some .dropUpgradable
  | .writerGuardDrop => some .dropWriter
  | .downgradeWriteToRead => some .writerToReader
  | .downgradeWriteToUpgradable => some .writerToUpgradable
  | .downgradeUpgradableToRead => some .upgradableToReader

/-- The two updates whose predicates do not see that the upgradable guard is suspended. -/
def Update.blind : Update → Bool
  | .upgradeUpgradableToWrite | .downgradeWriteToUpgradable => true
  | _ => false

section Tables

variable {a a' : Holders} {u : Update} {op : Op} {q : Bool} {m : ℕ}

/-- **What is admitted**, of a caller that has the guard it gives up: what the abstract lock
    permits; readers find no writer queued, and `try_read` the counter below its maximum. -/
theorem admits_word_iff (hop : u.op = some op) (ht : ∀ ρ, u.takes ρ ≤ a.live ρ)
    (hb : u.blind = true → a ≠ .exclusive true) :
    u.admits m (a.word q) = true ↔ (a.next op).isSome = true ∧
      (u = .tryRead ∨ u = .tryUpgradableRead → q = false) ∧
      (u = .tryRead → (a.word q).count < m) := by
  have tr := ht .reader
  rcases a with ⟨_ | n, _ | _⟩ | ⟨_ | _⟩ <;> cases u <;> cases hop <;>
    simp [Update.admits, Update.blind, Update.takes, Holders.live, Holders.word,
      Holders.next] at hb tr ⊢ <;> grind

/-- **What it does**: the word of the holders becomes the word of the next ones. -/
theorem effect_word (hop : u.op = some op) (h : a.next op = some a') :
    u.effect (a.word q) = a'.word (u.effect (a.word q)).writerQueued := by
  rcases a with ⟨_ | n, _ | _⟩ | ⟨_ | _⟩ <;> cases u <;> cases hop <;> cases h <;> rfl

end Tables

/-! ## 3. The machine -/

/-- The operation that takes effect in a transition: that of its granted update. -/
def takesEffect (t : LockTrans w ι T) : Option Op :=
  match updateAt t.pre t.act with
  | some u => if (u.run t.pre.stat).isSome then u.op else none
  | none => none

section Machine

variable [Fintype ι]

/-- **The state stands for the holders**: its word means its guards and is the holders' word. -/
structure Represents (s : Config w ι T) (a : Holders) : Prop where
  faithful : Faithful s
  word : ∃ q, fields s.stat = a.word q

theorem represents_init (hw : 8 ≤ w) (d : T) : Represents (init w ι d) .nobody :=
  ⟨faithful_init hw d, false, fields_zero hw⟩

/-- The guards alive are the holders' guards. -/
theorem Represents.live {s : Config w ι T} {a : Holders} (hR : Represents s a) :
    s.live = a.live := by
  obtain ⟨hF, q, hq⟩ := hR
  obtain ⟨⟨hup, hone, hcount⟩, hwr⟩ := hF.exact
  have halone := hF.exclusive.alone.alone
  rw [hq] at hup hcount hwr
  funext ρ
  cases a with
  | shared n u =>
      cases u <;> cases ρ <;> simp [Holders.word, Holders.live] at hup hcount hwr ⊢ <;> omega
  | exclusive u =>
      cases u <;> cases ρ <;> simp [Holders.word, Holders.live] at hup hcount hwr ⊢ <;> omega

variable [DecidableEq ι]

/-- No disciplined transition makes a blind update under a suspended guard. -/
theorem not_suspended {t : LockTrans w ι T} (h : step t.pre t.act = some t.post)
    (hC : Disciplined t) {a : Holders} (hR : Represents t.pre a) {u : Update}
    (ha : updateAt t.pre t.act = some u) (hb : u.blind = true) : a ≠ .exclusive true := by
  rintro rfl
  have hE := hR.faithful.exclusive
  have hlive := hR.live
  cases u with
  | upgradeUpgradableToWrite =>
      have h0 := no_writer_at_upgrade h hE ha (not_reupgrades hC.borrow)
      rw [hlive] at h0
      cases h0
  | downgradeWriteToUpgradable =>
      have h0 := no_upgradable_at_downgrade hE ha hC.pinned
      rw [hlive] at h0
      cases h0
  | _ => cases hb

/-- **Granted is permitted**, in a state that stands for its holders. -/
theorem isSome_run_iff (hw : 8 ≤ w) {t : LockTrans w ι T} (h : step t.pre t.act = some t.post)
    (hC : Disciplined t) {a : Holders} (hR : Represents t.pre a) {u : Update} {op : Op}
    (ha : updateAt t.pre t.act = some u) (hop : u.op = some op) :
    (u.run t.pre.stat).isSome = true ↔ (a.next op).isSome = true ∧
      (u = .tryRead ∨ u = .tryUpgradableRead → (fields t.pre.stat).writerQueued = false) ∧
      (u = .tryRead → (fields t.pre.stat).count < maxReaderCount w) := by
  obtain ⟨q, hq⟩ := hR.word
  have hqueued : (a.word q).writerQueued = q := by cases a <;> rfl
  rw [Update.isSome_run hw, hq, hqueued]
  exact admits_word_iff hop (fun ρ => hR.live ▸ takes_le h ha ρ) (not_suspended h hC hR ha)

/-- **The machine carries out the abstract lock.** -/
theorem refines_holders (hw : 8 ≤ w) :
    Simulates (step (w := w) (ι := ι) (T := T)) Disciplined takesEffect Holders.next
      Represents where
  action := by
    intro t h hC a op hR hl
    have hlaw := fieldLaw_of_bounded hw h hR.faithful.exclusive.bounded hC.overflow
    obtain ⟨q, hq⟩ := hR.word
    unfold takesEffect at hl
    split at hl
    · next u ha =>
      split at hl
      · next hsome =>
        obtain ⟨stat', hu⟩ := Option.isSome_iff_exists.mp hsome
        obtain ⟨a', hnext⟩ := Option.isSome_iff_exists.mp
          ((isSome_run_iff hw h hC hR ha hl).mp hsome).1
        have heff := (hlaw.granted u stat' ha hu).2.2
        rw [hq, effect_word hl hnext] at heff
        exact ⟨a', hnext, faithful_step hw t h hC hR.faithful, _, heff⟩
      · cases hl
    · cases hl
  silent := by
    intro t h hC a hR hl
    have hlaw := fieldLaw_of_bounded hw h hR.faithful.exclusive.bounded hC.overflow
    obtain ⟨q, hq⟩ := hR.word
    refine ⟨faithful_step hw t h hC hR.faithful, ?_⟩
    cases ha : updateAt t.pre t.act with
    | none => exact ⟨q, by rw [hlaw.silent ha, hq]⟩
    | some u =>
      cases hu : u.run t.pre.stat with
      | none => exact ⟨q, by rw [hlaw.refused u ha hu, hq]⟩
      | some stat' =>
        -- granted and no operation: WRITER_QUEUED is set, the holders stay
        have hop : u.op = none := by simpa [takesEffect, ha, hu] using hl
        have heff := (hlaw.granted u stat' ha hu).2.2
        obtain rfl : u = .tryWriteQueue := by cases u <;> first | rfl | cases hop
        refine ⟨true, heff.trans ?_⟩
        rw [hq]
        cases a <;> rfl

/-- **The history of a run**: the operations that take effect along it, in their order, are
    operations of the abstract lock from the free lock on, and lead to holders whose guards are
    the guards alive and whose word is the word. -/
theorem lock_history (hw : 8 ≤ w) {d : T} {ts : List (LockTrans w ι T)} {s : Config w ι T}
    (hr : Run step (init w ι d) ts s) (hC : ∀ t ∈ ts, Disciplined t) :
    ∃ us a, Run Holders.next .nobody us a ∧ us.map Trans.act = ts.filterMap takesEffect ∧
      s.live = a.live ∧ ∃ q, fields s.stat = a.word q := by
  obtain ⟨us, a, hrun, hR, hacts⟩ := (refines_holders hw).run (represents_init hw d) hr hC
  exact ⟨us, a, hrun, hacts, hR.live, hR.word⟩

/-- A consuming upgrade, downgraded to a reader and dropped: five operations, from nobody to
    nobody. -/
theorem lock_history_consumed :
    ∃ ts s, Run step (init 8 (Fin 2) ()) ts s ∧ ∃ us a, Run Holders.next .nobody us a ∧
      us.map Trans.act = [.dropReader, .writerToReader, .dropUpgradable, .upgrade,
        .upgradableRead] ∧ s.live = a.live := by
  obtain ⟨ts, s, hr, hL, hB, hO, hP, hops⟩ := Run.of_exec step (init 8 (Fin 2) ())
    (acquire .upgradableRead 0 ++ ([.run 0 .tryUpgrade, .run 0 .dropMoved,
      .run 0 .downgradeToReader, .run 0 .drop] : List (Act (Fin 2) Unit)))
    (fun ts _ => (∀ t ∈ ts, ¬ Leaks t) ∧ (∀ t ∈ ts, ¬ BreaksBorrow t) ∧
      (∀ t ∈ ts, ¬ Overflows t) ∧ (∀ t ∈ ts, ¬ DowngradesPinned t) ∧
      ts.filterMap takesEffect = [.dropReader, .writerToReader, .dropUpgradable, .upgrade,
        .upgradableRead]) (by decide)
  have hC : ∀ t ∈ ts, Disciplined t := fun t ht => ⟨hL t ht, hB t ht, hO t ht, hP t ht⟩
  obtain ⟨us, a, hrun, hacts, hlive, -⟩ := lock_history (by decide) hr hC
  exact ⟨ts, s, hr, us, a, hrun, hacts.trans hops, hlive⟩

/-- **Nothing is refused without cause**: an update of a run is granted exactly when the abstract
    lock permits its operation to the holders at that moment and, for a reader of either kind, no
    writer is queued, for `try_read` below the maximal count. -/
theorem granted_iff_permitted (hw : 8 ≤ w) {d : T} {ts : List (LockTrans w ι T)}
    {s : Config w ι T} (hr : Run step (init w ι d) ts s) (hC : ∀ t ∈ ts, Disciplined t)
    {t : LockTrans w ι T} (ht : t ∈ ts) :
    ∃ a : Holders, t.pre.live = a.live ∧ ∀ u op, updateAt t.pre t.act = some u →
      u.op = some op → ((u.run t.pre.stat).isSome = true ↔ (a.next op).isSome = true ∧
        (u = .tryRead ∨ u = .tryUpgradableRead → (fields t.pre.stat).writerQueued = false) ∧
        (u = .tryRead → (fields t.pre.stat).count < maxReaderCount w)) := by
  obtain ⟨h, us, hus, hsub⟩ := hr.of_mem ht
  obtain ⟨_, a, -, hR, -⟩ := (refines_holders hw).run (represents_init hw d) hus
    fun u hu => hC u (hsub u hu)
  exact ⟨a, hR.live, fun u op ha hop => isSome_run_iff hw h (hC t ht) hR ha hop⟩

/-- A reader refused with no writer queued and room in the counter: the abstract lock does not
    permit it either, for the holders are a writer. -/
theorem granted_iff_permitted_under_writer :
    ∃ ts s, Run step (init 8 (Fin 2) ()) ts s ∧ ∃ t ∈ ts, t.act = .run 1 .attempt ∧
      ∃ a : Holders, t.pre.live = a.live ∧ (a.next .read).isSome = false := by
  obtain ⟨ts, s, hr, hL, hB, hO, hP, t, ht, hact, hslot, hstat⟩ :=
    Run.of_exec step (init 8 (Fin 2) ()) (acquire .write 0 ++ acquire .read 1)
    (fun ts _ => (∀ t ∈ ts, ¬ Leaks t) ∧ (∀ t ∈ ts, ¬ BreaksBorrow t) ∧
      (∀ t ∈ ts, ¬ Overflows t) ∧ (∀ t ∈ ts, ¬ DowngradesPinned t) ∧
      ∃ t ∈ ts, t.act = .run 1 .attempt ∧ t.pre.slots 1 = .calling .read .once ∧
        t.pre.stat = 0x80#8) (by decide)
  have hC : ∀ t ∈ ts, Disciplined t := fun t ht => ⟨hL t ht, hB t ht, hO t ht, hP t ht⟩
  obtain ⟨a, hlive, hiff⟩ := granted_iff_permitted (by decide) hr hC ht
  have hat : updateAt t.pre t.act = some .tryRead := by
    simp [updateAt, hact, hslot, Slot.instr, Acquire.tryRead]
  refine ⟨ts, s, hr, t, ht, hact, a, hlive, eq_false_of_ne_true fun hp => ?_⟩
  have hgranted := (hiff .tryRead .read hat rfl).mpr
    ⟨hp, fun _ => by rw [hstat]; decide, fun _ => by rw [hstat]; decide⟩
  rw [hstat] at hgranted
  exact absurd hgranted (by decide)

end Machine

end AtomicSync.RwLock
