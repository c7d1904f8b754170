/-
  File:      AtomicSync/RwLock/Preference.lean
  Subject:   Writer preference: once WRITER_QUEUED is set, the readers can only drain.

  Only the drop of a WriterGuard clears the flag (`Update.effect_queued`), and both ways of
  becoming a reader test it (`Update.admits_queued`). That no other update disturbs the flag is
  the counter's bound once more: a release never borrows from an empty counter, a downgrade
  never carries out of a full one. Under a set flag there is no overflow to exclude.

  * **`writer_preference`** -- along every segment that starts with the flag set and contains no
    drop of a WriterGuard: the flag stays, no reader of either kind gets in, and the counter
    rises only where a WriterGuard is downgraded;
  * **`queued_writer_waits`** -- until somebody gets a WriterGuard the counter pays for every
    release with one unit, and an attempt to write is granted exactly when all of it is paid back.
-/
import AtomicSync.RwLock.Bounds

namespace AtomicSync.RwLock

variable {w : ℕ} {ι T : Type}

/-! ## 1. The flag, update by update -/

namespace Update

variable {u : Update} {f : Fields} {m : ℕ}

/-- Only the drop of a WriterGuard clears WRITER_QUEUED. -/
theorem effect_queued (hu : u ≠ .writerGuardDrop) (hQ : f.writerQueued = true) :
    (u.effect f).writerQueued = true := by
  cases u with
  | writerGuardDrop => exact absurd rfl hu
  | tryWriteQueue => rfl
  | _ => exact hQ

/-- Neither kind of reader is admitted under WRITER_QUEUED. -/
theorem admits_queued (hu : u = .tryRead ∨ u = .tryUpgradableRead) (hQ : f.writerQueued = true) :
    u.admits m f = false := by
  rcases hu with rfl | rfl <;> simp [admits, hQ]

/-- … so its word refuses both. -/
theorem run_queued (hw : 8 ≤ w) {s : BitVec w} (hu : u = .tryRead ∨ u = .tryUpgradableRead)
    (hQ : (fields s).writerQueued = true) : u.run s = none := by
  have hsome := isSome_run hw u s
  rw [admits_queued hu hQ] at hsome
  exact Option.not_isSome_iff_eq_none.mp (by rw [hsome]; exact Bool.false_ne_true)

/-- The counter rises by an admitted reader or by a writer's downgrade. -/
theorem effect_count_lt (h : f.count < (u.effect f).count) :
    (u = .tryRead ∨ u = .tryUpgradableRead) ∨
      u = .downgradeWriteToRead ∨ u = .downgradeWriteToUpgradable := by
  rw [effect_count] at h
  cases u with
  | tryRead => exact Or.inl (Or.inl rfl)
  | tryUpgradableRead => exact Or.inl (Or.inr rfl)
  | downgradeWriteToRead => exact Or.inr (Or.inl rfl)
  | downgradeWriteToUpgradable => exact Or.inr (Or.inr rfl)
  | _ =>
      simp only [gain, loss] at h
      omega

end Update

/-! ## 2. Along a segment -/

section Runs

variable [Fintype ι]

/-- A state with a queued writer, reached without an overflow. -/
structure Queued (s : Config w ι T) : Prop where
  bounded : s.Bounded
  queued : (fields s.stat).writerQueued = true

omit [Fintype ι] in
/-- Under WRITER_QUEUED `try_upgradable_read` is refused, at the maximum as well. -/
theorem not_overflows_of_queued {t : LockTrans w ι T}
    (hQ : (fields t.pre.stat).writerQueued = true) : ¬ Overflows t := by
  intro hO
  obtain ⟨-, hadm, -⟩ := hO
  rw [Update.admits_queued (Or.inr rfl) hQ] at hadm
  cases hadm

variable [DecidableEq ι]

/-- **The step lemma**: every step but a writer's drop keeps the writer queued. -/
theorem queued_step (hw : 8 ≤ w) (t : LockTrans w ι T) (h : step t.pre t.act = some t.post)
    (hD : updateAt t.pre t.act ≠ some .writerGuardDrop) (hQ : Queued t.pre) : Queued t.post := by
  have hO := not_overflows_of_queued hQ.queued
  refine ⟨bounded_step hw t h hO hQ.bounded, ?_⟩
  refine ledger_rule (P := fun f _ => f.writerQueued = true) hw h hQ.queued
    (fun u _ ha hu => fits_of_bounded hw hQ.bounded ha hu hO) ?_ ?_ ?_
  · intro u n' ha _ _ _ _
    exact Update.effect_queued (fun e => hD (e ▸ ha)) hQ.queued
  · intro u n' _ _ _
    exact hQ.queued
  · intro i n' _ _
    exact hQ.queued

/-- Where the counter rises under WRITER_QUEUED, a WriterGuard is downgraded. -/
theorem queued_count_lt (hw : 8 ≤ w) {t : LockTrans w ι T} (h : step t.pre t.act = some t.post)
    (hQ : Queued t.pre) (hlt : (fields t.pre.stat).count < (fields t.post.stat).count) :
    updateAt t.pre t.act = some .downgradeWriteToRead ∨
      updateAt t.pre t.act = some .downgradeWriteToUpgradable := by
  cases step_books h with
  | granted u ha hu _ _ =>
      have hO := not_overflows_of_queued hQ.queued
      rw [Update.fields_run hw hu (fits_of_bounded hw hQ.bounded ha hu hO)] at hlt
      rcases Update.effect_count_lt hlt with hrd | rfl | rfl
      · have hadm := Update.admits_of_run hw hu
        rw [Update.admits_queued hrd hQ.queued] at hadm
        cases hadm
      · exact Or.inl ha
      · exact Or.inr ha
  | refused u ha hu hs _ =>
      rw [hs] at hlt
      exact absurd hlt (Nat.lt_irrefl _)
  | silent ha hs _ =>
      rw [hs] at hlt
      exact absurd hlt (Nat.lt_irrefl _)
  | forgotten i ha hn hs _ =>
      rw [hs] at hlt
      exact absurd hlt (Nat.lt_irrefl _)

/-- **Writer preference.** From a state with WRITER_QUEUED set, and until a WriterGuard is
    dropped: the flag stays set, every `try_read` and `try_upgradable_read` is refused, and the
    reader count rises only by the downgrade of a WriterGuard. -/
theorem writer_preference (hw : 8 ≤ w) {d : T} {ts us : List (LockTrans w ι T)}
    {s s' : Config w ι T} (hr : Run step (init w ι d) ts s) (hO : ∀ t ∈ ts, ¬ Overflows t)
    (hQ : (fields s.stat).writerQueued = true) (hseg : Run step s us s')
    (hD : ∀ t ∈ us, updateAt t.pre t.act ≠ some .writerGuardDrop) :
    ∀ t ∈ us, (fields t.post.stat).writerQueued = true ∧
      (∀ u, updateAt t.pre t.act = some u → u = .tryRead ∨ u = .tryUpgradableRead →
        u.run t.pre.stat = none) ∧
      ((fields t.pre.stat).count < (fields t.post.stat).count →
        updateAt t.pre t.act = some .downgradeWriteToRead ∨
          updateAt t.pre t.act = some .downgradeWriteToUpgradable) := by
  intro t ht
  have hstart : Queued s := ⟨bounded_run hw hr hO, hQ⟩
  obtain ⟨h, hpre, hpost⟩ := Run.invariant_mem hstart (queued_step hw) hseg hD ht
  exact ⟨hpost.queued, fun u _ hu => Update.run_queued hw hu hpre.queued,
    queued_count_lt hw h hpre⟩

/-- The theorem at work: a queued writer, a refused reader, and the last reader leaving. -/
theorem writer_preference_refused_reader :
    ∃ ts s us s', Run step (init 8 (Fin 3) ()) ts s ∧ (fields s.stat).writerQueued = true ∧
      Run step s us s' ∧
      (∃ t ∈ us, updateAt t.pre t.act = some .tryRead ∧ Update.tryRead.run t.pre.stat = none) ∧
      ∀ t ∈ us, (fields t.post.stat).writerQueued = true := by
  obtain ⟨ts, s, us, s', hr, hseg, hO, hQ, hD, t, ht, ha⟩ :=
    Run.of_exec_segment step (init 8 (Fin 3) ())
      (acquire .read 0 ++ acquire .write 1 ++ [.run 1 .queue])
      (acquire .read 2 ++ [.run 0 .drop])
      (fun ts s us _ => (∀ t ∈ ts, ¬ Overflows t) ∧ (fields s.stat).writerQueued = true ∧
        (∀ t ∈ us, updateAt t.pre t.act ≠ some .writerGuardDrop) ∧
        ∃ t ∈ us, updateAt t.pre t.act = some .tryRead) (by decide)
  have hpref := writer_preference (by decide) hr hO hQ hseg hD
  exact ⟨ts, s, us, s', hr, hQ, hseg, ⟨t, ht, ha, (hpref t ht).2.1 _ ha (Or.inl rfl)⟩,
    fun t ht => (hpref t ht).1⟩

/-! ## 3. How long the writer waits -/

omit [Fintype ι] [DecidableEq ι] in
/-- The update of a step, if it makes one and is granted. -/
def grantedAt (t : LockTrans w ι T) : Option Update :=
  (updateAt t.pre t.act).filter fun u => (u.run t.pre.stat).isSome

/-- A WriterGuard is granted: by `try_write`, or by an upgrade. -/
def seizes (t : LockTrans w ι T) : Bool :=
  match grantedAt t with
  | some .tryWrite | some .upgradeUpgradableToWrite => true
  | _ => false

/-- The units of the counter a step gives back. -/
def released (t : LockTrans w ι T) : ℕ :=
  match grantedAt t with
  | some u => u.loss
  | none => 0

/-- A queued writer, and nobody writing. -/
structure InLine (s : Config w ι T) : Prop extends Queued s where
  inactive : (fields s.stat).writerActive = false

/-- What an update does to the fields of a lock a writer queues for and nobody writes in, if it
    yields no WriterGuard. -/
theorem Update.effect_inLine {u : Update} {f : Fields} {m : ℕ} (hQ : f.writerQueued = true)
    (hW : f.writerActive = false) (ha : u.admits m f = true) (hw : u ≠ .tryWrite)
    (hup : u ≠ .upgradeUpgradableToWrite) :
    (u.effect f).writerQueued = true ∧ (u.effect f).writerActive = false ∧ u.gain = 0 := by
  cases u with
  | tryWrite => exact absurd rfl hw
  | upgradeUpgradableToWrite => exact absurd rfl hup
  | decreaseReaderCount => exact ⟨hQ, hW, rfl⟩
  | tryWriteQueue => exact ⟨rfl, hW, rfl⟩
  | upgradableReadDrop => exact ⟨hQ, hW, rfl⟩
  | downgradeUpgradableToRead => exact ⟨hQ, hW, rfl⟩
  | _ => simp [admits, hQ, hW] at ha

/-- **The step lemma**: until a WriterGuard is granted the writer stays in line, and the counter
    goes down by what the step gives back. -/
theorem inLine_step (hw : 8 ≤ w) (t : LockTrans w ι T) (h : step t.pre t.act = some t.post)
    (hS : seizes t = false) (hs : InLine t.pre) :
    InLine t.post ∧ (fields t.post.stat).count + released t = (fields t.pre.stat).count := by
  have hO := not_overflows_of_queued hs.queued
  have hb := bounded_step hw t h hO hs.bounded
  have hkeep : t.post.stat = t.pre.stat → grantedAt t = none →
      InLine t.post ∧ (fields t.post.stat).count + released t = (fields t.pre.stat).count := by
    intro e hn
    refine ⟨⟨⟨hb, by rw [e]; exact hs.queued⟩, by rw [e]; exact hs.inactive⟩, ?_⟩
    unfold released
    rw [hn, e]
    rfl
  cases step_books h with
  | granted u ha hu _ _ =>
      have hg : grantedAt t = some u := by
        unfold grantedAt
        rw [ha, Option.filter_some, hu]
        rfl
      have hfit := fits_of_bounded hw hs.bounded ha hu hO
      have hadm := Update.admits_of_run hw hu
      have hne : u ≠ .tryWrite ∧ u ≠ .upgradeUpgradableToWrite := by
        unfold seizes at hS
        rw [hg] at hS
        refine ⟨?_, ?_⟩ <;> rintro rfl <;> cases hS
      obtain ⟨hQ, hW, hgain⟩ := Update.effect_inLine hs.queued hs.inactive hadm hne.1 hne.2
      have e := Update.fields_run hw hu hfit
      refine ⟨⟨⟨hb, by rw [e]; exact hQ⟩, by rw [e]; exact hW⟩, ?_⟩
      have hloss := hfit.1
      unfold released
      rw [hg, e, Update.effect_count, hgain]
      show _ + u.loss = _
      omega
  | refused u ha hu e _ =>
      refine hkeep e ?_
      unfold grantedAt
      rw [ha, Option.filter_some, hu]
      rfl
  | silent ha e _ =>
      refine hkeep e ?_
      unfold grantedAt
      rw [ha]
      rfl
  | forgotten i ha hn e _ =>
      refine hkeep e ?_
      unfold grantedAt
      rw [hn]
      rfl

/-- **A queued writer waits for the readers that are there, and for nobody else.** From a state with
    WRITER_QUEUED set and no writer active, and until somebody is granted a WriterGuard: every unit
    the counter loses is a reader that leaves, none is added, and an attempt to write is granted
    exactly when all the units have been given back. -/
theorem queued_writer_waits (hw : 8 ≤ w) {d : T} {ts us : List (LockTrans w ι T)}
    {s s' : Config w ι T} (hr : Run step (init w ι d) ts s) (hO : ∀ t ∈ ts, ¬ Overflows t)
    (hQ : (fields s.stat).writerQueued = true) (hW : (fields s.stat).writerActive = false)
    (hseg : Run step s us s') (hS : ∀ t ∈ us, seizes t = false) :
    (fields s'.stat).count + (us.map released).sum = (fields s.stat).count ∧
      ((Update.tryWrite.run s'.stat).isSome = true ↔
        (us.map released).sum = (fields s.stat).count) := by
  have hstart : InLine s := ⟨⟨bounded_run hw hr hO, hQ⟩, hW⟩
  have hstep : ∀ t : LockTrans w ι T, step t.pre t.act = some t.post → seizes t = false →
      InLine t.pre → InLine t.post := fun t h hS hs => (inLine_step hw t h hS hs).1
  have hend : InLine s' := hseg.invariant hstart hstep hS
  have hsum := hseg.spent (fun s => (fields s.stat).count) released fun t ht => by
    obtain ⟨h, hpre, -⟩ := Run.invariant_mem hstart hstep hseg hS ht
    exact (inLine_step hw t h (hS t ht) hpre).2
  refine ⟨hsum, ?_⟩
  rw [Update.isSome_run hw]
  simp only [Update.admits, hend.inactive, Bool.not_false, Bool.and_true, decide_eq_true_eq]
  omega

/-- The theorem at work: two readers, a queued writer and a reader that comes too late; the two
    leave, and the writer's turn has come. -/
theorem queued_writer_waits_for_two :
    ∃ us s', (∃ s, Run (step (w := 8) (ι := Fin 4) (T := Unit)) s us s' ∧
        (fields s.stat).count = 2) ∧
      (us.map released).sum = 2 ∧ (Update.tryWrite.run s'.stat).isSome = true := by
  obtain ⟨ts, s, us, s', hr, hseg, hO, hf, hS, hsum⟩ :=
    Run.of_exec_segment step (init 8 (Fin 4) ())
      (acquire .read 0 ++ acquire .upgradableRead 1 ++ ([.run 2 (.call .write .task),
        .run 2 .attempt, .run 2 .queue] : List (Act (Fin 4) Unit)))
      (acquire .read 3 ++ ([.run 0 .drop, .run 2 (.poll false), .run 2 .attempt,
        .run 1 .drop] : List (Act (Fin 4) Unit)))
      (fun ts s us _ => (∀ t ∈ ts, ¬ Overflows t) ∧ fields s.stat = ⟨false, true, true, 2⟩ ∧
        (∀ t ∈ us, seizes t = false) ∧ (us.map released).sum = 2) (by decide)
  have hc : (fields s.stat).count = 2 := by rw [hf]
  refine ⟨us, s', ⟨s, hseg, hc⟩, hsum, ?_⟩
  exact (queued_writer_waits (by decide) hr hO (by rw [hf]) (by rw [hf]) hseg hS).2.mpr
    (hsum.trans hc.symm)

end Runs

end AtomicSync.RwLock
