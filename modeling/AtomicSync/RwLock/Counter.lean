/-
  File:      AtomicSync/RwLock/Counter.lean
  Subject:   The packed fields never bleed into each other -- exactly as long as no
             `try_upgradable_read` is granted at the maximal reader count.

  `FieldLaw t` is the contract of one transition: a granted update changes exactly the fields
  its method is about, the counter as a natural number; a refused one and every other step
  leave the word alone; an acquisition at the maximum is refused. Every step of a bounded state
  obeys it, an overflow excepted (`fieldLaw_of_bounded`), and an overflow breaks it
  (`not_fieldLaw_of_overflows`): the carry turns a full count into WRITER_QUEUED.
-/
import AtomicSync.RwLock.Bounds

namespace AtomicSync.RwLock

variable {w : ℕ} {ι T : Type} [DecidableEq ι]

/-- **The contract of one transition, on the fields.** -/
structure FieldLaw (t : LockTrans w ι T) : Prop where
  /-- a granted update has room in the counter and has exactly its effect -/
  granted : ∀ u stat', updateAt t.pre t.act = some u → u.run t.pre.stat = some stat' →
    t.post.stat = stat' ∧ u.fits (maxReaderCount w) (fields t.pre.stat) ∧
      fields t.post.stat = u.effect (fields t.pre.stat)
  /-- a refused update leaves the word as it is -/
  refused : ∀ u, updateAt t.pre t.act = some u → u.run t.pre.stat = none →
    t.post.stat = t.pre.stat
  /-- so does a step without an update -/
  silent : updateAt t.pre t.act = none → t.post.stat = t.pre.stat
  /-- no reader of either kind gets in at the maximum -/
  full : ∀ u, updateAt t.pre t.act = some u → u = .tryRead ∨ u = .tryUpgradableRead →
    (fields t.pre.stat).count = maxReaderCount w → u.run t.pre.stat = none

variable [Fintype ι]

/-- The word after a step, read off its books. -/
theorem stat_of_step {s s' : Config w ι T} {a : Act ι T} (h : step s a = some s') :
    s'.stat = match updateAt s a with
      | some u => (u.run s.stat).getD s.stat
      | none => s.stat := by
  cases step_books h with
  | granted u ha hu _ _ => simp [ha, hu]
  | refused u ha hu hs _ => simp [ha, hu, hs]
  | silent ha hs _ => simp [ha, hs]
  | forgotten i _ hn hs _ => simp [hn, hs]

theorem fieldLaw_of_bounded (hw : 8 ≤ w) {t : LockTrans w ι T}
    (h : step t.pre t.act = some t.post) (hb : t.pre.Bounded) (hO : ¬ Overflows t) :
    FieldLaw t where
  granted u stat' ha hu := by
    have hs : t.post.stat = stat' := by
      rw [stat_of_step h, ha]
      simp [hu]
    have hfit := fits_of_bounded hw hb ha hu hO
    exact ⟨hs, hfit, hs ▸ Update.fields_run hw hu hfit⟩
  refused u ha hu := by
    rw [stat_of_step h, ha]
    simp [hu]
  silent ha := by
    rw [stat_of_step h, ha]
  full u ha hk hc := by
    have hadm := Update.isSome_run hw u t.pre.stat
    cases hu : u.run t.pre.stat with
    | none => rfl
    | some stat' =>
      exfalso
      rw [hu] at hadm
      rcases hk with rfl | rfl
      · -- try_read tests the maximum itself
        simp [Update.admits, hc] at hadm
      · exact hO ⟨ha, hadm.symm, hc⟩

omit [DecidableEq ι] [Fintype ι] in
theorem not_fieldLaw_of_overflows (hw : 8 ≤ w) {t : LockTrans w ι T} (hO : Overflows t) :
    ¬ FieldLaw t := by
  intro hL
  obtain ⟨ha, hadm, hc⟩ := hO
  have hsome := Update.isSome_run hw .tryUpgradableRead t.pre.stat
  rw [hadm, hL.full _ ha (Or.inr rfl) hc] at hsome
  cases hsome

/-- **The fields are exact on a run exactly when no upgradable reader overflows the counter.**
    Any width from 8 bits, any number of guards, forgotten ones and re-used `Upgrade`s
    included. -/
theorem fields_exact_iff (hw : 8 ≤ w) {d : T} {ts : List (LockTrans w ι T)} {s : Config w ι T}
    (hr : Run step (init w ι d) ts s) :
    (∀ t ∈ ts, FieldLaw t) ↔ ∀ t ∈ ts, ¬ Overflows t := by
  constructor
  · intro hL t ht hO
    exact not_fieldLaw_of_overflows hw hO (hL t ht)
  · intro hO t ht
    obtain ⟨h, hb, -⟩ := Run.invariant_mem (bounded_init hw d) (bounded_step hw) hr hO ht
    exact fieldLaw_of_bounded hw h hb (hO t ht)

/-! ## Thirty-one readers and an upgradable one, on a byte -/

/-- Readers in the slots below 31, then an upgradable reader in slot 31. -/
def fullHouse : List (Act (Fin 32) Unit) :=
  (List.finRange 32).flatMap fun i => acquire (if i = 31 then .upgradableRead else .read) i

/-- At count 31 the byte 0x1f becomes 0x40: WRITER_QUEUED set, UPGRADE_ACTIVE clear, count 0. -/
theorem fields_bleed_at_full_house :
    ∃ ts s, Run step (init 8 (Fin 32) ()) ts s ∧ ∃ t ∈ ts,
      t.pre.stat = 0x1f#8 ∧ t.post.stat = 0x40#8 ∧ ¬ FieldLaw t := by
  obtain ⟨ts, s, hr, t, ht, hO, hpre, hpost⟩ := Run.of_exec step (init 8 (Fin 32) ()) fullHouse
    (fun ts _ => ∃ t ∈ ts, Overflows t ∧ t.pre.stat = 0x1f#8 ∧ t.post.stat = 0x40#8)
    (by decide +kernel)
  exact ⟨ts, s, hr, t, ht, hpre, hpost, not_fieldLaw_of_overflows (by decide) hO⟩

/-- The criterion at work: an upgrade refused against a reader, the reader gone and the upgrade
    granted, a reader refused under the writer, the writer downgraded and the reader let in. -/
theorem fields_exact_iff_reader :
    ∃ ts s, Run step (init 8 (Fin 2) ()) ts s ∧ s.slots 0 = .reader ∧ s.slots 1 = .reader ∧
      (∃ t ∈ ts, updateAt t.pre t.act = some .upgradeUpgradableToWrite ∧
        t.post.stat = t.pre.stat) ∧
      (∃ t ∈ ts, updateAt t.pre t.act = some .upgradeUpgradableToWrite ∧
        t.post.stat ≠ t.pre.stat) ∧ ∀ t ∈ ts, FieldLaw t := by
  obtain ⟨ts, s, hr, hO, h0, h1, hrefused, hgranted⟩ := Run.of_exec step (init 8 (Fin 2) ())
    (acquire .upgradableRead 0 ++ acquire .read 1 ++ [.run 0 .tryUpgrade, .run 1 .drop,
      .run 0 .tryUpgrade, .run 0 .dropMoved] ++ acquire .read 1 ++ [.run 0 .downgradeToReader] ++
      acquire .read 1)
    (fun ts s => (∀ t ∈ ts, ¬ Overflows t) ∧ s.slots 0 = .reader ∧ s.slots 1 = .reader ∧
      (∃ t ∈ ts, updateAt t.pre t.act = some .upgradeUpgradableToWrite ∧
        t.post.stat = t.pre.stat) ∧
      ∃ t ∈ ts, updateAt t.pre t.act = some .upgradeUpgradableToWrite ∧
        t.post.stat ≠ t.pre.stat) (by decide)
  exact ⟨ts, s, hr, h0, h1, hrefused, hgranted, (fields_exact_iff (by decide) hr).mpr hO⟩

end AtomicSync.RwLock
