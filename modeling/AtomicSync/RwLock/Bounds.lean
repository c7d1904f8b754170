/-
  File:      AtomicSync/RwLock/Bounds.lean
  Subject:   The counter bounds the guards: the invariant of every run that never overflows it.

  `Bounded f n` relates the fields of the word to the numbers of live guards: every reader and
  every upgradable reader alive has its unit in the counter, a set UPGRADE_ACTIVE has a unit of
  its own beside the readers', and under WRITER_ACTIVE the counter is at most one. It survives
  every update that fits the counter, forgotten guards and refused releases included, and it is
  what makes every update but one fit: only `try_upgradable_read` tests neither the maximum nor
  anything that implies it (`Overflows`).

  No condition on borrows or leaks is used: `bounded_run` holds for every run the inherent
  signatures permit.
-/
import AtomicSync.RwLock.Conditions

namespace AtomicSync.RwLock

variable {w : ℕ} {ι T : Type}

/-- **The bound invariant**, on fields and guard counts. -/
structure Bounded (f : Fields) (n : Role → ℕ) : Prop where
  held : n .reader + n .upgradable ≤ f.count
  upgrade : f.upgradeActive = true → n .reader + 1 ≤ f.count
  writer : f.writerActive = true → f.count ≤ 1

namespace Bounded

variable {f : Fields} {n n' : Role → ℕ} {u : Update} {m : ℕ}

/-- An admitted update fits, `try_upgradable_read` at the maximum excepted. -/
theorem fits (hb : Bounded f n) (hm : 2 ≤ m) (hf : f.count ≤ m) (ha : u.admits m f = true)
    (hO : u = .tryUpgradableRead → f.count ≠ m) : u.fits m f := by
  have h1 := hb.upgrade
  have h2 := hb.writer
  unfold Update.fits
  cases u <;> simp [Update.admits, Update.loss, Update.gain] at ha hO ⊢ <;> grind

/-- A granted update that fits keeps the bounds. -/
theorem grant (hb : Bounded f n) (ha : u.admits m f = true) (hfit : u.fits m f)
    (hl : ∀ ρ, n' ρ + u.takes ρ = n ρ + u.gives ρ) (ht : ∀ ρ, u.takes ρ ≤ n ρ) :
    Bounded (u.effect f) n' := by
  obtain ⟨h1, h2, h3⟩ := hb
  obtain ⟨hlo, -⟩ := hfit
  have lr := hl .reader
  have lu := hl .upgradable
  have tr := ht .reader
  have tu := ht .upgradable
  cases u <;>
    simp only [Update.admits, Update.loss, Update.takes, Update.gives] at ha hlo lr lu tr tu <;>
    refine ⟨?_, ?_, ?_⟩ <;> simp only [Update.effect] <;> grind

/-- Fewer guards keep the bounds. -/
theorem mono (hb : Bounded f n) (hl : ∀ ρ, n' ρ ≤ n ρ) : Bounded f n' := by
  obtain ⟨h1, h2, h3⟩ := hb
  have lr := hl .reader
  have lu := hl .upgradable
  exact ⟨by omega, fun h => by have := h2 h; omega, h3⟩

end Bounded

/-! ## 1. Along a run -/

section Runs

variable [Fintype ι] [DecidableEq ι]

/-- The bound invariant of a configuration. -/
def Config.Bounded (s : Config w ι T) : Prop := RwLock.Bounded (fields s.stat) s.live

omit [DecidableEq ι] in
theorem bounded_init (hw : 8 ≤ w) (d : T) : (init w ι d).Bounded := by
  have e : fields (init w ι d).stat = ⟨false, false, false, 0⟩ := fields_zero hw
  unfold Config.Bounded
  rw [e]
  exact ⟨by simp [live_init], (fun h => by cases h), fun h => by cases h⟩

omit [DecidableEq ι] in
/-- Every granted update of a bounded state fits the counter, an overflow excepted. -/
theorem fits_of_bounded (hw : 8 ≤ w) {t : LockTrans w ι T} (hb : t.pre.Bounded) {u : Update}
    (ha : updateAt t.pre t.act = some u) {stat' : BitVec w} (hu : u.run t.pre.stat = some stat')
    (hO : ¬ Overflows t) : u.fits (maxReaderCount w) (fields t.pre.stat) := by
  have hm := maxReaderCount_ge hw
  have hadm := Update.admits_of_run hw hu
  refine hb.fits (by omega) (count_le_max hw _) hadm fun e hc => hO ?_
  subst e
  exact ⟨ha, hadm, hc⟩

/-- **The step lemma**: without an overflow the bounds are kept. -/
theorem bounded_step (hw : 8 ≤ w) (t : LockTrans w ι T) (h : step t.pre t.act = some t.post)
    (hO : ¬ Overflows t) (hb : t.pre.Bounded) : t.post.Bounded := by
  refine ledger_rule_mono hw h hb (fun _ _ _ hb hl => hb.mono hl)
    (fun u _ ha hu => fits_of_bounded hw hb ha hu hO) ?_
  intro u n' _ hadm hfit hl ht
  exact hb.grant hadm hfit hl ht

/-- **The run lemma**: every run from word 0 without an overflow ends bounded. -/
theorem bounded_run (hw : 8 ≤ w) {d : T} {ts : List (LockTrans w ι T)} {s : Config w ι T}
    (hr : Run step (init w ι d) ts s) (hO : ∀ t ∈ ts, ¬ Overflows t) : s.Bounded :=
  hr.invariant (bounded_init hw d) (bounded_step hw) hO

end Runs

end AtomicSync.RwLock
