/-
  File:      AtomicSync/RwLock/Pinned.lean
  Subject:   `downgrade_to_upgradable` on the WriterGuard of a pinned `Upgrade`.

  The pinned upgrade keeps the `Upgrade`'s guard, its UPGRADE_ACTIVE and its unit of the counter.
  The downgrade adds a second guard with a unit of its own, and raises the flag that is up
  already. From then on two guards share one flag: neither can be upgraded, the first one dropped
  takes the flag along, and the second one's drop is refused and leaves its unit behind for good.

  * `UpgradableSound` -- what the upgradable hold is expected to satisfy;
  * **`upgradable_sound_iff`** -- the downgrade breaks it at once, in every run; and nothing else
    does in the runs that respect the borrow and leak no guard;
  * `pinned_downgrade_loses_unit` -- the run that ends with no guard and a counter of one.
-/
import AtomicSync.RwLock.Reflection

namespace AtomicSync.RwLock

variable {w : ℕ} {ι T : Type}

/-! ## 1. What the upgradable hold is expected to satisfy -/

section Runs

variable [Fintype ι]

/-- **The upgradable hold is sound**: one holder at a time, who can upgrade once nobody else
    reads or writes; every release finds its own hold; and when all guards are gone, so are
    their traces in the word. -/
structure UpgradableSound (s : Config w ι T) : Prop where
  single : s.live .upgradable ≤ 1
  upgradable : ∀ i, (s.slots i).holds .upgradable = true → s.live .reader = 0 →
    s.live .writer = 0 → (Update.upgradeUpgradableToWrite.run s.stat).isSome = true
  release : ∀ i a u g r, (s.slots i).instr a = some (.update u g r) → u.givesUp = true →
    ¬ Lent s i → (u.run s.stat).isSome = true
  gone : (∀ ρ, s.live ρ = 0) → (fields s.stat).count = 0 ∧
    (fields s.stat).writerActive = false ∧ (fields s.stat).upgradeActive = false

theorem upgradableSound_of_faithful (hw : 8 ≤ w) {s : Config w ι T} (hF : Faithful s) :
    UpgradableSound s where
  single := hF.exact.single
  upgradable := by
    intro i hi hr _
    have hup := live_pos hi
    have hone := hF.exact.single
    have hU := hF.exact.upgradable.mpr hup
    have hc : (fields s.stat).count = 1 := by
      rw [hF.exact.count]
      omega
    rw [Update.isSome_run hw]
    simp [Update.admits, hU, hc]
  release := by
    intro i a u g r hi hu hL
    exact release_granted hw hF hi hu hL
  gone := by
    intro h0
    refine ⟨?_, hF.owned.inactive (h0 .writer), hF.readers.inactive (h0 .upgradable)⟩
    rw [hF.exact.count, h0, h0]

variable [DecidableEq ι]

/-! ## 2. The downgrade and everything else -/

/-- **The downgrade makes a second upgradable holder.** -/
theorem two_holders_of_downgradesPinned (hw : 8 ≤ w) {t : LockTrans w ι T}
    (h : step t.pre t.act = some t.post) (hE : Exclusive t.pre) (hP : DowngradesPinned t) :
    2 ≤ t.post.live .upgradable := by
  obtain ⟨ha, u, hu, hup⟩ := hP
  have hwr : 0 < t.pre.live .writer := live_pos (holds_of_slot hu rfl)
  have hW := hE.alone.word hwr
  have hlive := live_pos hup
  rcases update_books h ha with ⟨-, hl, -⟩ | ⟨hnone, -, -⟩
  · have lu := hl .upgradable
    simp only [Update.takes, Update.gives] at lu
    omega
  · have hadm := Update.not_admits_of_run hw hnone
    rw [show Update.downgradeWriteToUpgradable.admits _ _ = _ from hW] at hadm
    cases hadm

/-- **The upgradable hold is sound along a run exactly when no pinned WriterGuard is downgraded
    to an upgradable one.** The downgrade breaks it whatever else the run does; in a run that
    respects the borrow and leaks no guard nothing else breaks it. -/
theorem upgradable_sound_iff (hw : 8 ≤ w) {d : T} {ts : List (LockTrans w ι T)}
    {s : Config w ι T} (hr : Run step (init w ι d) ts s) (hO : ∀ t ∈ ts, ¬ Overflows t)
    (hR : ∀ t ∈ ts, ¬ Reupgrades t) :
    (∀ t ∈ ts, DowngradesPinned t → ¬ UpgradableSound t.post) ∧
      ((∀ t ∈ ts, ¬ Leaks t ∧ ¬ BreaksBorrow t) →
        ((∀ t ∈ ts, UpgradableSound t.post) ↔ ∀ t ∈ ts, ¬ DowngradesPinned t)) := by
  have hbreak : ∀ t ∈ ts, DowngradesPinned t → ¬ UpgradableSound t.post := by
    intro t ht hP hS
    obtain ⟨h, hE, -⟩ := Run.invariant_mem (exclusive_init hw d) (exclusive_step hw) hr
      (fun t ht => ⟨hO t ht, hR t ht⟩) ht
    have htwo := two_holders_of_downgradesPinned hw h hE hP
    have hone := hS.single
    omega
  refine ⟨hbreak, fun hC => ⟨fun hS t ht hP => hbreak t ht hP (hS t ht), fun hP t ht => ?_⟩⟩
  obtain ⟨-, -, hF⟩ := Run.invariant_mem (faithful_init hw d) (faithful_step hw) hr
    (fun t ht => ⟨(hC t ht).1, (hC t ht).2, hO t ht, hP t ht⟩) ht
  exact upgradableSound_of_faithful hw hF

/-- Upgrade, downgrade, drop the new guard, drop the `Upgrade`: nobody holds the lock, and the
    counter stays at one. -/
theorem pinned_downgrade_loses_unit :
    ∃ ts s, Run step (init 8 (Fin 2) ()) ts s ∧ (∀ t ∈ ts, ¬ Leaks t) ∧
      (∀ t ∈ ts, ¬ BreaksBorrow t) ∧ (∀ t ∈ ts, ¬ Overflows t) ∧ (∀ i, s.slots i = .idle) ∧
      s.stat = 1#8 ∧ ¬ UpgradableSound s := by
  obtain ⟨ts, s, hr, hL, hB, hO, hidle, hs, hlive⟩ := Run.of_exec step (init 8 (Fin 2) ())
    (acquire .upgradableRead 0 ++ [.run 0 .upgrade, .run 0 (.startUpgrade .once),
      .attemptUpgrade 0 1, .run 1 .downgradeToUpgradable, .run 1 .drop, .run 0 .drop])
    (fun ts s => (∀ t ∈ ts, ¬ Leaks t) ∧ (∀ t ∈ ts, ¬ BreaksBorrow t) ∧
      (∀ t ∈ ts, ¬ Overflows t) ∧ (∀ i, s.slots i = .idle) ∧ s.stat = 1#8 ∧
      s.live .reader = 0 ∧ s.live .upgradable = 0 ∧ s.live .writer = 0) (by decide)
  refine ⟨ts, s, hr, hL, hB, hO, hidle, hs, fun hS => ?_⟩
  obtain ⟨h1, h2, h3⟩ := hlive
  have hgone := (hS.gone fun ρ => by cases ρ <;> assumption).1
  rw [hs] at hgone
  exact absurd hgone (by decide)

/-- The criterion at work: a consumed upgrade downgraded to upgradable and upgraded again. -/
theorem upgradable_sound_iff_consumed :
    ∃ ts s, Run step (init 8 (Fin 1) ()) ts s ∧ ∀ t ∈ ts, UpgradableSound t.post := by
  obtain ⟨ts, s, hr, hO, hR, hC, hP⟩ := Run.of_exec step (init 8 (Fin 1) ())
    (acquire .upgradableRead 0 ++ [.run 0 .tryUpgrade, .run 0 .dropMoved,
      .run 0 .downgradeToUpgradable, .run 0 .tryUpgrade])
    (fun ts _ => (∀ t ∈ ts, ¬ Overflows t) ∧ (∀ t ∈ ts, ¬ Reupgrades t) ∧
      (∀ t ∈ ts, ¬ Leaks t ∧ ¬ BreaksBorrow t) ∧ ∀ t ∈ ts, ¬ DowngradesPinned t) (by decide)
  exact ⟨ts, s, hr, ((upgradable_sound_iff (by decide) hr hO hR).2 hC).mpr hP⟩

end Runs

end AtomicSync.RwLock
