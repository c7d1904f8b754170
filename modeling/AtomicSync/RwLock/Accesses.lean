/-
  File:      AtomicSync/RwLock/Accesses.lean
  Subject:   The lock by single accesses of its word: every update is a loop of weak exchanges.

  The machine of Machine.lean makes each `try_spin_update_` in one step. The code makes it in many:
  a load of the word, then one weak exchange after the other, each against the value read last,
  until one succeeds or the predicate refuses the value at hand. Between any two of them the other
  threads go on, and any exchange may fail spuriously.

  * `Config.Spinning` -- the lock, its users, and for each slot the update it is in the middle of;
    `spinStep`, one access;
  * `Spinning.settled` -- the same lock without half-made updates. An update is granted in the
    exchange that succeeds; it is refused where its loop READS the value the predicate refuses,
    which may be long before the loop returns;
  * `maps_to_updates` -- `settled` is a refinement mapping to the machine of whole updates;
  * **`accesses_are_updates`** -- so every run by accesses is a run by updates, transition by
    transition, and the word and the data are those of that run at every moment;
  * **`mutual_exclusion_of_accesses`** -- exclusion for the code as it runs;
  * **`at_rest_iff`** -- the two machines reach the same states with no update in progress.
-/
import AtomicSync.Lib.Simulation
import AtomicSync.RwLock.Exclusion

namespace AtomicSync.RwLock

open Atomics

variable {w : ℕ} {ι T : Type}

/-! ## 1. The two functions of an update -/

namespace Update

open RwLockState

/-- The `expect` passed to `try_spin_update_`. -/
def expect : Update → BitVec w → Bool
  | writerGuardDrop => expectWriterActive
  | decreaseReaderCount => expectReaderGtMin
  | tryRead => expectCanRead
  | tryWrite => expectCanWrite
  | tryWriteQueue => expectWriterNotQueued
  | tryUpgradableRead => expectWriteNotQueuedAndUpgradeInactive
  | upgradableReadDrop => expectUpgradeActive
  | downgradeWriteToRead => expectWriterActive
  | downgradeWriteToUpgradable => expectWriterActive
  | downgradeUpgradableToRead => expectCanDowngradeToRead
  | upgradeUpgradableToWrite => expectCanUpgrade

/-- The `desire` passed to it. -/
def desire : Update → BitVec w → BitVec w
  | writerGuardDrop => desireWriterNotQueuedInactive
  | decreaseReaderCount => desireDecReader
  | tryRead => desireIncReader
  | tryWrite => desireWriterActive
  | tryWriteQueue => desireWriterQueued
  | tryUpgradableRead => desireUpgradeActiveAndReaderInc
  | upgradableReadDrop => desireUpgradeInactiveAndReaderDec
  | downgradeWriteToRead => desireWriteToRead
  | downgradeWriteToUpgradable => desireWriteToUpgradable
  | downgradeUpgradableToRead => desireUpgradeInactive
  | upgradeUpgradableToWrite => desireUpgradableToWrite

theorem run_eq (u : Update) (s : BitVec w) :
    u.run s = trySpinCompareExchangeWeak u.expect u.desire s := by
  cases u <;> rfl

theorem run_of_not_expect {u : Update} {s : BitVec w} (h : u.expect s = false) :
    u.run s = none := by
  rw [run_eq, trySpinCompareExchangeWeak, h]
  rfl

end Update

/-! ## 2. The machine by accesses -/

/-- Which update of a slot is being made: that of an action, or the pinned upgrade. -/
inductive Site where
  | own (a : Action)
  | pinned
  deriving DecidableEq, Repr

/-- The site of a step; a store is none. -/
def site : Act ι T → Option Site
  | .run _ a => some (.own a)
  | .attemptUpgrade _ _ => some .pinned
  | .store _ _ => none

/-- The update made at a site, and the slot's contents should it be refused. -/
def Slot.atSite (c : Slot ι) : Site → Option (Update × Slot ι)
  | .own a =>
    match c.instr a with
    | some (.update u _ r) => some (u, r)
    | _ => none
  | .pinned =>
    match c with
    | .upgrading m => some (.upgradeUpgradableToWrite, upgradeRefusal m)
    | _ => none

/-- **An update in progress**: its site, and the value its loop has read last. -/
structure Spin (w : ℕ) where
  site : Site
  current : BitVec w
  deriving DecidableEq

/-- The lock, its users and the updates in progress. -/
structure Config.Spinning (w : ℕ) (ι T : Type) extends Config w ι T where
  spins : ι → Option (Spin w)

/-- One access: the load an update begins with, one weak exchange of it, or a step that makes no
    update. -/
inductive Access (ι T : Type) where
  | load (a : Act ι T)
  | exchange (a : Act ι T) (spurious : Bool)
  | plain (a : Act ι T)
  deriving DecidableEq, Repr

/-- No update in progress. -/
def Config.atRest (c : Config w ι T) : Config.Spinning w ι T := ⟨c, fun _ => none⟩

variable [DecidableEq ι]

namespace Config.Spinning

/-- Slot `i` is now at `sp`. -/
def spin (s : Config.Spinning w ι T) (i : ι) (sp : Option (Spin w)) : Config.Spinning w ι T :=
  { s with spins := Function.update s.spins i sp }

/-- One weak exchange of the update `u` in slot `i`, at `sp`. A refusal leaves `r` in the slot; on
    success the word was `current`, and `c` is the machine's own step on it. -/
def exchange (s : Config.Spinning w ι T) (i : ι) (sp : Spin w) (u : Update) (r : Slot ι)
    (c : Config w ι T) (spurious : Bool) : Config.Spinning w ι T :=
  match (tryOnceCompareExchangeWeak u.expect u.desire spurious sp.current s.stat).1 with
  | .succ _ => { s with toConfig := c }.spin i none
  | .fail found => s.spin i (some { sp with current := found })
  | .unexpected _ => { s with toConfig := s.put i r }.spin i none

end Config.Spinning

open Config.Spinning

/-- **One access.** -/
def spinStep (s : Config.Spinning w ι T) : Access ι T → Option (Config.Spinning w ι T)
  | .load a =>
    match s.spins (actor a), site a, updateAt s.toConfig a, step s.toConfig a with
    | none, some st, some _, some _ => some (s.spin (actor a) (some ⟨st, s.stat⟩))
    | _, _, _, _ => none
  | .exchange a spurious =>
    match s.spins (actor a), (site a).bind (s.slots (actor a)).atSite, step s.toConfig a with
    | some sp, some (u, r), some c =>
      if site a = some sp.site then some (s.exchange (actor a) sp u r c spurious) else none
    | _, _, _ => none
  | .plain a =>
    match s.spins (actor a), updateAt s.toConfig a with
    | none, none => (step s.toConfig a).map fun c => { s with toConfig := c }
    | _, _ => none

/-- The shapes of an access, with everything it required and everything it changed. -/
inductive SpinCase (s : Config.Spinning w ι T) : Access ι T → Config.Spinning w ι T → Prop where
  | loaded (a : Act ι T) (st : Site) (u : Update) (c : Config w ι T)
      (hn : s.spins (actor a) = none) (hst : site a = some st)
      (ha : updateAt s.toConfig a = some u) (hc : step s.toConfig a = some c) :
      SpinCase s (.load a) (s.spin (actor a) (some ⟨st, s.stat⟩))
  | swapped (a : Act ι T) (b : Bool) (sp : Spin w) (u : Update) (r : Slot ι) (c : Config w ι T)
      (hs : s.spins (actor a) = some sp) (hst : site a = some sp.site)
      (hu : (s.slots (actor a)).atSite sp.site = some (u, r)) (he : u.expect sp.current = true)
      (ho : (tryOnceCompareExchangeWeak u.expect u.desire b sp.current s.stat).1 =
        .succ sp.current) (hc : step s.toConfig a = some c) :
      SpinCase s (.exchange a b) ({ s with toConfig := c }.spin (actor a) none)
  | failed (a : Act ι T) (b : Bool) (sp : Spin w) (u : Update) (r : Slot ι) (c : Config w ι T)
      (hs : s.spins (actor a) = some sp) (hst : site a = some sp.site)
      (hu : (s.slots (actor a)).atSite sp.site = some (u, r)) (he : u.expect sp.current = true)
      (ho : (tryOnceCompareExchangeWeak u.expect u.desire b sp.current s.stat).1 = .fail s.stat)
      (hc : step s.toConfig a = some c) :
      SpinCase s (.exchange a b) (s.spin (actor a) (some { sp with current := s.stat }))
  | returned (a : Act ι T) (b : Bool) (sp : Spin w) (u : Update) (r : Slot ι) (c : Config w ι T)
      (hs : s.spins (actor a) = some sp) (hst : site a = some sp.site)
      (hu : (s.slots (actor a)).atSite sp.site = some (u, r)) (he : u.expect sp.current = false)
      (ho : (tryOnceCompareExchangeWeak u.expect u.desire b sp.current s.stat).1 =
        .unexpected sp.current) (hc : step s.toConfig a = some c) :
      SpinCase s (.exchange a b) ({ s with toConfig := s.put (actor a) r }.spin (actor a) none)
  | plain (a : Act ι T) (c : Config w ι T) (hn : s.spins (actor a) = none)
      (ha : updateAt s.toConfig a = none) (hc : step s.toConfig a = some c) :
      SpinCase s (.plain a) { s with toConfig := c }

/-- **The inversion of an access.** -/
theorem spinStep_cases {s s' : Config.Spinning w ι T} {x : Access ι T}
    (h : spinStep s x = some s') : SpinCase s x s' := by
  cases x with
  | load a =>
      simp only [spinStep] at h
      split at h
      · next st u c hn hst ha hc =>
        cases h
        exact .loaded a st u c hn hst ha hc
      · cases h
  | exchange a b =>
      simp only [spinStep] at h
      split at h
      · next sp u r c hs hu hc =>
        split at h
        · next hst =>
          cases h
          rw [hst, Option.bind_some] at hu
          unfold Config.Spinning.exchange
          rcases tryOnce_cases u.expect u.desire b sp.current s.stat with
            ⟨he, -, ho⟩ | ⟨he, -, ho⟩ | ⟨he, ho⟩
          · rw [ho]
            exact .swapped a b sp u r c hs hst hu he (by rw [ho]) hc
          · rw [ho]
            exact .failed a b sp u r c hs hst hu he (by rw [ho]) hc
          · rw [ho]
            exact .returned a b sp u r c hs hst hu he (by rw [ho]) hc
        · cases h
      · cases h
  | plain a =>
      simp only [spinStep] at h
      split at h
      · next hn ha =>
        obtain ⟨c, hc, rfl⟩ := Option.map_eq_some_iff.mp h
        exact .plain a c hn ha hc
      · cases h

/-- A shape of an access is one. -/
theorem spinStep_of_case {s s' : Config.Spinning w ι T} {x : Access ι T} (h : SpinCase s x s') :
    spinStep s x = some s' := by
  cases h with
  | loaded a st u c hn hst ha hc => simp only [spinStep, hn, hst, ha, hc]
  | swapped a b sp u r c hs hst hu he ho hc =>
      simp [spinStep, Config.Spinning.exchange, hs, hst, hu, ho, hc]
  | failed a b sp u r c hs hst hu he ho hc =>
      simp [spinStep, Config.Spinning.exchange, hs, hst, hu, ho, hc]
  | returned a b sp u r c hs hst hu he ho hc =>
      simp [spinStep, Config.Spinning.exchange, hs, hst, hu, ho, hc]
  | plain a c hn ha hc => simp only [spinStep, hn, ha, hc, Option.map_some]

/-! ## 3. The same lock without half-made updates -/

omit [DecidableEq ι] in
/-- The contents of a slot, with the update it may be in the middle of decided: an update whose
    loop has read a value the predicate refuses is refused already. -/
def Spin.settle (c : Slot ι) : Option (Spin w) → Slot ι
  | none => c
  | some sp =>
    match c.atSite sp.site with
    | some (u, r) => if u.expect sp.current then c else r
    | none => c

/-- The lock and its users, every update decided or not begun. -/
def Config.Spinning.settled (s : Config.Spinning w ι T) : Config w ι T :=
  { s.toConfig with slots := fun i => Spin.settle (s.slots i) (s.spins i) }

/-- The update that takes place in an access: granted in the exchange that succeeds, refused in
    the load or the failed exchange that reads a value the predicate refuses. -/
def takesPlace (t : Trans (Config.Spinning w ι T) (Access ι T)) : Option (Act ι T) :=
  match t.act with
  | .load a =>
    match updateAt t.pre.toConfig a with
    | some u => if u.expect t.pre.stat then none else some a
    | none => none
  | .exchange a b =>
    match t.pre.spins (actor a), (site a).bind (t.pre.slots (actor a)).atSite with
    | some sp, some (u, _) =>
      match (tryOnceCompareExchangeWeak u.expect u.desire b sp.current t.pre.stat).1 with
      | .succ _ => some a
      | .fail found => if u.expect found then none else some a
      | .unexpected _ => none
    | _, _ => none
  | .plain a => some a

/-- A slot with an update in progress holds what the update is made from. -/
def Sited (s : Config.Spinning w ι T) : Prop :=
  ∀ i sp, s.spins i = some sp → ((s.slots i).atSite sp.site).isSome = true

omit [DecidableEq ι] in
theorem sited_atRest (c : Config w ι T) : Sited c.atRest := by
  intro i sp h
  cases h

omit [DecidableEq ι] in
/-- A slot with no update in progress is what it is. -/
theorem settled_slot {s : Config.Spinning w ι T} {i : ι} (h : s.spins i = none) :
    s.settled.slots i = s.slots i := by
  show Spin.settle (s.slots i) (s.spins i) = s.slots i
  rw [h]
  rfl

omit [DecidableEq ι] in
/-- An idle slot has no update in progress. -/
theorem settled_idle {s : Config.Spinning w ι T} (hs : Sited s) {j : ι} (hj : s.slots j = .idle) :
    s.spins j = none := by
  cases h : s.spins j with
  | none => rfl
  | some sp =>
    have hsite := hs j sp h
    rw [hj] at hsite
    cases hst : sp.site with
    | pinned => rw [hst] at hsite; cases hsite
    | own a => rw [hst] at hsite; cases a <;> cases hsite

/-- One slot changes its contents and the update it is in the middle of. -/
theorem settled_put (s : Config.Spinning w ι T) (l : SpinningRwLock w T) (i : ι) (c : Slot ι)
    (sp : Option (Spin w)) :
    Config.Spinning.settled ⟨⟨l, Function.update s.slots i c⟩, Function.update s.spins i sp⟩ =
      ⟨l, Function.update s.settled.slots i (Spin.settle c sp)⟩ := by
  have hslots : (fun j => Spin.settle (Function.update s.slots i c j)
      (Function.update s.spins i sp j)) =
      Function.update s.settled.slots i (Spin.settle c sp) := by
    funext j
    by_cases hj : j = i
    · subst hj
      simp only [Function.update_self]
    · simp only [Function.update_of_ne hj]
      rfl
  show (⟨l, _⟩ : Config w ι T) = _
  rw [← hslots]

/-- … or only the latter. -/
theorem settled_spin (s : Config.Spinning w ι T) (i : ι) (sp : Option (Spin w)) :
    (s.spin i sp).settled = s.settled.put i (Spin.settle (s.slots i) sp) := by
  have h := settled_put s s.toSpinningRwLock i (s.slots i) sp
  rw [Function.update_eq_self] at h
  exact h

/-- What is decided of a slot without the update it is in the middle of. -/
theorem settled_spin_same {s : Config.Spinning w ι T} {i : ι} {sp : Option (Spin w)}
    (h : Spin.settle (s.slots i) sp = s.settled.slots i) : (s.spin i sp).settled = s.settled := by
  rw [settled_spin, h]
  show (⟨s.toSpinningRwLock, Function.update s.settled.slots i (s.settled.slots i)⟩ :
    Config w ι T) = s.settled
  rw [Function.update_eq_self]
  rfl

/-! ## 4. The refinement -/

/-- **A whole step is one of the settled lock**, where the slot that takes it is settled. -/
theorem settled_step {s : Config.Spinning w ι T} (hs : Sited s) {a : Act ι T} {c : Config w ι T}
    (h : step s.toConfig a = some c) (ha : s.settled.slots (actor a) = s.slots (actor a)) :
    step s.settled a = some ({ s with toConfig := c }.spin (actor a) none).settled := by
  cases step_cases h with
  | move i b x hi =>
      have e := settled_put s s.toSpinningRwLock i x none
      exact step_of_case (e ▸ .move i b x (ha ▸ hi))
  | granted i b u g r stat' hi hu =>
      have e := settled_put s ⟨stat', s.data⟩ i g none
      exact step_of_case (e ▸ .granted i b u g r stat' (ha ▸ hi) hu)
  | refused i b u g r hi hu =>
      have e := settled_put s s.toSpinningRwLock i r none
      exact step_of_case (e ▸ .refused i b u g r (ha ▸ hi) hu)
  | notLent i j m hi hj hu =>
      have e := settled_put s s.toSpinningRwLock i (upgradeRefusal m) none
      have hj' := (settled_slot (settled_idle hs hj)).trans hj
      exact step_of_case (e ▸ .notLent i j m (ha.trans hi) hj' hu)
  | store i o v hi =>
      have e := settled_put s ⟨s.stat, v⟩ i (s.slots i) none
      have hsame : Spin.settle (s.slots i) (none : Option (Spin w)) = s.settled.slots i := ha.symm
      rw [Function.update_eq_self, hsame, Function.update_eq_self] at e
      exact step_of_case (e ▸ .store i o v (ha.trans hi))
  | lent i j m stat' hi hj hu =>
      have hjn := settled_idle hs hj
      have hij : j ≠ i := fun hji => by rw [hji, hi] at hj; cases hj
      have e := settled_put s ⟨stat', s.data⟩ i .upgrade none
      have e' := settled_put ⟨⟨⟨stat', s.data⟩, Function.update s.slots i .upgrade⟩,
        Function.update s.spins i none⟩ ⟨stat', s.data⟩ j (.writer (.pinned i)) none
      have hkeep : Function.update (Function.update s.spins i none) j none =
          Function.update s.spins i none :=
        Function.update_eq_self_iff.mpr ((Function.update_of_ne hij _ _).trans hjn).symm
      rw [hkeep, e] at e'
      have hj' := (settled_slot hjn).trans hj
      exact step_of_case (e' ▸ .lent i j m stat' (ha.trans hi) hj' hu)

/-- A step that may update the word is at a site of its slot. -/
theorem atSite_of_step {s c : Config w ι T} {a : Act ι T} (h : step s a = some c) {u : Update}
    (ha : updateAt s a = some u) {st : Site} (hst : site a = some st) :
    ∃ r, (s.slots (actor a)).atSite st = some (u, r) := by
  rcases instr_of_updateAt ha with ⟨i, b, g, r, rfl, hi⟩ | ⟨i, j, rfl, rfl⟩
  · cases hst
    refine ⟨r, ?_⟩
    show (s.slots i).atSite (.own b) = some (u, r)
    simp only [Slot.atSite, hi]
  · cases hst
    obtain ⟨m, hi⟩ := upgrading_of_step h
    refine ⟨upgradeRefusal m, ?_⟩
    show (s.slots i).atSite .pinned = some (.upgradeUpgradableToWrite, upgradeRefusal m)
    simp only [Slot.atSite, hi]

/-- … and refused there it leaves what the site says. -/
theorem refused_at_site {s c : Config w ι T} {a : Act ι T} (h : step s a = some c) {st : Site}
    (hst : site a = some st) {u : Update} {r : Slot ι}
    (hu : (s.slots (actor a)).atSite st = some (u, r)) (hn : u.run s.stat = none) :
    c = s.put (actor a) r := by
  cases step_cases h with
  | move i b x hi =>
      cases hst
      simp [Slot.atSite, actor, hi] at hu
  | granted i b u' g r' stat' hi hrun =>
      cases hst
      simp only [Slot.atSite, actor, hi, Option.some.injEq, Prod.mk.injEq] at hu
      rw [hu.1, hn] at hrun
      cases hrun
  | refused i b u' g r' hi hrun =>
      cases hst
      simp only [Slot.atSite, actor, hi, Option.some.injEq, Prod.mk.injEq] at hu
      rw [← hu.2]
      rfl
  | lent i j m stat' hi hj hrun =>
      cases hst
      simp only [Slot.atSite, actor, hi, Option.some.injEq, Prod.mk.injEq] at hu
      rw [hu.1, hn] at hrun
      cases hrun
  | notLent i j m hi hj hrun =>
      cases hst
      simp only [Slot.atSite, actor, hi, Option.some.injEq, Prod.mk.injEq] at hu
      rw [← hu.2]
      rfl
  | store i o v hi => cases hst

omit [DecidableEq ι] in
theorem settle_accepted {c r : Slot ι} {p : Spin w} {u : Update}
    (hu : c.atSite p.site = some (u, r)) (he : u.expect p.current = true) :
    Spin.settle c (some p) = c := by
  simp only [Spin.settle, hu, he, if_true]

omit [DecidableEq ι] in
theorem settle_refused {c r : Slot ι} {p : Spin w} {u : Update}
    (hu : c.atSite p.site = some (u, r)) (he : u.expect p.current = false) :
    Spin.settle c (some p) = r := by
  simp only [Spin.settle, hu, he, Bool.false_eq_true, if_false]

/-- **The access that reads a value the predicate refuses is the refused update.** -/
theorem settled_refusal {s : Config.Spinning w ι T} (hs : Sited s) {a : Act ι T}
    {c : Config w ι T} (h : step s.toConfig a = some c) {st : Site} (hst : site a = some st)
    {u : Update} {r : Slot ι} (hu : (s.slots (actor a)).atSite st = some (u, r))
    (ha : s.settled.slots (actor a) = s.slots (actor a)) (he : u.expect s.stat = false) :
    step s.settled a = some (s.spin (actor a) (some ⟨st, s.stat⟩)).settled := by
  have hstep := settled_step hs h ha
  obtain rfl := refused_at_site h hst hu (Update.run_of_not_expect he)
  have hput := settled_put s s.toSpinningRwLock (actor a) r none
  rw [hstep, settled_spin s, settle_refused (p := ⟨st, s.stat⟩) hu he]
  exact congrArg some hput

/-- Every slot but the actor's, and the free one a guard is lent into, is as it was. -/
theorem slots_of_step {s c : Config w ι T} {a : Act ι T} (h : step s a = some c) {k : ι}
    (hk : k ≠ actor a) (hidle : s.slots k ≠ .idle) : c.slots k = s.slots k := by
  cases step_cases h with
  | move i b x hi => exact Config.put_slots_of_ne s hk x
  | granted i b u g r stat' hi hu => exact Config.put_slots_of_ne s hk g
  | refused i b u g r hi hu => exact Config.put_slots_of_ne s hk r
  | notLent i j m hi hj hu => exact Config.put_slots_of_ne s hk _
  | store i o v hi => rfl
  | lent i j m stat' hi hj hu =>
      have hkj : k ≠ j := fun e => hidle (e ▸ hj)
      exact (Config.put_slots_of_ne _ hkj _).trans (Config.put_slots_of_ne s hk _)

omit [DecidableEq ι] in
theorem sited_slot {s : Config.Spinning w ι T} (hs : Sited s) {i : ι} {sp : Spin w}
    (h : s.spins i = some sp) : s.slots i ≠ .idle := by
  intro hi
  rw [settled_idle hs hi] at h
  cases h

/-- A slot's update ends, every other one goes on. -/
theorem sited_end {s : Config.Spinning w ι T} (hs : Sited s) {i : ι} {c : Config w ι T}
    (hc : ∀ k, k ≠ i → s.slots k ≠ .idle → c.slots k = s.slots k) :
    Sited ({ s with toConfig := c }.spin i none) := by
  intro k sp hk
  change Function.update s.spins i none k = some sp at hk
  by_cases hki : k = i
  · rw [hki, Function.update_self] at hk
    cases hk
  · rw [Function.update_of_ne hki] at hk
    show ((c.slots k).atSite sp.site).isSome = true
    rw [hc k hki (sited_slot hs hk)]
    exact hs k sp hk

/-- A slot's update begins or goes on. -/
theorem sited_spin {s : Config.Spinning w ι T} (hs : Sited s) {i : ι} {sp : Spin w}
    (hi : ((s.slots i).atSite sp.site).isSome = true) : Sited (s.spin i (some sp)) := by
  intro k sp' hk
  change Function.update s.spins i (some sp) k = some sp' at hk
  by_cases hki : k = i
  · subst hki
    rw [Function.update_self] at hk
    cases hk
    exact hi
  · rw [Function.update_of_ne hki] at hk
    exact hs k sp' hk

/-- A step without an update in progress in its slot. -/
theorem spin_none {s : Config.Spinning w ι T} {i : ι} (h : s.spins i = none) (c : Config w ι T) :
    { s with toConfig := c }.spin i none = { s with toConfig := c } := by
  unfold Config.Spinning.spin
  rw [Function.update_eq_self_iff.mpr h.symm]

theorem sited_step {s s' : Config.Spinning w ι T} {x : Access ι T} (h : spinStep s x = some s')
    (hs : Sited s) : Sited s' := by
  cases spinStep_cases h with
  | loaded a st u c hn hst ha hc =>
      obtain ⟨r, hr⟩ := atSite_of_step hc ha hst
      exact sited_spin hs (by rw [hr]; rfl)
  | swapped a b sp u r c hsp hst hu he ho hc =>
      exact sited_end hs fun k hk hidle => slots_of_step hc hk hidle
  | failed a b sp u r c hsp hst hu he ho hc => exact sited_spin hs (by rw [hu]; rfl)
  | returned a b sp u r c hsp hst hu he ho hc =>
      exact sited_end hs fun k hk _ => Config.put_slots_of_ne s.toConfig hk r
  | plain a c hn ha hc =>
      rw [← spin_none hn c]
      exact sited_end hs fun k hk hidle => slots_of_step hc hk hidle

/-- **The lock by accesses is the lock by updates**, each update decided in one of its accesses. -/
theorem maps_to_updates :
    Maps (spinStep (w := w) (ι := ι) (T := T)) Sited takesPlace step Config.Spinning.settled where
  keeps s x s' h hs := sited_step h hs
  action := by
    intro t h hs b hl
    obtain ⟨s, x, s'⟩ := t
    change spinStep s x = some s' at h
    change Sited s at hs
    show step s.settled b = some s'.settled
    cases spinStep_cases h with
    | loaded a st u c hn hst ha hc =>
        obtain ⟨r, hr⟩ := atSite_of_step hc ha hst
        cases he : u.expect s.stat with
        | true => simp [takesPlace, ha, he] at hl
        | false =>
            obtain rfl : a = b := by simpa [takesPlace, ha, he] using hl
            exact settled_refusal hs hc hst hr (settled_slot hn) he
    | swapped a k sp u r c hsp hst hu he ho hc =>
        obtain rfl : a = b := by simpa [takesPlace, hsp, hst, hu, ho] using hl
        have hslot : s.settled.slots (actor a) = s.slots (actor a) := by
          show Spin.settle _ (s.spins (actor a)) = _
          rw [hsp, settle_accepted hu he]
        exact settled_step hs hc hslot
    | failed a k sp u r c hsp hst hu he ho hc =>
        cases hx : u.expect s.stat with
        | true => simp [takesPlace, hsp, hst, hu, ho, hx] at hl
        | false =>
            obtain rfl : a = b := by simpa [takesPlace, hsp, hst, hu, ho, hx] using hl
            have hslot : s.settled.slots (actor a) = s.slots (actor a) := by
              show Spin.settle _ (s.spins (actor a)) = _
              rw [hsp, settle_accepted hu he]
            exact settled_refusal hs hc hst hu hslot hx
    | returned a k sp u r c hsp hst hu he ho hc => simp [takesPlace, hsp, hst, hu, ho] at hl
    | plain a c hn ha hc =>
        obtain rfl : a = b := by simpa [takesPlace] using hl
        rw [← spin_none hn c]
        exact settled_step hs hc (settled_slot hn)
  silent := by
    intro t h hs hl
    obtain ⟨s, x, s'⟩ := t
    change spinStep s x = some s' at h
    change Sited s at hs
    show s'.settled = s.settled
    cases spinStep_cases h with
    | loaded a st u c hn hst ha hc =>
        obtain ⟨r, hr⟩ := atSite_of_step hc ha hst
        cases he : u.expect s.stat with
        | false => simp [takesPlace, ha, he] at hl
        | true =>
            refine settled_spin_same ?_
            rw [settled_slot hn, settle_accepted (p := ⟨st, s.stat⟩) hr he]
    | swapped a k sp u r c hsp hst hu he ho hc => simp [takesPlace, hsp, hst, hu, ho] at hl
    | failed a k sp u r c hsp hst hu he ho hc =>
        cases hx : u.expect s.stat with
        | false => simp [takesPlace, hsp, hst, hu, ho, hx] at hl
        | true =>
            refine settled_spin_same ?_
            show Spin.settle _ _ = Spin.settle _ (s.spins (actor a))
            rw [hsp, settle_accepted hu he,
              settle_accepted (p := { sp with current := s.stat }) hu hx]
    | returned a k sp u r c hsp hst hu he ho hc =>
        have hput := settled_put s s.toSpinningRwLock (actor a) r none
        have hslot : s.settled.slots (actor a) = Spin.settle r (none : Option (Spin w)) := by
          show Spin.settle _ (s.spins (actor a)) = _
          rw [hsp, settle_refused hu he]
          rfl
        rw [← hslot, Function.update_eq_self] at hput
        exact hput
    | plain a c hn ha hc => simp [takesPlace] at hl

/-! ## 5. Runs by accesses -/

/-- **A run by accesses is a run by updates**, over every interleaving of the single accesses of
    any number of calls and whichever weak exchanges fail: its updates, each taking place in one of
    its accesses, are a run of the machine of whole updates, which at every moment has the same
    word, the same data and, in every slot that is in the middle of no update, the same contents. -/
theorem accesses_are_updates {d : T} {ts : List (Trans (Config.Spinning w ι T) (Access ι T))}
    {s : Config.Spinning w ι T} (hr : Run spinStep (init w ι d).atRest ts s) :
    Run step (init w ι d) (image Config.Spinning.settled takesPlace ts) s.settled ∧
      s.settled.stat = s.stat ∧ s.settled.data = s.data ∧
      ∀ i, s.spins i = none → s.settled.slots i = s.slots i :=
  ⟨(maps_to_updates.run (sited_atRest _) hr).2, rfl, rfl, fun _ hi => settled_slot hi⟩

/-- The theorem at work: `try_read` loads a free word, loses its exchange to a writer and returns
    after that writer has left; its refusal took place in the lost exchange. -/
theorem accesses_are_updates_late_refusal :
    ∃ ts s, Run spinStep (init 8 (Fin 2) ()).atRest ts s ∧ s.slots 0 = .idle ∧ s.stat = 0#8 ∧
      Run step (init 8 (Fin 2) ()) (image Config.Spinning.settled takesPlace ts) s.settled := by
  obtain ⟨ts, s, hr, h0, hs⟩ := Run.of_exec spinStep (init 8 (Fin 2) ()).atRest
    [.plain (.run 0 (.call .read .once)), .load (.run 0 .attempt),
      .plain (.run 1 (.call .write .once)), .load (.run 1 .attempt),
      .exchange (.run 1 .attempt) false, .exchange (.run 0 .attempt) false,
      .load (.run 1 .drop), .exchange (.run 1 .drop) true, .exchange (.run 1 .drop) false,
      .exchange (.run 0 .attempt) false]
    (fun _ s => s.slots 0 = .idle ∧ s.stat = 0#8) (by decide)
  exact ⟨ts, s, hr, h0, hs, (accesses_are_updates hr).1⟩

/-- A whole step is a load and one exchange, or one plain access. -/
theorem accesses_of_step {c c' : Config w ι T} {a : Act ι T} (h : step c a = some c') :
    ∃ ts, Run spinStep c.atRest ts c'.atRest := by
  cases ha : updateAt c a with
  | none => exact ⟨_, Run.start.next (spinStep_of_case (.plain a c' rfl ha h))⟩
  | some u =>
      obtain ⟨st, hst⟩ : ∃ st, site a = some st := by
        cases a with
        | store i v => cases ha
        | _ => exact ⟨_, rfl⟩
      obtain ⟨r, hu⟩ := atSite_of_step h ha hst
      have hload := spinStep_of_case (s := c.atRest) (.loaded a st u c' rfl hst ha h)
      have hspin : (c.atRest.spin (actor a) (some ⟨st, c.stat⟩)).spins (actor a) =
        some ⟨st, c.stat⟩ := Function.update_self _ _ _
      have hrest : ∀ x : Config w ι T, { c.atRest.spin (actor a) (some ⟨st, c.stat⟩) with
          toConfig := x }.spin (actor a) none = x.atRest := by
        intro x
        have hgone : Function.update (Function.update c.atRest.spins (actor a)
            (some ⟨st, c.stat⟩)) (actor a) none = c.atRest.spins := by
          rw [Function.update_idem]
          exact Function.update_eq_self_iff.mpr rfl
        exact congrArg (Config.Spinning.mk x) hgone
      refine ⟨_, (Run.start.next hload).next (a := .exchange a false) ?_⟩
      rcases tryOnce_cases u.expect u.desire false c.stat c.stat with
        ⟨he, -, ho⟩ | ⟨-, hb, -⟩ | ⟨he, ho⟩
      · rw [← hrest c']
        exact spinStep_of_case
          (.swapped a false ⟨st, c.stat⟩ u r c' hspin hst hu he (congrArg Prod.fst ho) h)
      · cases hb rfl
      · obtain rfl := refused_at_site h hst hu (Update.run_of_not_expect he)
        rw [← hrest (c.put (actor a) r)]
        exact spinStep_of_case
          (.returned a false ⟨st, c.stat⟩ u r _ hspin hst hu he (congrArg Prod.fst ho) h)

/-- … and so a run of whole steps can be made by accesses. -/
theorem accesses_of_run {c c' : Config w ι T} {ts : List (LockTrans w ι T)}
    (hr : Run step c ts c') : ∃ us, Run spinStep c.atRest us c'.atRest := by
  induction hr with
  | start => exact ⟨[], .start⟩
  | next _ hs ih =>
      obtain ⟨us, hus⟩ := ih
      obtain ⟨vs, hvs⟩ := accesses_of_step hs
      exact ⟨vs ++ us, hus.append hvs⟩

/-- **The two machines reach the same states at rest**: a lock and its users, no update in
    progress, can be reached by updates iff it can be reached by accesses. -/
theorem at_rest_iff (d : T) (c : Config w ι T) :
    (∃ ts, Run step (init w ι d) ts c) ↔ ∃ ts, Run spinStep (init w ι d).atRest ts c.atRest :=
  ⟨fun ⟨_, hr⟩ => accesses_of_run hr, fun ⟨_, hr⟩ => ⟨_, (accesses_are_updates hr).1⟩⟩

section Exclusion

variable [Fintype ι]

/-- **Mutual exclusion of the code as it runs.** Along any run by accesses whose updates respect
    the borrow and never overflow the counter: beside a WriterGuard that is not being released
    there is no other, no ReaderGuard, and no UpgradableReaderGuard but the one it was upgraded
    from; the guards whose release is still undecided included. -/
theorem mutual_exclusion_of_accesses (hw : 8 ≤ w) {d : T}
    {ts : List (Trans (Config.Spinning w ι T) (Access ι T))} {s : Config.Spinning w ι T}
    (hr : Run spinStep (init w ι d).atRest ts s)
    (hC : ∀ t ∈ image Config.Spinning.settled takesPlace ts, ¬ BreaksBorrow t ∧ ¬ Overflows t)
    {j : ι} (hj : (s.slots j).holds .writer = true) (hjn : s.spins j = none) :
    (∀ i, (s.settled.slots i).holds .writer = true → i = j) ∧
      (∀ i, s.settled.slots i ≠ .reader) ∧
      ∀ v, (s.settled.slots v).holds .upgradable = true →
        (s.slots j).upgradedFrom j = some v := by
  have hrun := (accesses_are_updates hr).1
  have hE : Exclusive s.settled := hrun.invariant (exclusive_init hw d) (exclusive_step hw)
    fun t ht => ⟨(hC t ht).2, not_reupgrades (hC t ht).1⟩
  have hslot := settled_slot hjn
  have hwr : (s.settled.slots j).holds .writer = true := by rwa [hslot]
  obtain ⟨h1, h2, h3⟩ := hE.excludes hwr
  rw [hslot] at h3
  exact ⟨h1, h2, h3⟩

/-- The theorem at work: a writer, and a reader between its lost exchange and its return. -/
theorem mutual_exclusion_of_accesses_lost_exchange :
    ∃ ts s, Run spinStep (init 8 (Fin 2) ()).atRest ts s ∧ s.slots 1 = .writer .acquired ∧
      (s.spins 0).isSome = true ∧ ∀ i, s.settled.slots i ≠ .reader := by
  obtain ⟨ts, s, hr, h1, hn, h0, hC⟩ := Run.of_exec spinStep (init 8 (Fin 2) ()).atRest
    [.plain (.run 0 (.call .read .once)), .load (.run 0 .attempt),
      .plain (.run 1 (.call .write .once)), .load (.run 1 .attempt),
      .exchange (.run 1 .attempt) false, .exchange (.run 0 .attempt) false]
    (fun ts s => s.slots 1 = .writer .acquired ∧ s.spins 1 = none ∧ (s.spins 0).isSome = true ∧
      ∀ t ∈ image Config.Spinning.settled takesPlace ts, ¬ BreaksBorrow t ∧ ¬ Overflows t)
    (by decide)
  have hj : (s.slots 1).holds .writer = true := by
    rw [h1]
    rfl
  exact ⟨ts, s, hr, h1, h0, (mutual_exclusion_of_accesses (by decide) hr hC hj hn).2.1⟩

end Exclusion

end AtomicSync.RwLock
