/-
  File:      AtomicSync/Mutex/Progress.lean
  Subject:   Which calls of the spinning mutex can still come to their guard.

  A lock call goes on with the value it read last, and an exchange refused because that value is an
  acquired one brings no other. So a lock call that reads the mutex held once is doomed: from then
  on no drop of the guard reaches it, and nothing but its token gets it out. There is no other way
  to be kept out. With the holder gone the cell is the one it started with, and every call that is
  not doomed finds it in a few steps of its own.

  * **`lock_can_be_served_iff`** -- a lock call can still come to a guard iff it is not doomed;
  * **`can_all_end_iff`** -- without a token's help all slots can be empty again, and the cell as it
    was, iff no call is doomed.
-/
import Mathlib.Data.Finset.Card
import AtomicSync.Lib.Progress
import AtomicSync.Mutex.Serial

namespace AtomicSync.Mutex

open Atomics

variable {V ι T : Type} {S : MutexSignal V}

/-! ## 1. Doomed calls -/

/-- The slot is in a lock call that has neither succeeded nor been cancelled. -/
def Slot.awaits : Slot V → Bool
  | .loading .lock | .trying .lock _ | .polling _ => true
  | _ => false

/-- **A lock call that goes on with an acquired value.** -/
def Slot.doomed (S : MutexSignal V) : Slot V → Bool
  | .trying .lock current | .polling current => S.isAcquired current
  | _ => false

/-- The slot whose call or guard moves. -/
def Act.slot : Act ι T → ι
  | .run i _ | .store i _ => i

/-- The token answers that the call is cancelled. -/
def Act.cancels : Act ι T → Bool
  | .run _ (.poll cancelled) => cancelled
  | _ => false

/-- The call in slot `i` still waits when the step is taken. -/
def Awaiting (i : ι) (t : Trans (Config V ι T) (Act ι T)) : Prop :=
  (t.pre.slots i).awaits = true

theorem released_iff {v : V} : S.isReleased v = true ↔ S.isAcquired v = false := by
  rw [MutexSignal.isReleased, Bool.not_eq_true']

variable [DecidableEq ι] [DecidableEq V]

/-- **The step lemma**: a doomed call stays one until its token stops it, whoever does what. -/
theorem doomed_step {s s' : Config V ι T} {a : Act ι T} (h : step S s a = some s') {i : ι}
    (hi : (s.slots i).doomed S = true) (ha : a.slot = i → a.cancels = false) :
    (s'.slots i).doomed S = true := by
  by_cases hai : a.slot = i
  swap
  · rw [slots_other h fun b e => hai (by rw [e]; rfl)]
    exact hi
  subst hai
  have hne : ∀ c, s.slots a.slot = c → c.doomed S = true := fun c hc => hc ▸ hi
  -- an acquired value is not exchanged
  have hstale : ∀ m v, S.isReleased v = true → Slot.doomed S (.trying m v) ≠ true := by
    intro m v hv hd
    cases m with
    | tryLock => cases hd
    | lock => exact Bool.false_ne_true ((released_iff.mp hv).symm.trans hd)
  have hput : ∀ i c, c.doomed S = true → ((s.put i c).slots i).doomed S = true := by
    intro i c hc
    rw [Config.put_slots_self]
    exact hc
  cases step_cases h with
  | called i m hm => cases hne _ hm
  | loaded i m hm => cases hne _ hm
  | acquired i m hm hr => exact absurd (hne _ hm) (hstale m _ hr)
  | failed i m current b hm hr hb => exact absurd (hne _ hm) (hstale m _ hr)
  | refused i m current b hm hr =>
      have hd := hne _ hm
      cases m with
      | tryLock => cases hd
      | lock => exact hput i _ hd
  | polled i current b hm =>
      obtain rfl : b = false := ha rfl
      have hd := hne _ hm
      exact hput i _ hd
  | dropped i hm => cases hne _ hm
  | stored i v hm => cases hne _ hm

/-- A call whose token stops it gives its slot up. -/
theorem cancelled_step {s s' : Config V ι T} {a : Act ι T} (h : step S s a = some s')
    (ha : a.cancels = true) : s'.slots a.slot = .idle := by
  cases step_cases h with
  | polled i current b hm =>
      obtain rfl : b = true := ha
      exact Config.put_slots_self s i _
  | called i m hm => cases ha
  | loaded i m hm => cases ha
  | acquired i m hm hr => cases ha
  | failed i m current b hm hr hb => cases ha
  | refused i m current b hm hr => cases ha
  | dropped i hm => cases ha
  | stored i v hm => cases ha

/-! ## 2. A mutex nobody holds -/

/-- A step of slot `i`, its token not stopping it. -/
def Own (i : ι) (t : Trans (Config V ι T) (Act ι T)) : Prop :=
  t.act.slot = i ∧ t.act.cancels = false

omit [DecidableEq ι] [DecidableEq V] in
/-- Where nobody holds the mutex the cell is released. -/
theorem Serial.released {v₀ : V} (h0 : S.isReleased v₀ = true) {s : Config V ι T}
    (hs : Serial S v₀ s) (hn : ∀ j, s.slots j ≠ .guard) : S.isReleased s.state = true := by
  cases hs with
  | free _ hc => rw [hc, h0]
  | held i hi _ _ => exact absurd hi (hn i)

/-- The other slots are as they were. -/
theorem others {i j : ι} (hj : j ≠ i) {n : ℕ} {s s' : Config V ι T}
    (h : Within (step S) (Own i) n s s') : s'.slots j = s.slots j := by
  refine h.invariant (I := fun x => x.slots j = s.slots j) (fun t ht hC hI => ?_) rfl
  rw [slots_other ht fun b e => hj ?_]
  · exact hI
  · rw [← hC.1, e]
    rfl

variable {v₀ : V} {s : Config V ι T} {i : ι}

/-- An exchange against the word of the cell succeeds. -/
theorem takes {m : Mode} (hr : S.isReleased s.state = true) (hi : s.slots i = .trying m s.state) :
    ∃ s', step S s (.run i (.attempt false)) = some s' ∧ s'.slots i = .guard := by
  refine ⟨s.attempt S i m s.state false, by simp [step, hi], ?_⟩
  unfold Config.attempt tryOnceCompareExchangeWeak
  simp [hr, Config.put]

/-- A call that goes on with a released value has the guard in three steps: a stale one costs an
    iteration. -/
theorem served_trying (hr : S.isReleased s.state = true) {v : V} (hv : S.isReleased v = true)
    (hi : s.slots i = .trying .lock v) :
    ∃ s', Within (step S) (fun t => Own i t ∧ Awaiting i t) 3 s s' ∧ s'.slots i = .guard := by
  have hwait : Awaiting i ⟨s, .run i (.attempt false), s.attempt S i .lock v false⟩ := by
    unfold Awaiting
    rw [hi]
    rfl
  have hstep : step S s (.run i (.attempt false)) = some (s.attempt S i .lock v false) := by
    simp [step, hi]
  have hone := Within.one (C := fun t => Own i t ∧ Awaiting i t) hstep ⟨⟨rfl, rfl⟩, hwait⟩
  generalize s.attempt S i .lock v false = s₁ at hstep hone
  cases step_cases hstep with
  | acquired _ m hi' hr' =>
      exact ⟨_, hone.weaken (by decide), Config.put_slots_self s i _⟩
  | failed _ m current b hi' hr' hb =>
      rw [hi] at hi'
      cases hi'
      have h2 : step S (s.put i (.polling s.state)) (.run i (.poll false)) =
          some ((s.put i (.polling s.state)).put i (.trying .lock s.state)) := by
        simp [step]
      obtain ⟨s₃, h3, hs₃⟩ := takes (S := S) (s := (s.put i (.polling s.state)).put i
        (.trying .lock s.state)) (i := i) hr (Config.put_slots_self _ i _)
      refine ⟨s₃, (hone.trans (.one h2 ⟨⟨rfl, rfl⟩, ?_⟩)).trans (.one h3 ⟨⟨rfl, rfl⟩, ?_⟩), hs₃⟩
      · show ((s.put i (.polling s.state)).slots i).awaits = true
        rw [Config.put_slots_self]
        rfl
      · show (((s.put i _).put i (.trying .lock s.state)).slots i).awaits = true
        rw [Config.put_slots_self]
        rfl
  | refused _ m current b hi' hr' =>
      rw [hi] at hi'
      cases hi'
      rw [hv] at hr'
      cases hr'

/-- **A lock call that is not doomed has the guard in four steps of its own.** -/
theorem served (hr : S.isReleased s.state = true) (hi : (s.slots i).awaits = true)
    (hd : (s.slots i).doomed S = false) :
    ∃ s', Within (step S) (fun t => Own i t ∧ Awaiting i t) 4 s s' ∧ s'.slots i = .guard := by
  cases hc : s.slots i with
  | loading m =>
      rw [hc] at hi
      cases m with
      | tryLock => cases hi
      | lock =>
          have h1 : step S s (.run i .load) = some (s.put i (.trying .lock s.state)) := by
            simp [step, hc]
          obtain ⟨s₂, h2, hs₂⟩ := served_trying (S := S) (s := s.put i (.trying .lock s.state))
            (i := i) hr hr (Config.put_slots_self s i _)
          refine ⟨s₂, Within.trans (.one h1 ⟨⟨rfl, rfl⟩, ?_⟩) h2, hs₂⟩
          show (s.slots i).awaits = true
          rw [hc]
          rfl
  | trying m v =>
      rw [hc] at hi hd
      cases m with
      | tryLock => cases hi
      | lock =>
          obtain ⟨s₁, h1, hs₁⟩ := served_trying hr (released_iff.mpr hd) hc
          exact ⟨s₁, h1.weaken (by decide), hs₁⟩
  | polling v =>
      rw [hc] at hd
      have h1 : step S s (.run i (.poll false)) = some (s.put i (.trying .lock v)) := by
        simp [step, hc]
      obtain ⟨s₂, h2, hs₂⟩ := served_trying (S := S) (s := s.put i (.trying .lock v)) (i := i)
        hr (released_iff.mpr hd) (Config.put_slots_self s i _)
      refine ⟨s₂, Within.trans (.one h1 ⟨⟨rfl, rfl⟩, ?_⟩) h2, hs₂⟩
      show (s.slots i).awaits = true
      rw [hc]
      rfl
  | idle =>
      rw [hc] at hi
      cases hi
  | guard =>
      rw [hc] at hi
      cases hi

/-- The holder leaves. -/
theorem leaves (hi : s.slots i = .guard) :
    ∃ s', step S s (.run i .drop) = some s' ∧ s'.slots i = .idle :=
  ⟨s.dropGuard S i, by simp [step, hi], Config.put_slots_self s i _⟩

/-- **A call that is not doomed is brought to its end**, its guard dropped again. -/
theorem empties (h0 : S.isReleased v₀ = true) (hs : Serial S v₀ s)
    (hn : ∀ j, j ≠ i → s.slots j ≠ .guard) (hd : (s.slots i).doomed S = false) :
    ∃ s', Within (step S) (Own i) 5 s s' ∧ s'.slots i = .idle := by
  -- it is enough to bring it to its guard, or to an empty slot
  suffices h : ∃ s', Within (step S) (Own i) 4 s s' ∧
      (s'.slots i = .guard ∨ s'.slots i = .idle) by
    obtain ⟨s₁, h1, hg | hidle⟩ := h
    · obtain ⟨s₂, h2, hs₂⟩ := leaves (S := S) hg
      exact ⟨s₂, h1.trans (.one h2 ⟨rfl, rfl⟩), hs₂⟩
    · exact ⟨s₁, h1.weaken (by decide), hidle⟩
  by_cases hg : s.slots i = .guard
  · exact ⟨s, (Within.refl s).weaken (by decide), Or.inl hg⟩
  have hr : S.isReleased s.state = true := hs.released h0 fun j => by
    by_cases hj : j = i
    · rw [hj]
      exact hg
    · exact hn j hj
  cases ha : (s.slots i).awaits with
  | true =>
      obtain ⟨s₁, h1, hs₁⟩ := served hr ha hd
      exact ⟨s₁, h1.mono fun t ht => ht.1, Or.inl hs₁⟩
  | false =>
      cases hc : s.slots i with
      | idle => exact ⟨s, (Within.refl s).weaken (by decide), Or.inr hc⟩
      | guard => exact absurd hc hg
      | polling v =>
          rw [hc] at ha
          cases ha
      | loading m =>
          rw [hc] at ha
          cases m with
          | lock => cases ha
          | tryLock =>
              have h1 : step S s (.run i .load) = some (s.put i (.trying .tryLock s.state)) := by
                simp [step, hc]
              obtain ⟨s₂, h2, hs₂⟩ := takes (S := S) (s := s.put i (.trying .tryLock s.state))
                (i := i) hr (Config.put_slots_self s i _)
              have h12 := Within.trans (C := Own i) (.one h1 ⟨rfl, rfl⟩) (.one h2 ⟨rfl, rfl⟩)
              exact ⟨s₂, h12.weaken (by decide), Or.inl hs₂⟩
      | trying m v =>
          rw [hc] at ha
          cases m with
          | lock => cases ha
          | tryLock =>
              have h1 : step S s (.run i (.attempt false)) =
                  some (s.attempt S i .tryLock v false) := by
                simp [step, hc]
              refine ⟨_, (Within.one h1 ⟨rfl, rfl⟩).weaken (by decide), ?_⟩
              generalize s.attempt S i .tryLock v false = s₁ at h1
              cases step_cases h1 with
              | acquired _ m hi hr' => exact Or.inl (Config.put_slots_self s i _)
              | failed _ m current b hi hr' hb =>
                  rw [hc] at hi
                  cases hi
                  exact Or.inr (Config.put_slots_self s i _)
              | refused _ m current b hi hr' =>
                  rw [hc] at hi
                  cases hi
                  exact Or.inr (Config.put_slots_self s i _)

/-! ## 3. One call -/

/-- **A lock call can still come to its guard exactly where it is not doomed**, from every state of
    a run, whoever holds the mutex there, all along still waiting. -/
theorem lock_can_be_served_iff (hS : S.Lawful) (h0 : S.isReleased v₀ = true) {d : T}
    {ts : List (Trans (Config V ι T) (Act ι T))} (hr : Run (step S) (init ι v₀ d) ts s)
    (hi : (s.slots i).awaits = true) :
    CanReach (step S) (Awaiting i) s (fun s' => s'.slots i = .guard) ↔
      (s.slots i).doomed S = false := by
  constructor
  · intro h
    obtain ⟨us, s', hrun, hC, hg⟩ := h
    by_contra hd
    -- in vain as long as it waits, and empty once it is cancelled
    have hkeep := hrun.invariant (C := Awaiting i)
      (I := fun x => (x.slots i).doomed S = true ∨ x.slots i = .idle)
      (Or.inl (Bool.not_eq_false _ ▸ hd)) (fun t ht hw hI => ?_) hC
    · rw [hg] at hkeep
      rcases hkeep with e | e <;> cases e
    · have hpre : (t.pre.slots i).doomed S = true := by
        refine hI.resolve_right fun e => ?_
        rw [Awaiting, e] at hw
        cases hw
      by_cases hc : t.act.slot = i ∧ t.act.cancels = true
      · exact Or.inr (hc.1 ▸ cancelled_step ht hc.2)
      · refine Or.inl (doomed_step ht hpre fun e => ?_)
        exact Bool.eq_false_of_not_eq_true fun hb => hc ⟨e, hb⟩
  · intro hd
    have hs := serial_run hS h0 hr
    by_cases hh : ∃ k, s.slots k = .guard
    · -- the holder leaves, and the call goes on as it was
      obtain ⟨k, hk⟩ := hh
      obtain ⟨s₁, h1, hs₁⟩ := leaves (S := S) hk
      have hik : i ≠ k := by
        intro e
        rw [e, hk] at hi
        cases hi
      have hsame : s₁.slots i = s.slots i :=
        others hik (.one h1 ⟨rfl, rfl⟩)
      have hn : ∀ j, s₁.slots j ≠ .guard := by
        intro j hj
        by_cases hjk : j = k
        · rw [hjk, hs₁] at hj
          cases hj
        · rw [others hjk (.one h1 ⟨rfl, rfl⟩)] at hj
          exact hjk ((hs.held_of_guard hk).1 j hj)
      obtain ⟨s₂, h2, hs₂⟩ := served ((serial_step hS h0 h1 hs).released h0 hn)
        (by rw [hsame, hi]) (by rw [hsame, hd])
      exact .next h1 hi (.of_within (h2.mono fun t ht => ht.2) (.now hs₂))
    · have hn : ∀ j, s.slots j ≠ .guard := fun j hj => hh ⟨j, hj⟩
      obtain ⟨s₂, h2, hs₂⟩ := served (hs.released h0 hn) hi hd
      exact .of_within (h2.mono fun t ht => ht.2) (.now hs₂)

/-- The theorem at work: a task that waits beside a guard, on the word it read before that was
    taken, can still be served. -/
theorem lock_can_be_served_stale :
    ∃ ts s, Run (step (msbAsMutexSignal 8)) (init (Fin 2) 0#8 ()) ts s ∧ s.slots 0 = .guard ∧
      s.slots 1 = .trying .lock 0#8 ∧
      CanReach (step (msbAsMutexSignal 8)) (Awaiting 1) s (fun s' => s'.slots 1 = .guard) := by
  obtain ⟨ts, s, hr, hg, h1⟩ := Run.of_exec (step (msbAsMutexSignal 8)) (init (Fin 2) 0#8 ())
    [.run 1 (.call .lock), .run 1 .load, .run 0 (.call .tryLock), .run 0 .load,
      .run 0 (.attempt false)]
    (fun _ s => s.slots 0 = .guard ∧ s.slots 1 = .trying .lock 0#8) (by decide)
  refine ⟨ts, s, hr, hg, h1,
    (lock_can_be_served_iff (msb_lawful (by decide)) (by decide) hr (by rw [h1]; rfl)).mpr ?_⟩
  rw [h1]
  decide

/-! ## 4. All of them -/

/-- A run so far has used finitely many slots. -/
theorem busy_finite {v₀ : V} {d : T} {ts : List (Trans (Config V ι T) (Act ι T))}
    {s : Config V ι T} (hr : Run (step S) (init ι v₀ d) ts s) :
    ∃ F : Finset ι, ∀ i, i ∉ F → s.slots i = .idle := by
  induction hr with
  | start => exact ⟨∅, fun _ _ => rfl⟩
  | @next ts s s' a _ hs ih =>
      obtain ⟨F, hF⟩ := ih
      refine ⟨insert a.slot F, fun i hi => ?_⟩
      rw [Finset.mem_insert, not_or] at hi
      rw [slots_other hs fun b e => hi.1 (by rw [e]; rfl)]
      exact hF i hi.2

/-- The slots of `F` that are in use. -/
def Config.busy (F : Finset ι) (s : Config V ι T) : Finset ι :=
  F.filter fun i => s.slots i ≠ .idle

/-- **What the way out keeps**: no call is doomed, and nothing is in use outside `F`. -/
structure Clear (S : MutexSignal V) (v₀ : V) (F : Finset ι) (s : Config V ι T) : Prop where
  serial : Serial S v₀ s
  hopeful : ∀ i, (s.slots i).doomed S = false
  unused : ∀ i, i ∉ F → s.slots i = .idle

/-- **One slot after the other is emptied**, the holder's first. -/
theorem drains (hS : S.Lawful) {v₀ : V} (h0 : S.isReleased v₀ = true) (F : Finset ι) :
    Drains (step (ι := ι) (T := T) S) (Clear S v₀ F) (fun t => t.act.cancels = false)
      (fun s => (s.busy F).card) 5 where
  lowers := by
    intro s hs hpos
    -- whoever is to leave, nobody else holds the mutex
    obtain ⟨i, hiF, hi, hn⟩ : ∃ i ∈ F, s.slots i ≠ .idle ∧ ∀ j, j ≠ i → s.slots j ≠ .guard := by
      by_cases hh : ∃ k, s.slots k = .guard
      · obtain ⟨k, hk⟩ := hh
        have hne : s.slots k ≠ .idle := by
          intro e
          rw [hk] at e
          cases e
        refine ⟨k, by_contra fun hkF => hne (hs.unused k hkF), hne, fun j hjk hj => hjk ?_⟩
        exact (hs.serial.held_of_guard hk).1 j hj
      · obtain ⟨i, hi⟩ := Finset.card_pos.mp hpos
        obtain ⟨hiF, hne⟩ := Finset.mem_filter.mp hi
        exact ⟨i, hiF, hne, fun j _ hj => hh ⟨j, hj⟩⟩
    obtain ⟨s', hown, hidle⟩ := empties (i := i) h0 hs.serial hn (hs.hopeful i)
    have hother : ∀ j, j ≠ i → s'.slots j = s.slots j := fun j hj => others hj hown
    have hsub : s'.busy F ⊂ s.busy F := by
      refine Finset.ssubset_iff_of_subset (fun j hj => ?_) |>.mpr ⟨i, ?_, fun hmem => ?_⟩
      · obtain ⟨hjF, hj⟩ := Finset.mem_filter.mp hj
        have hji : j ≠ i := fun e => hj (e ▸ hidle)
        rw [hother j hji] at hj
        exact Finset.mem_filter.mpr ⟨hjF, hj⟩
      · exact Finset.mem_filter.mpr ⟨hiF, hi⟩
      · exact (Finset.mem_filter.mp hmem).2 hidle
    have hlt := Finset.card_lt_card hsub
    refine ⟨s', (hown.mono fun t ht => ht.2).weaken (by omega), ⟨?_, fun j => ?_, fun j hj => ?_⟩,
      hlt⟩
    · exact hown.invariant (fun t ht _ h => serial_step hS h0 ht h) hs.serial
    · by_cases hj : j = i
      · rw [hj, hidle]
        rfl
      · rw [hother j hj]
        exact hs.hopeful j
    · by_cases hji : j = i
      · rw [hji, hidle]
      · rw [hother j hji]
        exact hs.unused j hj

/-- **Without a token's help everybody can be done with the mutex exactly where no call is
    doomed**: from every state of a run, however many slots are in use, and with the cell then as
    it was at first. -/
theorem can_all_end_iff (hS : S.Lawful) {v₀ : V} (h0 : S.isReleased v₀ = true) {d : T}
    {ts : List (Trans (Config V ι T) (Act ι T))} {s : Config V ι T}
    (hr : Run (step S) (init ι v₀ d) ts s) :
    CanReach (step S) (fun t => t.act.cancels = false) s
        (fun s' => (∀ i, s'.slots i = .idle) ∧ s'.state = v₀) ↔
      ∀ i, (s.slots i).doomed S = false := by
  have hs := serial_run hS h0 hr
  constructor
  · intro h i
    obtain ⟨us, s', hrun, hC, hidle, -⟩ := h
    by_contra hd
    have hkeep := hrun.invariant (C := fun t => t.act.cancels = false)
      (I := fun x => (x.slots i).doomed S = true) (Bool.not_eq_false _ ▸ hd)
      (fun t ht hc hI => doomed_step ht hI fun _ => hc) hC
    rw [hidle i] at hkeep
    cases hkeep
  · intro hd
    obtain ⟨F, hF⟩ := busy_finite hr
    obtain ⟨s', hrun, hs', hzero⟩ := (drains hS h0 F).run ⟨hs, hd, hF⟩
    have hidle : ∀ i, s'.slots i = .idle := by
      intro i
      by_contra hi
      have hiF : i ∈ F := by_contra fun h => hi (hs'.unused i h)
      have hmem : i ∈ s'.busy F := Finset.mem_filter.mpr ⟨hiF, hi⟩
      rw [Finset.card_eq_zero.mp hzero] at hmem
      cases hmem
    refine .of_within hrun (.now ⟨hidle, ?_⟩)
    cases hs'.serial with
    | free _ hc => exact hc
    | held k hk _ _ =>
        rw [hidle k] at hk
        cases hk

/-- A guard, a task on a stale word and a `try_lock` about to fail: all of them can be done. -/
theorem can_all_end_stale :
    ∃ ts s, Run (step (ptrAsMutexSignal 8)) (init (Fin 3) 0x10#8 ()) ts s ∧ s.slots 0 = .guard ∧
      s.slots 1 = .polling 0x10#8 ∧ s.slots 2 = .trying .tryLock 0x11#8 ∧
      CanReach (step (ptrAsMutexSignal 8)) (fun t => t.act.cancels = false) s
        (fun s' => (∀ i, s'.slots i = .idle) ∧ s'.state = 0x10#8) := by
  obtain ⟨ts, s, hr, h0, h1, h2⟩ := Run.of_exec (step (ptrAsMutexSignal 8))
    (init (Fin 3) 0x10#8 ())
    [.run 1 (.call .lock), .run 1 .load, .run 1 (.attempt true), .run 0 (.call .tryLock),
      .run 0 .load, .run 0 (.attempt false), .run 2 (.call .tryLock), .run 2 .load]
    (fun _ s => s.slots 0 = .guard ∧ s.slots 1 = .polling 0x10#8 ∧
      s.slots 2 = .trying .tryLock 0x11#8) (by decide)
  have hhopeful : ∀ i, (s.slots i).doomed (ptrAsMutexSignal 8) = false := by
    intro i
    match i with
    | 0 => rw [h0]; rfl
    | 1 => rw [h1]; decide
    | 2 => rw [h2]; rfl
  exact ⟨ts, s, hr, h0, h1, h2,
    (can_all_end_iff (ptr_lawful (by decide)) (by decide) hr).mpr hhopeful⟩

end AtomicSync.Mutex
