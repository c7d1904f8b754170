/-
  File:      AtomicSync/Mutex/Serial.lean
  Subject:   The spinning mutex serialises its holders and gives the cell's value back.

  A step acquires (an exchange succeeds), drops a guard, stores through one, or does nothing that
  the cell, the guards or the data could tell (`Effect`, `step_effect`). Nothing a call works on
  needs to be current: the exchange compares it with the cell at the moment it succeeds. So the
  invariant speaks of the cell and the guards only (`Serial`): either no guard is alive and the
  cell holds the value it started with, or one is and the cell holds that value marked. A lawful
  signal takes the one to the other and back.

  `lastLeft` reads off a run what the last dropped guard left in the data: what the next holder
  starts from.

  * `serial_step`, `serial_run` -- the invariant, whatever the calls have read, whichever weak
    exchanges fail, for any number of slots;
  * **`spinning_mutex_serialises`** -- exclusion, the cell, the releases and the data; with the
    two encodings shown lawful.
-/
import AtomicSync.Mutex.Machine

namespace AtomicSync.Mutex

open Atomics

variable {V ι T : Type} {S : MutexSignal V}

/-! ## 1. The invariant and the history -/

/-- The release of a held cell succeeds and restores its value. -/
theorem trySpinRelease_held (hS : S.Lawful) {v₀ : V} (h0 : S.isReleased v₀ = true) :
    trySpinRelease S (S.makeAcquired v₀) = some v₀ := by
  unfold trySpinRelease trySpinCompareExchangeWeak
  rw [hS.acquired v₀ h0, hS.restored v₀ h0]
  rfl

/-- **The cell and the guards**: nobody holds the mutex and the cell is as it was, or one slot
    does and the cell is that value, acquired. -/
inductive Serial (S : MutexSignal V) (v₀ : V) (s : Config V ι T) : Prop where
  | free (hn : ∀ j, s.slots j ≠ .guard) (hc : s.state = v₀)
  | held (i : ι) (hi : s.slots i = .guard) (ho : ∀ j, s.slots j = .guard → j = i)
      (hc : s.state = S.makeAcquired v₀)

theorem serial_init (v₀ : V) (d : T) : Serial S v₀ (init ι v₀ d) := .free nofun rfl

/-- On a released cell nobody holds the mutex. -/
theorem Serial.free_of_released (hS : S.Lawful) {v₀ : V} (h0 : S.isReleased v₀ = true)
    {s : Config V ι T} (hs : Serial S v₀ s) (hr : S.isReleased s.state = true) :
    (∀ j, s.slots j ≠ .guard) ∧ s.state = v₀ := by
  cases hs with
  | free hn hc => exact ⟨hn, hc⟩
  | held k hk ho hc =>
      unfold MutexSignal.isReleased at hr
      rw [hc, hS.acquired v₀ h0] at hr
      cases hr

/-- Beside a guard the cell is held, by that slot alone. -/
theorem Serial.held_of_guard {v₀ : V} {s : Config V ι T} (hs : Serial S v₀ s) {i : ι}
    (hi : s.slots i = .guard) :
    (∀ j, s.slots j = .guard → j = i) ∧ s.state = S.makeAcquired v₀ := by
  cases hs with
  | free hn hc => exact absurd hi (hn i)
  | held k hk ho hc => exact ⟨fun j hj => (ho j hj).trans (ho i hi).symm, hc⟩

/-- A cell that differs from its released initial word has a holder. -/
theorem Serial.guard_of_ne {v₀ : V} {s : Config V ι T} (hs : Serial S v₀ s) (hc : s.state ≠ v₀) :
    ∃ j, s.slots j = .guard := by
  cases hs with
  | free hn hc' => exact absurd hc' hc
  | held k hk ho hc' => exact ⟨k, hk⟩

/-- The action drops a guard. -/
def Act.drops : Act ι T → Bool
  | .run _ .drop => true
  | _ => false

/-- The data the last dropped guard of a run left behind; `d` before the first one. -/
def lastLeft (d : T) : List (Trans (Config V ι T) (Act ι T)) → T
  | [] => d
  | t :: ts => if t.act.drops then t.pre.value else lastLeft d ts

/-! ## 2. What a step does -/

variable [DecidableEq ι]

/-- A slot without a guard changes, to no guard: the guards are the same. -/
theorem guard_put {s : Config V ι T} {i : ι} {c : Slot V} (hi : s.slots i ≠ .guard)
    (hc : c ≠ .guard) (j : ι) : (s.put i c).slots j = .guard ↔ s.slots j = .guard := by
  by_cases hji : j = i
  · subst hji
    rw [Config.put_slots_self]
    exact iff_of_false hc hi
  · rw [Config.put_slots_of_ne s hji]

variable [DecidableEq V]

/-- **The effect of a step** on the cell, the guards and the data. -/
inductive Effect (S : MutexSignal V) (s : Config V ι T) (a : Act ι T) (s' : Config V ι T) :
    Prop where
  /-- an exchange succeeds -/
  | acquired (i : ι) (ha : a = .run i (.attempt false)) (hr : S.isReleased s.state = true)
      (hi : s.slots i ≠ .guard) (hg : ∀ j, s'.slots j = .guard ↔ j = i ∨ s.slots j = .guard)
      (hc : s'.state = S.makeAcquired s.state) (hv : s'.value = s.value)
  /-- a guard is dropped -/
  | dropped (i : ι) (ha : a = .run i .drop) (hi : s.slots i = .guard)
      (hg : ∀ j, s'.slots j = .guard ↔ j ≠ i ∧ s.slots j = .guard)
      (hc : s'.state = (trySpinRelease S s.state).getD s.state) (hv : s'.value = s.value)
  /-- the data is written through a guard -/
  | stored (i : ι) (v : T) (ha : a = .store i v) (hi : s.slots i = .guard)
      (hs : s' = { s with value := v })
  /-- nothing of the kind -/
  | silent (b : Action) (i : ι) (ha : a = .run i b) (hb : b ≠ .drop) (hi : s'.slots i ≠ .guard)
      (hg : ∀ j, s'.slots j = .guard ↔ s.slots j = .guard)
      (hc : s'.state = s.state) (hv : s'.value = s.value)

/-- **Every step has one of the four effects.** -/
theorem step_effect {s s' : Config V ι T} {a : Act ι T} (h : step S s a = some s') :
    Effect S s a s' := by
  have hsilent : ∀ i b c, a = .run i b → b ≠ .drop → s.slots i ≠ .guard → c ≠ .guard →
      Effect S s a (s.put i c) := by
    intro i b c ha hb hi hc
    refine .silent b i ha hb ?_ (guard_put hi hc) rfl rfl
    rw [Config.put_slots_self]
    exact hc
  cases step_cases h with
  | called i m hi => exact hsilent i _ _ rfl nofun (by rw [hi]; nofun) nofun
  | loaded i m hi => exact hsilent i _ _ rfl nofun (by rw [hi]; nofun) nofun
  | failed i m current b hi hr hb =>
      exact hsilent i _ _ rfl nofun (by rw [hi]; nofun) (by cases m <;> nofun)
  | refused i m current b hi hr =>
      exact hsilent i _ _ rfl nofun (by rw [hi]; nofun) (by cases m <;> nofun)
  | polled i current b hi =>
      exact hsilent i _ _ rfl nofun (by rw [hi]; nofun) (by cases b <;> nofun)
  | acquired i m hi hr =>
      refine .acquired i rfl hr (by rw [hi]; nofun) (fun j => ?_) rfl rfl
      show (s.put i .guard).slots j = .guard ↔ _
      by_cases hji : j = i
      · subst hji
        rw [Config.put_slots_self]
        exact iff_of_true rfl (Or.inl rfl)
      · rw [Config.put_slots_of_ne s hji, or_iff_right hji]
  | dropped i hi =>
      refine .dropped i rfl hi (fun j => ?_) rfl rfl
      show (s.put i .idle).slots j = .guard ↔ _
      by_cases hji : j = i
      · subst hji
        rw [Config.put_slots_self]
        exact iff_of_false nofun fun hj => hj.1 rfl
      · rw [Config.put_slots_of_ne s hji, and_iff_right hji]
  | stored i v hi => exact .stored i v rfl hi rfl

/-! ## 3. Along a run -/

/-- **The step lemma.** -/
theorem serial_step (hS : S.Lawful) {v₀ : V} (h0 : S.isReleased v₀ = true)
    {s s' : Config V ι T} {a : Act ι T} (h : step S s a = some s') (hs : Serial S v₀ s) :
    Serial S v₀ s' := by
  cases step_effect h with
  | acquired i ha hr hi hg hc hv =>
      obtain ⟨hn, hcell⟩ := hs.free_of_released hS h0 hr
      refine .held i ((hg i).mpr (Or.inl rfl)) (fun j hj => ?_) (by rw [hc, hcell])
      exact ((hg j).mp hj).resolve_right (hn j)
  | dropped i ha hi hg hc hv =>
      obtain ⟨ho, hcell⟩ := hs.held_of_guard hi
      refine .free (fun j hj => ?_) ?_
      · obtain ⟨hji, hj⟩ := (hg j).mp hj
        exact hji (ho j hj)
      · rw [hc, hcell, trySpinRelease_held hS h0]
        rfl
  | stored i v ha hi hs' =>
      obtain ⟨ho, hcell⟩ := hs.held_of_guard hi
      subst hs'
      exact .held i hi ho hcell
  | silent b i ha hb hi hg hc hv =>
      cases hs with
      | free hn hcell => exact .free (fun j hj => hn j ((hg j).mp hj)) (hc.trans hcell)
      | held k hk ho hcell =>
          exact .held k ((hg k).mpr hk) (fun j hj => ho j ((hg j).mp hj)) (hc.trans hcell)

/-- **The run lemma.** -/
theorem serial_run (hS : S.Lawful) {v₀ : V} (h0 : S.isReleased v₀ = true) {d : T}
    {ts : List (Trans (Config V ι T) (Act ι T))} {s : Config V ι T}
    (hr : Run (step S) (init ι v₀ d) ts s) : Serial S v₀ s :=
  hr.invariant (C := fun _ => True) (serial_init v₀ d)
    (fun _ h _ hs => serial_step hS h0 h hs) fun _ _ => trivial

/-- The data changes only by a store through a guard. -/
theorem value_of_step {s s' : Config V ι T} {a : Act ι T} (h : step S s a = some s') :
    s'.value = s.value ∨ ∃ i v, a = .store i v ∧ s.slots i = .guard := by
  cases step_effect h with
  | acquired i ha hr hi hg hc hv => exact Or.inl hv
  | dropped i ha hi hg hc hv => exact Or.inl hv
  | stored i v ha hi hs => exact Or.inr ⟨i, v, ha, hi⟩
  | silent b i ha hb hi hg hc hv => exact Or.inl hv

/-- A step that is no drop leaves a mutex nobody holds only where nobody held it. -/
theorem no_guard_before {s s' : Config V ι T} {a : Act ι T} (h : step S s a = some s')
    (ha : a.drops = false) (hn : ∀ i, s'.slots i ≠ .guard) (j : ι) : s.slots j ≠ .guard := by
  intro hj
  refine hn j ?_
  cases step_effect h with
  | acquired i ha' hr hi hg hc hv => exact (hg j).mpr (Or.inr hj)
  | dropped i ha' hi hg hc hv =>
      subst ha'
      cases ha
  | stored i v ha' hi hs =>
      subst hs
      exact hj
  | silent b i ha' hb hi hg hc hv => exact (hg j).mpr hj

/-- **The data of a mutex nobody holds is what its last holder left.** -/
theorem value_of_free {v₀ : V} {d : T} {ts : List (Trans (Config V ι T) (Act ι T))}
    {s : Config V ι T} (hr : Run (step S) (init ι v₀ d) ts s) (hn : ∀ i, s.slots i ≠ .guard) :
    s.value = lastLeft d ts := by
  induction hr with
  | start => rfl
  | @next ts s s' a hpre hs ih =>
      show s'.value = if a.drops then s.value else lastLeft d ts
      cases ha : a.drops with
      | true =>
          rcases value_of_step hs with hv | ⟨i, v, rfl, -⟩
          · exact hv
          · cases ha
      | false =>
          have hfree := no_guard_before hs ha hn
          rcases value_of_step hs with hv | ⟨i, v, -, hi⟩
          · exact hv.trans (ih hfree)
          · exact absurd hi (hfree i)

/-- A guard comes from a successful exchange, and leaves the data alone. -/
theorem acquires_of_step {s s' : Config V ι T} {a : Act ι T} (h : step S s a = some s') {i : ι}
    (hi : s.slots i ≠ .guard) (hi' : s'.slots i = .guard) :
    S.isReleased s.state = true ∧ s'.value = s.value := by
  cases step_effect h with
  | acquired k ha hr hk hg hc hv => exact ⟨hr, hv⟩
  | dropped k ha hk hg hc hv => exact absurd ((hg i).mp hi').2 hi
  | stored k v ha hk hs =>
      subst hs
      exact absurd hi' hi
  | silent b k ha hb hk hg hc hv => exact absurd ((hg i).mp hi') hi

/-! ## 4. The mutex -/

/-- **What a run of the mutex is in, at every state it reaches.** -/
structure Serialised (S : MutexSignal V) (v₀ : V) (d : T)
    (ts : List (Trans (Config V ι T) (Act ι T))) (s : Config V ι T) : Prop where
  /-- at most one guard is alive -/
  single : ∀ i j, s.slots i = .guard → s.slots j = .guard → i = j
  /-- the cell is acquired iff one is, -/
  acquired : S.isAcquired s.state = true ↔ ∃ i, s.slots i = .guard
  /-- and then equals the acquired initial word -/
  held : ∀ i, s.slots i = .guard → s.state = S.makeAcquired v₀
  /-- the release of every drop succeeds -/
  release : ∀ i, s.slots i = .guard → trySpinRelease S s.state = some v₀
  /-- with no guard alive the cell is the initial word -/
  restored : (∀ i, s.slots i ≠ .guard) → s.state = v₀
  /-- only the holder changes the data -/
  owner : ∀ a s', step S s a = some s' → s'.value = s.value ∨
    ∃ i v, a = .store i v ∧ s.slots i = .guard
  /-- and each holder starts from the value the previous one left, the first from the initial
      one -/
  handover : ∀ a s' i, step S s a = some s' → s.slots i ≠ .guard → s'.slots i = .guard →
    s'.value = lastLeft d ts

/-- The invariant and the history give everything. -/
theorem serialised_of_serial (hS : S.Lawful) {v₀ : V} (h0 : S.isReleased v₀ = true) {d : T}
    {ts : List (Trans (Config V ι T) (Act ι T))} {s : Config V ι T}
    (hr : Run (step S) (init ι v₀ d) ts s) : Serialised S v₀ d ts s := by
  have hs := serial_run hS h0 hr
  have hheld : ∀ i, s.slots i = .guard → s.state = S.makeAcquired v₀ :=
    fun i hi => (hs.held_of_guard hi).2
  refine ⟨?_, ⟨?_, ?_⟩, hheld, ?_, ?_, fun a s' h => value_of_step h, ?_⟩
  · intro i j hi hj
    exact (hs.held_of_guard hj).1 i hi
  · intro hacq
    cases hs with
    | free hn hc =>
        rw [hc] at hacq
        unfold MutexSignal.isReleased at h0
        rw [hacq] at h0
        cases h0
    | held k hk ho hc => exact ⟨k, hk⟩
  · rintro ⟨i, hi⟩
    rw [hheld i hi]
    exact hS.acquired v₀ h0
  · intro i hi
    rw [hheld i hi]
    exact trySpinRelease_held hS h0
  · intro hn
    cases hs with
    | free hn hc => exact hc
    | held k hk ho hc => exact absurd hk (hn k)
  · intro a s' i h hi hi'
    obtain ⟨hrel, hv⟩ := acquires_of_step h hi hi'
    exact hv.trans (value_of_free hr (hs.free_of_released hS h0 hrel).1)

/-- **The spinning mutex serialises its holders and gives the cell's value back**, for every
    lawful signal and every released initial word, over every interleaving of the single accesses
    of any number of calls; and both signals are lawful, the address arithmetic staying inside
    the word. -/
theorem spinning_mutex_serialises (hS : S.Lawful) {v₀ : V} (h0 : S.isReleased v₀ = true) {d : T}
    {ts : List (Trans (Config V ι T) (Act ι T))} {s : Config V ι T}
    (hr : Run (step S) (init ι v₀ d) ts s) :
    Serialised S v₀ d ts s ∧ (∀ w, 0 < w → (msbAsMutexSignal w).Lawful) ∧
      ∀ w, 1 < w → (ptrAsMutexSignal w).Lawful ∧ ∀ v : BitVec w, v.toNat % 2 = 0 →
        (ptrAsMutexSignal w).isReleased v = true ∧ v.toNat + 1 < 2 ^ w ∧
          0 < ((ptrAsMutexSignal w).makeAcquired v).toNat := by
  refine ⟨serialised_of_serial hS h0 hr, fun w hw => msb_lawful hw, fun w hw => ?_⟩
  refine ⟨ptr_lawful hw, fun v hv => ⟨(ptr_isReleased hw v).mpr hv, ?_, ?_⟩⟩
  · exact (ptr_room hw hv).1
  · rw [(ptr_room hw hv).2]
    exact Nat.succ_pos _

/-- The theorem at work: a task reads the cell before it is taken and fails on it; the holder
    stores 7 and leaves, and the address 0x10 is back in the cell. -/
theorem spinning_mutex_serialises_address :
    ∃ ts s, Run (step (ptrAsMutexSignal 8)) (init (Fin 2) 0x10#8 0) ts s ∧
      s.slots 1 = .polling 0x11#8 ∧ s.state = 0x10#8 ∧
      Serialised (ptrAsMutexSignal 8) 0x10#8 0 ts s := by
  obtain ⟨ts, s, hr, h1, hs⟩ := Run.of_exec (step (ptrAsMutexSignal 8)) (init (Fin 2) 0x10#8 0)
    [.run 1 (.call .lock), .run 1 .load, .run 0 (.call .tryLock), .run 0 .load,
      .run 0 (.attempt false), .store 0 7, .run 1 (.attempt false), .run 0 .drop]
    (fun _ s => s.slots 1 = .polling 0x11#8 ∧ s.state = 0x10#8) (by decide)
  have hreleased : (ptrAsMutexSignal 8).isReleased 0x10#8 = true := by decide
  exact ⟨ts, s, hr, h1, hs,
    (spinning_mutex_serialises (ptr_lawful (by decide)) hreleased hr).1⟩

end AtomicSync.Mutex
