/-
  File:      AtomicSync/Mutex/TryLock.lean
  Subject:   `Acquire::try_lock`: what its refusals say about the holders.

  A call reads the cell, works on what it read and makes ONE weak exchange. It returns `None`
  for one of three reasons: the value read is an acquired one; the cell no longer holds it; or it
  does and the exchange fails all the same. On a mutex that started out released the first two
  each come with a guard alive at that access. The third comes with nothing.

  * `TryLockCall` -- a call in a run: the state its load meets, the steps of the other slots until
    its exchange, and the state it returns in; `call_of_trying`, every attempt of a run is one;
  * `holder_of_refusal` -- a refusal that is not spurious has a holder at the load or at the
    exchange;
  * **`refuses_only_held`** -- the law, for every call that does not fail spuriously, and the
    exact condition where nobody holds the mutex during the call;
  * `refuses_free` -- a single thread, refused on a mutex nobody ever held.
-/
import AtomicSync.Mutex.Serial

namespace AtomicSync.Mutex

open Atomics

variable {V ι T : Type} [DecidableEq ι] [DecidableEq V] {S : MutexSignal V} {v₀ : V} {d : T}

/-! ## 1. A mutex that was acquired from the start -/

/-- **On an initial word that is an acquired one nobody ever gets a guard.** -/
theorem shut_run (h0 : S.isAcquired v₀ = true) {ts : List (Trans (Config V ι T) (Act ι T))}
    {s : Config V ι T} (hr : Run (step S) (init ι v₀ d) ts s) :
    (∀ j, s.slots j ≠ .guard) ∧ s.state = v₀ := by
  refine hr.invariant (I := fun s => (∀ j, s.slots j ≠ .guard) ∧ s.state = v₀)
    (C := fun _ => True) ⟨nofun, rfl⟩ (fun t h _ hs => ?_) fun _ _ => trivial
  obtain ⟨hn, hc⟩ := hs
  cases step_effect h with
  | acquired i ha hr hi hg hc' hv =>
      rw [hc] at hr
      simp [MutexSignal.isReleased, h0] at hr
  | dropped i ha hi hg hc' hv => exact absurd hi (hn i)
  | stored i v ha hi hs => exact absurd hi (hn i)
  | silent b i ha hb hi hg hc' hv => exact ⟨fun j hj => hn j ((hg j).mp hj), hc'.trans hc⟩

/-! ## 2. Calls -/

/-- **A call of `try_lock` in slot `i`** of a run from a cell that holds `v₀`: nothing but the
    steps of other slots between its load and its exchange. -/
structure TryLockCall (S : MutexSignal V) (v₀ : V) (d : T) (i : ι) where
  before : List (Trans (Config V ι T) (Act ι T))
  atLoad : Config V ι T
  loaded : Config V ι T
  between : List (Trans (Config V ι T) (Act ι T))
  atExchange : Config V ι T
  spurious : Bool
  returned : Config V ι T
  reached : Run (step S) (init ι v₀ d) before atLoad
  called : atLoad.slots i = .loading .tryLock
  load : step S atLoad (.run i .load) = some loaded
  meanwhile : Run (step S) loaded between atExchange
  others : ∀ t ∈ between, ∀ b, t.act ≠ .run i b
  exchange : step S atExchange (.run i (.attempt spurious)) = some returned

namespace TryLockCall

variable {i : ι} (c : TryLockCall S v₀ d i)

/-- The call returns `None`. -/
def Refused : Prop := c.returned.slots i = .idle

/-- The call returns `Some`. -/
def Granted : Prop := c.returned.slots i = .guard

/-- At some instant between the load and the return a guard is alive. -/
def Held : Prop := ∃ s, (s = c.loaded ∨ ∃ t ∈ c.between, t.post = s) ∧ ∃ j, s.slots j = .guard

/-- The exchange fails on a cell that holds the released value the call has read. -/
def FailsSpuriously : Prop :=
  c.spurious = true ∧ S.isReleased c.atLoad.state = true ∧ c.atExchange.state = c.atLoad.state

/-- The run up to the exchange. -/
theorem run_atExchange : ∃ ts, Run (step S) (init ι v₀ d) ts c.atExchange :=
  ⟨_, (c.reached.next c.load).append c.meanwhile⟩

end TryLockCall

/-- A slot that takes no step in a segment is at its end what it was. -/
theorem slots_segment {s s' : Config V ι T} {ts : List (Trans (Config V ι T) (Act ι T))}
    (hr : Run (step S) s ts s') {i : ι} (ho : ∀ t ∈ ts, ∀ b, t.act ≠ .run i b) :
    s'.slots i = s.slots i := by
  induction hr with
  | start => rfl
  | next _ hs ih =>
      have hlast := slots_other hs (ho _ List.mem_cons_self)
      exact hlast.trans (ih fun t ht => ho t (List.mem_cons_of_mem _ ht))

/-- Only its load brings a `try_lock` in front of its exchange. -/
theorem load_of_trying {s s' : Config V ι T} {i : ι} {b : Action} {current : V}
    (h : step S s (.run i b) = some s') (hi : s'.slots i = .trying .tryLock current) :
    b = .load ∧ s.slots i = .loading .tryLock := by
  cases step_cases h with
  | loaded _ m hl =>
      rw [Config.put_slots_self] at hi
      cases hi
      exact ⟨rfl, hl⟩
  | called _ m hi' => simp at hi
  | acquired _ m hi' hr => simp at hi
  | dropped _ hi' => simp [Config.dropGuard] at hi
  | failed _ m current' b hi' hr hb => cases m <;> simp [retry] at hi
  | refused _ m current' b hi' hr => cases m <;> simp [retry] at hi
  | polled _ current' b hi' => cases b <;> simp at hi

/-- What a call works on: the value its load has read. -/
theorem slot_of_load {s s' : Config V ι T} {i : ι} {m : Mode} (h : step S s (.run i .load) = some s')
    (hi : s.slots i = .loading m) : s' = s.put i (.trying m s.state) := by
  cases step_cases h with
  | loaded _ m' hi' =>
      rw [hi] at hi'
      cases hi'
      rfl

/-- **Every attempt of a `try_lock` in a run belongs to a call**, spurious or not. -/
theorem call_of_trying {ts : List (Trans (Config V ι T) (Act ι T))} {s s' : Config V ι T}
    (hr : Run (step S) (init ι v₀ d) ts s) {i : ι} {current : V}
    (hi : s.slots i = .trying .tryLock current) {b : Bool}
    (h : step S s (.run i (.attempt b)) = some s') :
    ∃ c : TryLockCall S v₀ d i, c.atExchange = s ∧ c.spurious = b ∧ c.returned = s' := by
  suffices hcall : ∃ before s₁ s₂ between, Run (step S) (init ι v₀ d) before s₁ ∧
      s₁.slots i = .loading .tryLock ∧ step S s₁ (.run i .load) = some s₂ ∧
      Run (step S) s₂ between s ∧ ∀ t ∈ between, ∀ b, t.act ≠ .run i b by
    obtain ⟨before, s₁, s₂, between, h₁, hc, hl, hm, ho⟩ := hcall
    exact ⟨⟨before, s₁, s₂, between, s, b, s', h₁, hc, hl, hm, ho, h⟩, rfl, rfl, rfl⟩
  clear h
  induction hr with
  | start => cases hi
  | @next ts s s' a hpre hs ih =>
      by_cases hown : ∃ b, a = .run i b
      · obtain ⟨b, rfl⟩ := hown
        obtain ⟨rfl, hl⟩ := load_of_trying hs hi
        exact ⟨ts, s, _, [], hpre, hl, hs, .start, nofun⟩
      · have hne : ∀ b, a ≠ .run i b := fun b hb => hown ⟨b, hb⟩
        rw [slots_other hs hne] at hi
        obtain ⟨before, s₁, s₂, between, h₁, hc, hl, hm, ho⟩ := ih hi
        refine ⟨before, s₁, s₂, _, h₁, hc, hl, hm.next hs, fun t ht => ?_⟩
        rcases List.mem_cons.mp ht with rfl | ht
        · exact hne
        · exact ho t ht

/-! ## 3. What a refusal says -/

namespace TryLockCall

variable {i : ι} (c : TryLockCall S v₀ d i)

theorem slot_atExchange : c.atExchange.slots i = .trying .tryLock c.atLoad.state := by
  rw [slots_segment c.meanwhile c.others, slot_of_load c.load c.called, Config.put_slots_self]

/-- A guard alive at the load is alive right after it. -/
theorem held_of_atLoad {j : ι} (hj : c.atLoad.slots j = .guard) : c.Held := by
  refine ⟨c.loaded, Or.inl rfl, j, ?_⟩
  have hji : j ≠ i := by
    rintro rfl
    rw [c.called] at hj
    cases hj
  rw [slot_of_load c.load c.called, Config.put_slots_of_ne c.atLoad hji, hj]

/-- A guard alive at the exchange is alive between the load and the return. -/
theorem held_of_atExchange {j : ι} (hj : c.atExchange.slots j = .guard) : c.Held :=
  ⟨c.atExchange, c.meanwhile.final, j, hj⟩

/-- **The call returns one way or the other**, and says on what. -/
theorem outcome :
    c.Granted ∧ ¬ c.FailsSpuriously ∧ S.isReleased c.atExchange.state = true ∨
    c.Refused ∧ (S.isReleased c.atLoad.state = false ∨
      c.atExchange.state ≠ c.atLoad.state ∨ c.FailsSpuriously) := by
  have hslot := c.slot_atExchange
  have hstep := c.exchange
  unfold Granted Refused FailsSpuriously
  generalize c.spurious = b at hstep ⊢
  generalize c.returned = s' at hstep ⊢
  cases step_cases hstep with
  | acquired _ m hi hr => exact Or.inl ⟨Config.put_slots_self _ _ _, nofun, hr⟩
  | failed _ m current b hi hr hb =>
      rw [hslot] at hi
      cases hi
      refine Or.inr ⟨Config.put_slots_self _ _ _, Or.inr ?_⟩
      by_cases hc : c.atExchange.state = c.atLoad.state
      · exact Or.inr ⟨hb hc, hr, hc⟩
      · exact Or.inl hc
  | refused _ m current b hi hr =>
      rw [hslot] at hi
      cases hi
      exact Or.inr ⟨Config.put_slots_self _ _ _, Or.inl hr⟩

/-- **A refusal that is not spurious has a holder**: at the load where the value read is an
    acquired one, at the exchange where the cell has moved on from a released one. -/
theorem holder_of_refusal (hS : S.Lawful) (h0 : S.isReleased v₀ = true)
    (hf : ¬ c.FailsSpuriously) (hr : c.Refused) : c.Held := by
  have hload := serial_run hS h0 c.reached
  obtain ⟨ts, hts⟩ := c.run_atExchange
  have hex := serial_run hS h0 hts
  cases hrel : S.isReleased c.atLoad.state with
  | false =>
      have hne : c.atLoad.state ≠ v₀ := by
        intro e
        rw [e, h0] at hrel
        cases hrel
      obtain ⟨j, hj⟩ := hload.guard_of_ne hne
      exact c.held_of_atLoad hj
  | true =>
      have hv := (hload.free_of_released hS h0 hrel).2
      rcases c.outcome with ⟨hg, -, -⟩ | ⟨-, hacq | hne | hsp⟩
      · rw [Refused, hg] at hr
        cases hr
      · rw [hrel] at hacq
        cases hacq
      · rw [hv] at hne
        obtain ⟨j, hj⟩ := hex.guard_of_ne hne
        exact c.held_of_atExchange hj
      · exact absurd hsp hf

end TryLockCall

/-- **`try_lock` refuses only a held mutex**, where the mutex started out released and the call's
    exchange does not fail spuriously: every lawful signal, every run, every call of it. And in a
    call during which nobody holds the mutex these two decide the result. -/
theorem refuses_only_held (hS : S.Lawful) {i : ι} (c : TryLockCall S v₀ d i) :
    (S.isReleased v₀ = true → ¬ c.FailsSpuriously → c.Refused → c.Held) ∧
      (¬ c.Held → (c.Granted ↔ S.isReleased v₀ = true ∧ ¬ c.FailsSpuriously)) := by
  refine ⟨c.holder_of_refusal hS, fun hheld => ⟨fun hg => ?_, fun ⟨h0, hf⟩ => ?_⟩⟩
  · rcases c.outcome with ⟨-, hf, hr⟩ | ⟨hr, -⟩
    · refine ⟨?_, hf⟩
      cases h0 : S.isAcquired v₀ with
      | false => simp [MutexSignal.isReleased, h0]
      | true =>
          obtain ⟨ts, hts⟩ := c.run_atExchange
          rw [(shut_run h0 hts).2] at hr
          exact hr
    · rw [TryLockCall.Refused, hg] at hr
      cases hr
  · rcases c.outcome with ⟨hg, -⟩ | ⟨hr, -⟩
    · exact hg
    · exact absurd (c.holder_of_refusal hS h0 hf hr) hheld

/-- The law at work: the other task takes the mutex between the call's load and its exchange. -/
theorem refuses_only_held_raced :
    ∃ c : TryLockCall (msbAsMutexSignal 8) 0#8 () (0 : Fin 2), c.Refused ∧ c.Held := by
  obtain ⟨ts, s, hr, hi, hs⟩ := Run.of_exec (step (msbAsMutexSignal 8)) (init (Fin 2) 0#8 ())
    [.run 0 (.call .tryLock), .run 0 .load, .run 1 (.call .lock), .run 1 .load,
      .run 1 (.attempt false)]
    (fun _ s => s.slots 0 = .trying .tryLock 0#8 ∧
      (step (msbAsMutexSignal 8) s (.run 0 (.attempt false))).any (fun s' =>
        decide (s'.slots 0 = .idle)) = true) (by decide)
  rw [Option.any_eq_true] at hs
  obtain ⟨s', hstep, hidle⟩ := hs
  obtain ⟨c, -, hb, hret⟩ := call_of_trying hr hi hstep
  have hrefused : c.Refused := by
    rw [TryLockCall.Refused, hret]
    exact of_decide_eq_true hidle
  have hstrong : ¬ c.FailsSpuriously := by
    rintro ⟨hsp, -⟩
    rw [hb] at hsp
    cases hsp
  exact ⟨c, hrefused, (refuses_only_held (msb_lawful (by decide)) c).1 (by decide) hstrong hrefused⟩

/-- **A refusal with no holder**: one thread, one call, a mutex nobody ever touched. -/
theorem refuses_free :
    ∃ c : TryLockCall (msbAsMutexSignal 8) 0#8 () (0 : Fin 1),
      (msbAsMutexSignal 8).isReleased 0#8 = true ∧ c.Refused ∧ ¬ c.Held := by
  let called : Config (BitVec 8) (Fin 1) Unit := (init (Fin 1) 0#8 ()).put 0 (.loading .tryLock)
  let loaded := called.put 0 (.trying .tryLock 0#8)
  let returned := loaded.attempt (msbAsMutexSignal 8) 0 .tryLock 0#8 true
  have hcall : step (msbAsMutexSignal 8) (init (Fin 1) 0#8 ()) (.run 0 (.call .tryLock)) =
    some called := rfl
  have hnobody : ∀ j, loaded.slots j ≠ .guard := by decide
  refine ⟨⟨_, called, loaded, [], loaded, true, returned, Run.start.next hcall, rfl, rfl, .start,
    nofun, rfl⟩, rfl, rfl, ?_⟩
  rintro ⟨s, rfl | ⟨t, ht, -⟩, j, hj⟩
  · exact hnobody j hj
  · cases ht

end AtomicSync.Mutex
