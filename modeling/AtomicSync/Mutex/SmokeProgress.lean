/-
  File:      AtomicSync/Mutex/SmokeProgress.lean
  Subject:   The two threads of the test can always still finish.

  A thread that is refused starts over, so no schedule need ever end; and an exchange works on the
  value its call last found, which may be stale. Neither can shut the threads out: from every state
  a run of the client gets to, some continuation lets all of them return.

  The measure gives a thread's place its distance from the next write or from the return (`rank`);
  a write, of which there are `max` at most, pays for everything after it. The step that lowers it
  is the holder's; where nobody holds the mutex it is that of the thread that expects the value,
  and once the value is the maximum that of any thread still there.

  * `lowers` -- some step leaves less to do;
  * **`can_finish`** -- at most 25 steps for each number still to be written and for each thread.
-/
import AtomicSync.Lib.Population
import AtomicSync.Lib.Progress
import AtomicSync.Mutex.Smoke

namespace AtomicSync.Mutex.Smoke

open Atomics

variable {V κ : Type} [DecidableEq κ] [DecidableEq V] {S : MutexSignal V} {v₀ : V}
  {work : κ → Work} {max : ℕ}

/-! ## 1. The measure -/

/-- The thread leaves the loop at this value, or writes. -/
def Work.moves (w : Work) (value : ℕ) : Bool := decide (w.max ≤ value) || w.expect value

/-- How far a thread is, at most, from its next write or its return, on a cell it finds released;
    a holder that does not expect the value has to come back for the next one. -/
def rank (v₀ : V) (w : Work) (value : ℕ) : Phase → Slot V → ℕ
  | .returned, _ => 0
  | .leaving true, _ | .desiring, _ => 1
  | .checking, _ => if w.moves value then 2 else 23
  | .locking, .trying _ v => if v = v₀ then 9 else 13
  | .locking, .loading _ => 10
  | .looping, _ => 11
  | .locking, _ => 12
  | .leaving false, _ => 21
  | .pushing, _ => 22

theorem rank_le (v₀ : V) (w : Work) (value : ℕ) (p : Phase) (c : Slot V) :
    rank v₀ w value p c ≤ 23 := by
  unfold rank
  split <;> first | omega | (split <;> omega)

/-- Only a thread that has returned has nothing left. -/
theorem returned_of_rank {w : Work} {value : ℕ} {p : Phase} {c : Slot V}
    (h : rank v₀ w value p c = 0) : p = .returned := by
  unfold rank at h
  split at h
  · rfl
  all_goals first | omega | (split at h <;> omega)

/-- The value matters to a thread that is about to compare it. -/
theorem rank_value (w : Work) (value value' : ℕ) {p : Phase} (hp : p ≠ .checking) (c : Slot V) :
    rank v₀ w value p c = rank v₀ w value' p c := by
  cases p with
  | checking => exact absurd rfl hp
  | leaving exit => cases exit <;> rfl
  | locking => cases c <;> rfl
  | _ => rfl

/-- A thread with its arguments and its slot. -/
def Config.view (work : κ → Work) (s : Config V κ) (i : κ) : Work × Thread × Slot V :=
  (work i, s.threads i, s.slots i)

/-- What a thread has left, at this value. -/
def rankOf (v₀ : V) (value : ℕ) : Work × Thread × Slot V → ℕ
  | (w, t, c) => rank v₀ w value t.phase c

variable [Fintype κ]

/-- **What is left to do.** -/
def Config.remaining (v₀ : V) (work : κ → Work) (max : ℕ) (s : Config V κ) : ℕ :=
  25 * (max - s.value) + Population.total (rankOf v₀ s.value) (s.view work)

omit [DecidableEq κ] in
theorem remaining_le (v₀ : V) (work : κ → Work) (max : ℕ) (s : Config V κ) :
    s.remaining v₀ work max ≤ 25 * (max - s.value) + 23 * Fintype.card κ :=
  Nat.add_le_add_left (Population.total_le (fun _ => rank_le _ _ _ _ _) _) _

/-! ## 2. A step that leaves less to do -/

/-- Some step, in which no exchange fails spuriously, leaves less to do. -/
def Lowers (S : MutexSignal V) (v₀ : V) (work : κ → Work) (max : ℕ) (s : Config V κ) : Prop :=
  ∃ a s', step S work s a = some s' ∧ a.spurious = false ∧
    s'.remaining v₀ work max < s.remaining v₀ work max

/-- The value stays and the thread gets on. -/
theorem lowers_of_rank {s : Config V κ} {m : Mutex.Config V κ ℕ} {i : κ} {t : Thread}
    (h : step S work s ⟨i, false⟩ = some ⟨m, Function.update s.threads i t⟩)
    (hv : m.value = s.value)
    (hlt : rank v₀ (work i) s.value t.phase (m.slots i) <
      rank v₀ (work i) s.value (s.threads i).phase (s.slots i)) : Lowers S v₀ work max s := by
  refine ⟨⟨i, false⟩, _, h, rfl, ?_⟩
  have hrest := Population.total_change (rankOf v₀ s.value) (rankOf v₀ s.value) (s.view work)
    (Config.view work ⟨m, Function.update s.threads i t⟩) (i := i) fun j hj => by
      obtain ⟨ht, hc⟩ := frame_of_step h hj
      unfold Config.view
      rw [ht, hc]
  have hthen : rankOf v₀ s.value (Config.view work ⟨m, Function.update s.threads i t⟩ i) <
      rankOf v₀ s.value (s.view work i) := by
    show rank v₀ (work i) s.value (Function.update s.threads i t i).phase (m.slots i) < _
    rw [Function.update_self]
    exact hlt
  unfold Config.remaining
  show 25 * (max - m.value) + Population.total (rankOf v₀ m.value) _ < _
  rw [hv]
  omega

/-- The write: one number less, for a thread that has to come back. -/
theorem lowers_of_write (hT : Turnwise work max) {s : Config V κ} (hs : Turns S v₀ work max s)
    {i : κ} (hp : (s.threads i).phase = .desiring) : Lowers S v₀ work max s := by
  have hguard : s.slots i = .guard := by
    have hfits := hs.placed i
    rw [hp] at hfits
    exact hfits
  obtain ⟨hlt, -⟩ := (hs.keeps i).desiring hp
  have hstep : step S work s ⟨i, false⟩ = some ⟨{ s.toConfig with value := s.value + 1 },
      Function.update s.threads i ⟨.pushing, (s.threads i).vec⟩⟩ := by
    simp [step, hp, Config.access, Mutex.step, hguard, hT.desire]
  refine ⟨⟨i, false⟩, _, hstep, rfl, ?_⟩
  have hrest := Population.total_change (rankOf v₀ s.value) (rankOf v₀ (s.value + 1))
    (s.view work) (Config.view work ⟨{ s.toConfig with value := s.value + 1 },
      Function.update s.threads i ⟨.pushing, (s.threads i).vec⟩⟩) (i := i) fun j hj => by
      have hnc : (s.threads j).phase ≠ .checking := by
        intro e
        refine hj (hs.alone (i := i) (j := j) ?_ ?_)
        · rw [hp]
          rfl
        · rw [e]
          rfl
      show rank v₀ (work j) (s.value + 1) (Function.update s.threads i _ j).phase (s.slots j) =
        rank v₀ (work j) s.value (s.threads j).phase (s.slots j)
      rw [Function.update_of_ne hj]
      exact rank_value _ _ _ hnc _
  have hnow : rankOf v₀ s.value (s.view work i) = 1 := by
    show rank v₀ (work i) s.value (s.threads i).phase (s.slots i) = 1
    rw [hp]
    rfl
  have hthen : rankOf v₀ (s.value + 1) (Config.view work ⟨{ s.toConfig with value := s.value + 1 },
      Function.update s.threads i ⟨.pushing, (s.threads i).vec⟩⟩ i) = 22 := by
    show rank v₀ (work i) (s.value + 1) (Function.update s.threads i _ i).phase (s.slots i) = 22
    rw [Function.update_self]
    rfl
  unfold Config.remaining
  show 25 * (max - (s.value + 1)) + Population.total (rankOf v₀ (s.value + 1)) _ < _
  omega

/-- **A holder** gets on by itself: it writes, or leaves. -/
theorem lowers_of_holder (hT : Turnwise work max) {s : Config V κ}
    (hs : Turns S v₀ work max s) {i : κ} (hh : (s.threads i).phase.holds = true) :
    Lowers S v₀ work max s := by
  have hguard : s.slots i = .guard := (Phase.fits_guard (hs.placed i)).mpr hh
  cases hp : (s.threads i).phase with
  | looping | locking | returned =>
      rw [hp] at hh
      cases hh
  | desiring => exact lowers_of_write hT hs hp
  | checking =>
      by_cases hv : (work i).max ≤ s.value
      · refine lowers_of_rank (m := s.toConfig) (t := ⟨.leaving true, (s.threads i).vec⟩) (i := i)
          ?_ rfl ?_
        · simp [step, hp, hv, Config.set]
        · rw [hp]
          simp [rank, Work.moves, hv]
      · cases he : (work i).expect s.value with
        | true =>
            refine lowers_of_rank (m := s.toConfig) (t := ⟨.desiring, (s.threads i).vec⟩) (i := i)
              ?_ rfl ?_
            · simp [step, hp, hv, he, Config.set]
            · rw [hp]
              simp [rank, Work.moves, he]
        | false =>
            refine lowers_of_rank (m := s.toConfig) (t := ⟨.leaving false, (s.threads i).vec⟩)
              (i := i) ?_ rfl ?_
            · simp [step, hp, hv, he, Config.set]
            · rw [hp]
              simp [rank, Work.moves, hv, he]
  | pushing =>
      refine lowers_of_rank (m := s.toConfig) (i := i)
        (t := ⟨.leaving false, (s.threads i).vec ++ [s.value]⟩) ?_ rfl ?_
      · simp [step, hp, Config.set]
      · rw [hp]
        exact Nat.lt_succ_self 21
  | leaving exit =>
      refine lowers_of_rank (m := s.toConfig.dropGuard S i) (i := i)
        (t := ⟨if exit then .returned else .looping, (s.threads i).vec⟩) ?_ rfl ?_
      · simp [step, hp, Config.access, Mutex.step, hguard]
      · rw [hp]
        cases exit with
        | true => exact Nat.one_pos
        | false =>
            show 11 < 21
            decide

/-- An exchange on a released cell succeeds, or finds the call's value stale. -/
theorem lowers_of_trying (h0 : S.isReleased v₀ = true) {s : Config V κ}
    (hfree : s.state = v₀) {i : κ} (hp : (s.threads i).phase = .locking) {v : V}
    (hc : s.slots i = .trying .lock v) (hm : (work i).moves s.value = true) :
    Lowers S v₀ work max s := by
  have hstep : step S work s ⟨i, false⟩ = some ⟨s.toConfig.attempt S i .lock v false,
      Function.update s.threads i ⟨afterLock ((s.toConfig.attempt S i .lock v false).slots i),
        (s.threads i).vec⟩⟩ := by
    simp [step, hp, Config.access, Mutex.step, hc]
  have hslot : ∀ {m : Mutex.Config V κ ℕ} {c : Slot V}, s.toConfig.attempt S i .lock v false = m →
      m.slots i = c → m.value = s.value →
      rank v₀ (work i) s.value (afterLock c) c <
        rank v₀ (work i) s.value .locking (.trying .lock v) →
      Lowers S v₀ work max s := by
    intro m c hm hc' hv hlt
    rw [hm] at hstep
    refine lowers_of_rank hstep hv ?_
    rw [hp, hc, hc']
    exact hlt
  have hstale : v ≠ v₀ → ∀ u, rank v₀ (work i) s.value .locking (.polling u) <
      rank v₀ (work i) s.value .locking (.trying .lock v) := by
    intro hne u
    show 12 < if v = v₀ then 9 else 13
    rw [if_neg hne]
    decide
  rcases tryOnce_cases S.isReleased S.makeAcquired false v s.state with
    ⟨hr, ⟨hcell, -⟩, ho⟩ | ⟨hr, hne, ho⟩ | ⟨hr, ho⟩
  · refine hslot (m := { s.toConfig.put i .guard with state := S.makeAcquired v }) (c := .guard)
      ?_ (Config.put_slots_self _ _ _) rfl ?_
    · unfold Config.attempt
      rw [ho]
    · show (if (work i).moves s.value then 2 else 23) < if v = v₀ then 9 else 13
      rw [if_pos hm, if_pos (hcell ▸ hfree)]
      decide
  · refine hslot (m := { s.toConfig.put i (.polling s.state) with state := s.state })
      (c := .polling s.state) ?_ (Config.put_slots_self _ _ _) rfl (hstale ?_ _)
    · unfold Config.attempt
      rw [ho]
      rfl
    · intro e
      cases hne (hfree.trans e.symm)
  · refine hslot (m := { s.toConfig.put i (.polling v) with state := s.state })
      (c := .polling v) ?_ (Config.put_slots_self _ _ _) rfl (hstale ?_ _)
    · unfold Config.attempt
      rw [ho]
      rfl
    · rintro rfl
      rw [h0] at hr
      cases hr

/-- **A thread that waits** gets on where nobody holds the mutex and it has something to do: a
    current value is exchanged, a stale one ends in a refusal. -/
theorem lowers_of_waiter (h0 : S.isReleased v₀ = true) {s : Config V κ}
    (hs : Turns S v₀ work max s) (hfree : s.state = v₀) {i : κ}
    (hp : (s.threads i).phase = .looping ∨ (s.threads i).phase = .locking)
    (hm : (work i).moves s.value = true) : Lowers S v₀ work max s := by
  have hfits := hs.placed i
  rcases hp with hp | hp
  · rw [hp] at hfits
    have hidle : s.slots i = .idle := hfits
    refine lowers_of_rank (m := s.toConfig.put i (.loading .lock)) (i := i)
      (t := ⟨.locking, (s.threads i).vec⟩) ?_ rfl ?_
    · simp [step, hp, Config.access, Mutex.step, hidle]
    · rw [hp, Config.put_slots_self]
      exact Nat.lt_succ_self 10
  · rw [hp] at hfits
    rcases hfits with hc | ⟨v, hc⟩ | ⟨v, hc⟩
    · refine lowers_of_rank (m := s.toConfig.put i (.trying .lock s.state)) (i := i)
        (t := ⟨.locking, (s.threads i).vec⟩) ?_ rfl ?_
      · simp [step, hp, Config.access, Mutex.step, hc, afterLock]
      · rw [hp, hc, Config.put_slots_self]
        simp [rank, hfree]
    · exact lowers_of_trying h0 hfree hp hc hm
    · refine lowers_of_rank (m := s.toConfig.put i .idle) (i := i)
        (t := ⟨.looping, (s.threads i).vec⟩) ?_ rfl ?_
      · simp [step, hp, Config.access, Mutex.step, hc, afterLock]
      · rw [hp, hc, Config.put_slots_self]
        exact Nat.lt_succ_self 11

/-! ## 3. Finishing -/

/-- **Some step leaves less to do**, where some thread expects each value below the maximum. -/
theorem lowers (h0 : S.isReleased v₀ = true) (hT : Turnwise work max)
    (hC : ∀ n, n < max → ∃ i, (work i).expect n = true) {s : Config V κ}
    (hs : Turns S v₀ work max s) (hpos : 0 < s.remaining v₀ work max) :
    Lowers S v₀ work max s := by
  by_cases hh : ∃ i, (s.threads i).phase.holds = true
  · obtain ⟨i, hi⟩ := hh
    exact lowers_of_holder hT hs hi
  · have hfree : s.state = v₀ := by
      cases hs.serial with
      | free hn hc => exact hc
      | held i hi ho hc => exact absurd ⟨i, (Phase.fits_guard (hs.placed i)).mp hi⟩ hh
    have hwaits : ∀ i, (s.threads i).phase ≠ .returned →
        (s.threads i).phase = .looping ∨ (s.threads i).phase = .locking := by
      intro i hi
      have hn : (s.threads i).phase.holds ≠ true := fun e => hh ⟨i, e⟩
      cases hp : (s.threads i).phase with
      | looping => exact Or.inl rfl
      | locking => exact Or.inr rfl
      | returned => exact absurd hp hi
      | _ => exact absurd (by rw [hp]; rfl) hn
    by_cases hv : s.value < max
    · -- the thread that expects the value has not returned
      obtain ⟨i, hi⟩ := hC _ hv
      refine lowers_of_waiter h0 hs hfree (hwaits i fun e => ?_) (i := i) ?_
      · exact absurd ((hs.keeps i).done (Or.inr e)) (Nat.ne_of_lt hv)
      · unfold Work.moves
        rw [hi, Bool.or_true]
    · -- every thread leaves, and some thread is left
      have hrank : 0 < Population.total (rankOf v₀ s.value) (s.view work) := by
        unfold Config.remaining at hpos
        omega
      obtain ⟨i, hi⟩ := Population.exists_of_total_pos hrank
      refine lowers_of_waiter h0 hs hfree (hwaits i fun e => ?_) (i := i) ?_
      · have hz : rank v₀ (work i) s.value (s.threads i).phase (s.slots i) = 0 := by
          rw [e]
          rfl
        exact absurd hz (Nat.ne_of_gt hi)
      · unfold Work.moves
        rw [hT.max, decide_eq_true (Nat.le_of_not_lt hv), Bool.true_or]

/-- **The threads can always still finish**: from every state of a run, by steps none of which
    fails spuriously, and in a number of them that what is left to write and the threads bound. -/
theorem can_finish (hS : S.Lawful) (h0 : S.isReleased v₀ = true) (hT : Turnwise work max)
    (hC : ∀ n, n < max → ∃ i, (work i).expect n = true)
    {ts : List (Trans (Config V κ) (Act κ))} {s : Config V κ}
    (hr : Run (step S work) (start κ v₀) ts s) :
    ∃ s', Within (step S work) (fun t => t.act.spurious = false)
        (25 * (max - s.value) + 23 * Fintype.card κ) s s' ∧
      (∀ i, (s'.threads i).phase = .returned) ∧ s'.value = max := by
  have hdrains : Drains (step S work) (Turns S v₀ work max) (fun t => t.act.spurious = false)
      (Config.remaining v₀ work max) 1 := by
    refine .of_step (fun t h _ hs => turns_step hS h0 hT h hs) fun s hs hpos => ?_
    obtain ⟨a, s', h, ha, hlt⟩ := lowers h0 hT hC hs hpos
    exact ⟨a, s', h, ha, hlt⟩
  obtain ⟨s', hrun, hs', hzero⟩ := hdrains.run (turns_run hS h0 hT hr)
  unfold Config.remaining at hzero
  have hret : ∀ i, (s'.threads i).phase = .returned := by
    intro i
    have hz : Population.total (rankOf v₀ s'.value) (s'.view work) = 0 := by omega
    exact returned_of_rank (Population.total_eq_zero.mp hz i)
  refine ⟨s', hrun.weaken ?_, hret, ?_⟩
  · have hle := remaining_le v₀ work max s
    omega
  · have hbound := hs'.bound
    omega

/-- The test, whatever its two threads have done so far: 16 is the maximum it uses. -/
theorem can_finish_threads :
    ∃ ts s, Run (step (msbAsMutexSignal 8) (threads 16)) (start (Fin 2) 0#8) ts s ∧
      s.slots 0 = .trying .lock 0x80#8 ∧
      ∃ s', Within (step (msbAsMutexSignal 8) (threads 16)) (fun t => t.act.spurious = false)
          (25 * (16 - s.value) + 46) s s' ∧
        ∀ i, (s'.threads i).phase = .returned := by
  obtain ⟨ts, s, hr, h0⟩ := Run.of_exec (step (msbAsMutexSignal 8) (threads 16))
    (start (Fin 2) 0#8) [⟨1, false⟩, ⟨1, false⟩, ⟨1, false⟩, ⟨0, false⟩, ⟨0, false⟩, ⟨1, false⟩]
    (fun _ s => s.slots 0 = .trying .lock 0x80#8) (by decide)
  have hcovers : ∀ n, n < 16 → ∃ i, (threads 16 i).expect n = true := by decide
  obtain ⟨s', hrun, hret, -⟩ :=
    can_finish (msb_lawful (by decide)) (by decide) (threads_turnwise 16) hcovers hr
  exact ⟨ts, s, hr, h0, s', hrun, hret⟩

end AtomicSync.Mutex.Smoke
