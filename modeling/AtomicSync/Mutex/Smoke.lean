/-
  File:      AtomicSync/Mutex/Smoke.lean
  Subject:   A client of the spinning mutex: the two threads of `multithreaded_usize_smoke_`.

  Each thread runs `testing_thread_work_`: lock with a token that is already cancelled, start over
  where that gives no guard, leave the loop once the value has reached the maximum, and otherwise
  replace a value it `expect`s by `desire` of it and keep what it wrote. One thread waits for odd
  values, the other for even ones.

  * `Config`, `step` -- the threads over the machine of Machine.lean, one access at a time; a
    thread's mutex slot is its `acquire`;
  * `mutex_of_step` -- a step of the client is a step of the mutex, or leaves the mutex alone, so
    what every step of the mutex keeps is kept here;
  * `Turns`, `turns_run` -- the invariant, for any number of threads that take turns: each has
    written what it expects of the values below the current one;
  * **`smoke_asserts`** -- the assertions at the end of the test, for every maximum, every lawful
    signal and every interleaving.
-/
import Mathlib.Data.Fintype.Basic
import Mathlib.Tactic.FinCases
import AtomicSync.Mutex.Serial

namespace AtomicSync.Mutex.Smoke

/-! ## 1. The program -/

/-- The places in `testing_thread_work_`. -/
inductive Phase where
  /-- the head of the loop, about to call `lock` -/
  | looping
  /-- `may_cancel_with` in progress -/
  | locking
  /-- a guard in hand, about to compare the value with `max` and to ask `expect` -/
  | checking
  /-- about to write `desire(*v)` -/
  | desiring
  /-- about to push `*v` -/
  | pushing
  /-- about to drop the guard: at the end of the loop's body, or out of the loop -/
  | leaving (exit : Bool)
  | returned
  deriving DecidableEq, Repr

/-- The arguments of `testing_thread_work_`. -/
structure Work where
  max : ℕ
  expect : ℕ → Bool
  desire : ℕ → ℕ

/-- A thread: its place, and its `vec`. -/
structure Thread where
  phase : Phase
  vec : List ℕ
  deriving DecidableEq, Repr

variable {V κ : Type}

/-- The mutex and the threads. -/
structure Config (V κ : Type) extends Mutex.Config V κ ℕ where
  threads : κ → Thread

/-- A thread's next step; a weak exchange in it may fail spuriously. -/
structure Act (κ : Type) where
  thread : κ
  spurious : Bool
  deriving DecidableEq, Repr

/-- A new mutex with the value 0, and the threads at the head of their loops. -/
def start (κ : Type) (v₀ : V) : Config V κ := ⟨Mutex.init κ v₀ 0, fun _ => ⟨.looping, []⟩⟩

variable [DecidableEq κ]

/-- Thread `i` is now `t`. -/
def Config.set (s : Config V κ) (i : κ) (t : Thread) : Config V κ :=
  { s with threads := Function.update s.threads i t }

variable [DecidableEq V]

/-- Thread `i` makes a step on the mutex, and goes on as `t` says of its slot. -/
def Config.access (S : MutexSignal V) (s : Config V κ) (i : κ) (a : Mutex.Act κ ℕ)
    (t : Slot V → Thread) : Option (Config V κ) :=
  (Mutex.step S s.toConfig a).map fun m => ⟨m, Function.update s.threads i (t (m.slots i))⟩

/-- Where a thread goes after a step of its `lock` call. -/
def afterLock : Slot V → Phase
  | .idle => .looping
  | .guard => .checking
  | _ => .locking

/-- **One step of a thread.** -/
def step (S : MutexSignal V) (work : κ → Work) (s : Config V κ) : Act κ → Option (Config V κ)
  | ⟨i, spurious⟩ =>
    let t := s.threads i
    match t.phase with
    | .looping => s.access S i (.run i (.call .lock)) fun _ => { t with phase := .locking }
    | .locking =>
      let go := fun c => { t with phase := afterLock c }
      match s.slots i with
      | .loading _ => s.access S i (.run i .load) go
      | .trying _ _ => s.access S i (.run i (.attempt spurious)) go
      -- the token is a `CancelledToken`
      | .polling _ => s.access S i (.run i (.poll true)) go
      | _ => none
    | .checking =>
      if s.value ≥ (work i).max then some (s.set i { t with phase := .leaving true })
      else if (work i).expect s.value then some (s.set i { t with phase := .desiring })
      else some (s.set i { t with phase := .leaving false })
    | .desiring =>
      s.access S i (.store i ((work i).desire s.value)) fun _ => { t with phase := .pushing }
    | .pushing => some (s.set i ⟨.leaving false, t.vec ++ [s.value]⟩)
    | .leaving exit =>
      s.access S i (.run i .drop) fun _ =>
        { t with phase := if exit then .returned else .looping }
    | .returned => none

/-! ## 2. What a step does -/

/-- The shapes of a step of thread `i`. -/
inductive StepCase (S : MutexSignal V) (work : κ → Work) (s : Config V κ) (i : κ) :
    Config V κ → Prop where
  | called (m : Mutex.Config V κ ℕ) (hp : (s.threads i).phase = .looping)
      (hm : Mutex.step S s.toConfig (.run i (.call .lock)) = some m) :
      StepCase S work s i ⟨m, Function.update s.threads i ⟨.locking, (s.threads i).vec⟩⟩
  | locked (m : Mutex.Config V κ ℕ) (a : Action) (hp : (s.threads i).phase = .locking)
      (ha : ∀ k, a ≠ .call k) (hd : a ≠ .drop) (hc : a ≠ .poll false)
      (hm : Mutex.step S s.toConfig (.run i a) = some m) :
      StepCase S work s i
        ⟨m, Function.update s.threads i ⟨afterLock (m.slots i), (s.threads i).vec⟩⟩
  | exits (hp : (s.threads i).phase = .checking) (hv : (work i).max ≤ s.value) :
      StepCase S work s i (s.set i ⟨.leaving true, (s.threads i).vec⟩)
  | expects (hp : (s.threads i).phase = .checking) (hv : s.value < (work i).max)
      (he : (work i).expect s.value = true) :
      StepCase S work s i (s.set i ⟨.desiring, (s.threads i).vec⟩)
  | skips (hp : (s.threads i).phase = .checking) (hv : s.value < (work i).max)
      (he : (work i).expect s.value = false) :
      StepCase S work s i (s.set i ⟨.leaving false, (s.threads i).vec⟩)
  | desired (m : Mutex.Config V κ ℕ) (hp : (s.threads i).phase = .desiring)
      (hm : Mutex.step S s.toConfig (.store i ((work i).desire s.value)) = some m) :
      StepCase S work s i ⟨m, Function.update s.threads i ⟨.pushing, (s.threads i).vec⟩⟩
  | pushed (hp : (s.threads i).phase = .pushing) :
      StepCase S work s i (s.set i ⟨.leaving false, (s.threads i).vec ++ [s.value]⟩)
  | left (m : Mutex.Config V κ ℕ) (exit : Bool) (hp : (s.threads i).phase = .leaving exit)
      (hm : Mutex.step S s.toConfig (.run i .drop) = some m) :
      StepCase S work s i ⟨m, Function.update s.threads i
        ⟨if exit then .returned else .looping, (s.threads i).vec⟩⟩

variable {S : MutexSignal V} {work : κ → Work}

/-- **The inversion of a step.** -/
theorem step_cases {s s' : Config V κ} {a : Act κ} (h : step S work s a = some s') :
    StepCase S work s a.thread s' := by
  obtain ⟨i, b⟩ := a
  show StepCase S work s i s'
  have haccess : ∀ {x t}, s.access S i x t = some s' →
      ∃ m, Mutex.step S s.toConfig x = some m ∧
        (⟨m, Function.update s.threads i (t (m.slots i))⟩ : Config V κ) = s' :=
    fun h => Option.map_eq_some_iff.mp h
  cases hp : (s.threads i).phase with
  | looping =>
      simp only [step, hp] at h
      obtain ⟨m, hm, rfl⟩ := haccess h
      exact .called m hp hm
  | locking =>
      simp only [step, hp] at h
      split at h
      · obtain ⟨m, hm, rfl⟩ := haccess h
        exact .locked m .load hp nofun nofun nofun hm
      · obtain ⟨m, hm, rfl⟩ := haccess h
        exact .locked m (.attempt b) hp nofun nofun nofun hm
      · obtain ⟨m, hm, rfl⟩ := haccess h
        exact .locked m (.poll true) hp nofun nofun nofun hm
      · cases h
  | checking =>
      simp only [step, hp] at h
      split at h
      · next hv =>
        cases h
        exact .exits hp hv
      · next hv =>
        split at h
        · next he =>
          cases h
          exact .expects hp (Nat.lt_of_not_le hv) he
        · next he =>
          cases h
          exact .skips hp (Nat.lt_of_not_le hv) (eq_false_of_ne_true he)
  | desiring =>
      simp only [step, hp] at h
      obtain ⟨m, hm, rfl⟩ := haccess h
      exact .desired m hp hm
  | pushing =>
      simp only [step, hp] at h
      cases h
      exact .pushed hp
  | leaving exit =>
      simp only [step, hp] at h
      obtain ⟨m, hm, rfl⟩ := haccess h
      exact .left m exit hp hm
  | returned =>
      simp only [step, hp] at h
      cases h

/-- **A step of the client is a step of the mutex**, or none of its business. -/
theorem mutex_of_step {s s' : Config V κ} {a : Act κ} (h : step S work s a = some s') :
    s'.toConfig = s.toConfig ∨ ∃ x, Mutex.step S s.toConfig x = some s'.toConfig := by
  cases step_cases h with
  | called m hp hm => exact Or.inr ⟨_, hm⟩
  | locked m x hp ha hd hc hm => exact Or.inr ⟨_, hm⟩
  | desired m hp hm => exact Or.inr ⟨_, hm⟩
  | left m exit hp hm => exact Or.inr ⟨_, hm⟩
  | _ => exact Or.inl rfl

/-! ## 3. A thread and its slot -/

/-- What a thread's slot contains at a place of its code. -/
def Phase.fits : Phase → Slot V → Prop
  | .looping, c | .returned, c => c = .idle
  | .locking, c => c = .loading .lock ∨ (∃ v, c = .trying .lock v) ∨ ∃ v, c = .polling v
  | .checking, c | .desiring, c | .pushing, c | .leaving _, c => c = .guard

/-- The places with a guard in hand. -/
def Phase.holds : Phase → Bool
  | .checking | .desiring | .pushing | .leaving _ => true
  | _ => false

omit [DecidableEq V] in
theorem Phase.fits_guard {p : Phase} {c : Slot V} (h : p.fits c) : c = .guard ↔ p.holds = true := by
  cases p with
  | looping => exact iff_of_false (by rw [show c = .idle from h]; nofun) nofun
  | returned => exact iff_of_false (by rw [show c = .idle from h]; nofun) nofun
  | locking =>
      refine iff_of_false ?_ nofun
      rcases h with rfl | ⟨v, rfl⟩ | ⟨v, rfl⟩ <;> nofun
  | checking => exact iff_of_true h rfl
  | desiring => exact iff_of_true h rfl
  | pushing => exact iff_of_true h rfl
  | leaving exit => exact iff_of_true h rfl

/-- **Every thread's slot is what its place says.** -/
def Placed (s : Config V κ) : Prop := ∀ i, (s.threads i).phase.fits (s.slots i)

omit [DecidableEq V] [DecidableEq κ] in
theorem placed_start (v₀ : V) : Placed (start κ v₀) := fun _ => rfl

/-- The other threads and their slots are as they were. -/
theorem frame_of_step {s s' : Config V κ} {a : Act κ} (h : step S work s a = some s') {j : κ}
    (hj : j ≠ a.thread) : s'.threads j = s.threads j ∧ s'.slots j = s.slots j := by
  have hthreads : ∀ t, Function.update s.threads a.thread t j = s.threads j :=
    fun t => Function.update_of_ne hj t s.threads
  have hrun : ∀ {m : Mutex.Config V κ ℕ} {x : Action},
      Mutex.step S s.toConfig (.run a.thread x) = some m → m.slots j = s.slots j := by
    intro m x hm
    refine slots_other hm fun b hb => hj ?_
    cases hb
    rfl
  cases step_cases h with
  | called m hp hm => exact ⟨hthreads _, hrun hm⟩
  | locked m x hp ha hd hc hm => exact ⟨hthreads _, hrun hm⟩
  | desired m hp hm => exact ⟨hthreads _, slots_other hm nofun⟩
  | left m exit hp hm => exact ⟨hthreads _, hrun hm⟩
  | exits hp hv => exact ⟨hthreads _, rfl⟩
  | expects hp hv he => exact ⟨hthreads _, rfl⟩
  | skips hp hv he => exact ⟨hthreads _, rfl⟩
  | pushed hp => exact ⟨hthreads _, rfl⟩

/-- A step of the `lock` call, with a cancelled token, leaves the call where its slot says. -/
theorem fits_afterLock {s m : Mutex.Config V κ ℕ} {i : κ} {x : Action}
    (hm : Mutex.step S s (.run i x) = some m) (hi : Phase.locking.fits (s.slots i))
    (hc : x ≠ .poll false) : (afterLock (m.slots i)).fits (m.slots i) := by
  have hput : ∀ c : Slot V, (afterLock c).fits c → ∀ m : Mutex.Config V κ ℕ,
      m.slots = (s.put i c).slots → (afterLock (m.slots i)).fits (m.slots i) := by
    intro c hfit m e
    rw [e, Config.put_slots_self]
    exact hfit
  have hmode : ∀ {n : Mode} {v : V}, s.slots i = .trying n v → n = .lock := by
    intro n v hs
    rcases hi with e | ⟨w, e⟩ | ⟨w, e⟩ <;> rw [hs] at e <;> cases e
    rfl
  cases Mutex.step_cases hm with
  | called _ n hs => rcases hi with e | ⟨w, e⟩ | ⟨w, e⟩ <;> rw [hs] at e <;> cases e
  | loaded _ n hs =>
      have hn : n = .lock := by
        rcases hi with e | ⟨w, e⟩ | ⟨w, e⟩ <;> rw [hs] at e <;> cases e
        rfl
      subst hn
      exact hput (.trying .lock s.state) (Or.inr (Or.inl ⟨_, rfl⟩)) _ rfl
  | acquired _ n hs hr => exact hput .guard rfl _ rfl
  | failed _ n current b hs hr hb =>
      rw [hmode hs]
      exact hput (.polling s.state) (Or.inr (Or.inr ⟨_, rfl⟩)) _ rfl
  | refused _ n current b hs hr =>
      rw [hmode hs]
      exact hput (.polling current) (Or.inr (Or.inr ⟨_, rfl⟩)) _ rfl
  | polled _ current b hs =>
      cases b with
      | true => exact hput .idle rfl _ rfl
      | false => exact absurd rfl hc
  | dropped _ hs => exact hput .idle rfl _ rfl

/-- The thread that steps is afterwards where its slot says. -/
theorem fits_of_step {s s' : Config V κ} {a : Act κ} (h : step S work s a = some s')
    (hi : (s.threads a.thread).phase.fits (s.slots a.thread)) :
    (s'.threads a.thread).phase.fits (s'.slots a.thread) := by
  have hself : ∀ (m : Mutex.Config V κ ℕ) (t : Thread), t.phase.fits (m.slots a.thread) →
      (Function.update s.threads a.thread t a.thread).phase.fits (m.slots a.thread) := by
    intro m t ht
    rw [Function.update_self]
    exact ht
  cases step_cases h with
  | called m hp hm =>
      refine hself m _ (Or.inl ?_)
      cases Mutex.step_cases hm with
      | called _ n hs => exact Config.put_slots_self _ _ _
  | locked m x hp ha hd hc hm =>
      rw [hp] at hi
      exact hself m _ (fits_afterLock hm hi hc)
  | desired m hp hm =>
      rw [hp] at hi
      refine hself m _ ?_
      cases Mutex.step_cases hm with
      | stored _ v hs => exact hi
  | left m exit hp hm =>
      refine hself m _ ?_
      have hidle : m.slots a.thread = .idle := by
        cases Mutex.step_cases hm with
        | dropped _ hs => exact Config.put_slots_self s.toConfig a.thread .idle
      cases exit with
      | true => exact hidle
      | false => exact hidle
  | exits hp hv =>
      rw [hp] at hi
      exact hself s.toConfig _ hi
  | expects hp hv he =>
      rw [hp] at hi
      exact hself s.toConfig _ hi
  | skips hp hv he =>
      rw [hp] at hi
      exact hself s.toConfig _ hi
  | pushed hp =>
      rw [hp] at hi
      exact hself s.toConfig _ hi

theorem placed_step {s s' : Config V κ} {a : Act κ} (h : step S work s a = some s')
    (hs : Placed s) : Placed s' := by
  intro j
  by_cases hj : j = a.thread
  · subst hj
    exact fits_of_step h (hs _)
  · obtain ⟨ht, hc⟩ := frame_of_step h hj
    rw [ht, hc]
    exact hs j

/-! ## 4. Taking turns -/

/-- **The threads take turns**: they count to one maximum, and no two expect the same value. -/
structure Turnwise (work : κ → Work) (max : ℕ) : Prop where
  max : ∀ i, (work i).max = max
  desire : ∀ i n, (work i).desire n = n + 1
  expect : ∀ i j n, (work i).expect n = true → (work j).expect n = true → i = j

/-- What a thread with these expectations has written when the value is `n`. -/
def writes (expect : ℕ → Bool) (n : ℕ) : List ℕ := ((List.range n).filter expect).map (· + 1)

theorem writes_succ (expect : ℕ → Bool) (n : ℕ) :
    writes expect (n + 1) = writes expect n ++ if expect n then [n + 1] else [] := by
  unfold writes
  rw [List.range_succ, List.filter_append, List.map_append]
  cases he : expect n with
  | true => simp [he]
  | false => simp [he]

/-- What a thread has written: its `vec`, and the value it is about to push. -/
def Thread.written (value : ℕ) (t : Thread) : List ℕ :=
  t.vec ++ if t.phase = .pushing then [value] else []

/-- A thread of a turnwise client, while the value is `value`. -/
structure Keeps (w : Work) (max value : ℕ) (t : Thread) : Prop where
  written : t.written value = writes w.expect value
  desiring : t.phase = .desiring → value < max ∧ w.expect value = true
  done : t.phase = .leaving true ∨ t.phase = .returned → value = max

/-- A thread that goes on, with nothing written, to a place that says nothing of the value. -/
theorem Keeps.goes {w : Work} {max value : ℕ} {t : Thread} (ht : Keeps w max value t) {p : Phase}
    (hq : t.phase ≠ .pushing) (hp : p ≠ .pushing) (hd : p ≠ .desiring)
    (hr : p = .leaving true ∨ p = .returned → value = max) : Keeps w max value ⟨p, t.vec⟩ where
  written := by
    have h := ht.written
    rw [Thread.written, if_neg hq] at h
    rw [Thread.written, if_neg hp]
    exact h
  desiring := fun h => absurd h hd
  done := hr

/-- A thread that has no guard, and does not expect the value, lets another one raise it. -/
theorem Keeps.raised {w : Work} {max value : ℕ} {t : Thread} (ht : Keeps w max value t)
    (hv : value < max) (hh : t.phase.holds = false) (he : w.expect value = false) :
    Keeps w max (value + 1) t where
  written := by
    have hq : t.phase ≠ .pushing := by
      intro e
      rw [e] at hh
      cases hh
    have h := ht.written
    rw [Thread.written, if_neg hq] at h ⊢
    rw [h, writes_succ, he]
    simp
  desiring := by
    intro e
    rw [e] at hh
    cases hh
  done := fun e => absurd (ht.done e) (Nat.ne_of_lt hv)

/-- **The invariant**: the mutex and the places are as they should be, and every thread has
    written what it expects of the values below the current one. -/
structure Turns (S : MutexSignal V) (v₀ : V) (work : κ → Work) (max : ℕ) (s : Config V κ) :
    Prop where
  serial : Serial S v₀ s.toConfig
  placed : Placed s
  bound : s.value ≤ max
  keeps : ∀ i, Keeps (work i) max s.value (s.threads i)

omit [DecidableEq κ] [DecidableEq V] in
theorem turns_start (S : MutexSignal V) (v₀ : V) (work : κ → Work) (max : ℕ) :
    Turns S v₀ work max (start κ v₀) where
  serial := serial_init v₀ 0
  placed := placed_start v₀
  bound := Nat.zero_le _
  keeps := fun _ => ⟨rfl, nofun, by rintro (e | e) <;> cases e⟩

variable {max : ℕ}

omit [DecidableEq κ] [DecidableEq V] in
/-- Only one thread has a guard. -/
theorem Turns.alone {v₀ : V} {s : Config V κ} (hs : Turns S v₀ work max s) {i j : κ}
    (hi : (s.threads i).phase.holds = true) (hj : (s.threads j).phase.holds = true) : j = i := by
  have hgi := (Phase.fits_guard (hs.placed i)).mpr hi
  have hgj := (Phase.fits_guard (hs.placed j)).mpr hj
  exact (hs.serial.held_of_guard hgi).1 j hgj

omit [DecidableEq V] in
/-- A step that leaves the value alone concerns one thread. -/
theorem Turns.same {v₀ : V} {s : Config V κ} (hs : Turns S v₀ work max s) {i : κ} {t : Thread}
    (ht : Keeps (work i) max s.value t) (j : κ) :
    Keeps (work j) max s.value (Function.update s.threads i t j) := by
  by_cases hj : j = i
  · subst hj
    rw [Function.update_self]
    exact ht
  · rw [Function.update_of_ne hj]
    exact hs.keeps j

omit [DecidableEq V] in
/-- The write: the thread has one number more to push, the others expect nothing of it. -/
theorem Turns.writes {v₀ : V} {s : Config V κ} (hT : Turnwise work max)
    (hs : Turns S v₀ work max s) {i : κ} (hp : (s.threads i).phase = .desiring) (j : κ) :
    Keeps (work j) max (s.value + 1)
      (Function.update s.threads i ⟨.pushing, (s.threads i).vec⟩ j) := by
  obtain ⟨hlt, hexp⟩ := (hs.keeps i).desiring hp
  by_cases hj : j = i
  · subst hj
    rw [Function.update_self]
    refine ⟨?_, nofun, by rintro (e | e) <;> cases e⟩
    have h := (hs.keeps j).written
    rw [Thread.written, hp, if_neg nofun, List.append_nil] at h
    rw [Thread.written, if_pos rfl, writes_succ, if_pos hexp, h]
  · rw [Function.update_of_ne hj]
    refine (hs.keeps j).raised hlt ?_ ?_
    · refine eq_false_of_ne_true fun hh => hj (hs.alone ?_ hh)
      rw [hp]
      rfl
    · exact eq_false_of_ne_true fun he => hj (hT.expect j i _ he hexp)

/-- The values of a step: only the write changes it. -/
theorem keeps_of_step {v₀ : V} (hT : Turnwise work max) {s s' : Config V κ} {a : Act κ}
    (h : step S work s a = some s') (hs : Turns S v₀ work max s) :
    s'.value ≤ max ∧ ∀ j, Keeps (work j) max s'.value (s'.threads j) := by
  have hkeep := hs.keeps a.thread
  have hvalue : ∀ {m : Mutex.Config V κ ℕ} {x : Action},
      Mutex.step S s.toConfig (.run a.thread x) = some m → m.value = s.value := by
    intro m x hm
    rcases value_of_step hm with hv | ⟨i, v, e, -⟩
    · exact hv
    · cases e
  have hsame : ∀ {m : Mutex.Config V κ ℕ} {t : Thread}, m.value = s.value →
      Keeps (work a.thread) max s.value t → m.value ≤ max ∧
        ∀ j, Keeps (work j) max m.value (Function.update s.threads a.thread t j) := by
    intro m t hv ht
    rw [hv]
    exact ⟨hs.bound, hs.same ht⟩
  cases step_cases h with
  | called m hp hm =>
      refine hsame (hvalue hm) (hkeep.goes ?_ nofun nofun ?_)
      · rw [hp]
        nofun
      · rintro (e | e) <;> cases e
  | locked m x hp ha hd hc hm =>
      refine hsame (hvalue hm) (hkeep.goes ?_ ?_ ?_ ?_)
      · rw [hp]
        nofun
      · unfold afterLock
        split <;> nofun
      · unfold afterLock
        split <;> nofun
      · unfold afterLock
        rintro (e | e) <;> split at e <;> cases e
  | exits hp hv =>
      refine hsame (m := s.toConfig) rfl (hkeep.goes ?_ nofun nofun fun _ => ?_)
      · rw [hp]
        nofun
      · rw [hT.max] at hv
        exact Nat.le_antisymm hs.bound hv
  | expects hp hv he =>
      refine hsame (m := s.toConfig) rfl ⟨?_, fun _ => ?_, by rintro (e | e) <;> cases e⟩
      · have hw := hkeep.written
        rw [Thread.written, hp] at hw
        exact hw
      · rw [hT.max] at hv
        exact ⟨hv, he⟩
  | skips hp hv he =>
      refine hsame (m := s.toConfig) rfl (hkeep.goes ?_ nofun nofun ?_)
      · rw [hp]
        nofun
      · rintro (e | e) <;> cases e
  | desired m hp hm =>
      cases Mutex.step_cases hm with
      | stored _ v hg =>
          rw [hT.desire]
          obtain ⟨hlt, -⟩ := hkeep.desiring hp
          exact ⟨hlt, hs.writes hT hp⟩
  | pushed hp =>
      refine hsame (m := s.toConfig) rfl ⟨?_, nofun, by rintro (e | e) <;> cases e⟩
      have hw := hkeep.written
      rw [Thread.written, if_pos hp] at hw
      rw [Thread.written, if_neg nofun, List.append_nil]
      exact hw
  | left m exit hp hm =>
      refine hsame (hvalue hm) (hkeep.goes ?_ ?_ ?_ fun e => ?_)
      · rw [hp]
        nofun
      · cases exit <;> nofun
      · cases exit <;> nofun
      · cases exit with
        | true => exact hkeep.done (Or.inl hp)
        | false => rcases e with e | e <;> cases e

/-- **The step lemma.** -/
theorem turns_step (hS : S.Lawful) {v₀ : V} (h0 : S.isReleased v₀ = true) (hT : Turnwise work max)
    {s s' : Config V κ} {a : Act κ} (h : step S work s a = some s')
    (hs : Turns S v₀ work max s) : Turns S v₀ work max s' := by
  obtain ⟨hbound, hkeeps⟩ := keeps_of_step hT h hs
  refine ⟨?_, placed_step h hs.placed, hbound, hkeeps⟩
  rcases mutex_of_step h with e | ⟨x, hx⟩
  · rw [e]
    exact hs.serial
  · exact serial_step hS h0 hx hs.serial

/-- **The run lemma.** -/
theorem turns_run (hS : S.Lawful) {v₀ : V} (h0 : S.isReleased v₀ = true) (hT : Turnwise work max)
    {ts : List (Trans (Config V κ) (Act κ))} {s : Config V κ}
    (hr : Run (step S work) (start κ v₀) ts s) : Turns S v₀ work max s :=
  hr.invariant (C := fun _ => True) (turns_start S v₀ work max)
    (fun _ h _ hs => turns_step hS h0 hT h hs) fun _ _ => trivial

/-! ## 5. The test -/

def isEven (u : ℕ) : Bool := u % 2 == 0

def isOdd (u : ℕ) : Bool := u % 2 == 1

/-- The two threads of the test. -/
def threads (max : ℕ) : Fin 2 → Work
  | 0 => ⟨max, isOdd, fun u => u + 1⟩
  | 1 => ⟨max, isEven, fun u => u + 1⟩

/-- The assertions after the joins. -/
def asserts (max : ℕ) (v1 v2 : List ℕ) : Bool :=
  v1.length == max / 2 && v2.length == max / 2 && v1.all isEven && v2.all isOdd

theorem threads_turnwise (max : ℕ) : Turnwise (threads max) max where
  max := by
    intro i
    fin_cases i <;> rfl
  desire := by
    intro i n
    fin_cases i <;> rfl
  expect := by
    intro i j n hi hj
    fin_cases i <;> fin_cases j <;> simp [threads, isOdd, isEven] at hi hj ⊢ <;> omega

/-- How many values there are of each kind. -/
theorem length_writes (n : ℕ) :
    (writes isOdd n).length = n / 2 ∧ (writes isEven n).length = (n + 1) / 2 := by
  induction n with
  | zero => exact ⟨rfl, rfl⟩
  | succ n ih =>
      obtain ⟨hodd, heven⟩ := ih
      rw [writes_succ, writes_succ, List.length_append, List.length_append, hodd, heven]
      rcases Nat.mod_two_eq_zero_or_one n with h | h
      · have he : isEven n = true := by simp [isEven, h]
        have ho : isOdd n = false := by simp [isOdd, h]
        simp only [he, ho, if_true, List.length_singleton]
        simp
        omega
      · have he : isEven n = false := by simp [isEven, h]
        have ho : isOdd n = true := by simp [isOdd, h]
        simp only [he, ho, if_true, List.length_singleton]
        simp
        omega

/-- One more than an odd value is even. -/
theorem all_writes_odd (n : ℕ) : (writes isOdd n).all isEven = true := by
  rw [List.all_eq_true]
  intro u hu
  obtain ⟨m, hm, rfl⟩ := List.mem_map.mp hu
  have hodd := (List.mem_filter.mp hm).2
  simp only [isOdd, beq_iff_eq] at hodd
  simp only [isEven, beq_iff_eq]
  omega

theorem all_writes_even (n : ℕ) : (writes isEven n).all isOdd = true := by
  rw [List.all_eq_true]
  intro u hu
  obtain ⟨m, hm, rfl⟩ := List.mem_map.mp hu
  have heven := (List.mem_filter.mp hm).2
  simp only [isEven, beq_iff_eq] at heven
  simp only [isOdd, beq_iff_eq]
  omega

/-- **The test**: whichever way the two threads interleave and whichever exchanges fail, when both
    have returned the value is the maximum, the cell what it was, and the threads have between them
    written every number up to the maximum, each its own and in order. The assertions hold iff the
    maximum is even. -/
theorem smoke_asserts (hS : S.Lawful) {v₀ : V} (h0 : S.isReleased v₀ = true) {max : ℕ}
    {ts : List (Trans (Config V (Fin 2)) (Act (Fin 2)))} {s : Config V (Fin 2)}
    (hr : Run (step S (threads max)) (start (Fin 2) v₀) ts s)
    (hret : ∀ i, (s.threads i).phase = .returned) :
    s.value = max ∧ s.state = v₀ ∧ (∀ i, (s.threads i).vec = writes (threads max i).expect max) ∧
      (asserts max (s.threads 0).vec (s.threads 1).vec = true ↔ max % 2 = 0) := by
  have hs := turns_run hS h0 (threads_turnwise max) hr
  have hvalue : s.value = max := (hs.keeps 0).done (Or.inr (hret 0))
  have hvec : ∀ i, (s.threads i).vec = writes (threads max i).expect max := by
    intro i
    have hw := (hs.keeps i).written
    rw [Thread.written, hret i, if_neg nofun, List.append_nil, hvalue] at hw
    exact hw
  refine ⟨hvalue, ?_, hvec, ?_⟩
  · cases hs.serial with
    | free hn hc => exact hc
    | held i hi ho hc =>
        have hidle : s.slots i = .idle := by
          have hfits := hs.placed i
          rw [hret i] at hfits
          exact hfits
        rw [hidle] at hi
        cases hi
  · obtain ⟨hodd, heven⟩ := length_writes max
    have h1 : (s.threads 0).vec = writes isOdd max := hvec 0
    have h2 : (s.threads 1).vec = writes isEven max := hvec 1
    rw [h1, h2, asserts, hodd, heven, all_writes_odd, all_writes_even]
    simp only [beq_self_eq_true, Bool.true_and, Bool.and_true, beq_iff_eq]
    omega

/-- The test up to 1: the second thread's first exchange fails and its call is cancelled, the first
    thread finds nothing to do, then the second one writes. -/
theorem smoke_asserts_one :
    ∃ ts s, Run (step (msbAsMutexSignal 8) (threads 1)) (start (Fin 2) 0#8) ts s ∧
      (s.threads 0).vec = writes isOdd 1 ∧ (s.threads 1).vec = writes isEven 1 := by
  obtain ⟨ts, s, hr, hret⟩ := Run.of_exec (step (msbAsMutexSignal 8) (threads 1))
    (start (Fin 2) 0#8)
    ([⟨1, false⟩, ⟨1, false⟩, ⟨1, true⟩, ⟨1, false⟩] ++ List.replicate 5 ⟨0, false⟩ ++
      List.replicate 12 ⟨1, false⟩ ++ List.replicate 5 ⟨0, false⟩)
    (fun _ s => ∀ i, (s.threads i).phase = .returned) (by decide)
  obtain ⟨-, -, hvec, -⟩ := smoke_asserts (msb_lawful (by decide)) (by decide) hr hret
  exact ⟨ts, s, hr, hvec 0, hvec 1⟩

end AtomicSync.Mutex.Smoke
