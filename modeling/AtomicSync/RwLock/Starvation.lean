/-
  File:      AtomicSync/RwLock/Starvation.lean
  Subject:   What the lock does not promise -- a task that waits may wait for ever, whatever it waits
             for -- and what is left: behind WRITER_QUEUED some writer gets in.

  Every waiter CAN be served (`every_waiter_can_be_served`, Progress.lean), and a queued writer
  keeps new readers out (`queued_writer_waits`, Preference.lean). Neither is fairness. Here are the
  executions without an end in which a task tries again and again and is turned away every time,
  while nobody keeps the lock:

  * **`every_task_can_starve`** -- a reader, a writer, an upgradable reader: the lock is free and
    everybody else idle again and again, but each attempt falls into the one WriterGuard another
    user takes in between. WRITER_QUEUED is no ticket: a second writer may pass the first, and its
    drop takes the flag away;
  * **`upgrade_can_starve`** -- a pinned upgrade, as long as no writer is queued: its own guard
    keeps writers out, but not readers, and one reader beside it is enough to refuse it.

  All steps there are disciplined, and the task is never cancelled.

  * **`writers_get_in`** -- where readers leave and attempts to write never cease, a queued writer's
    flag brings a WriterGuard to somebody.
-/
import AtomicSync.Lib.Endless
import AtomicSync.RwLock.Preference
import AtomicSync.RwLock.Progress

namespace AtomicSync.RwLock

variable {w : ℕ} {ι T : Type}

/-- **The attempt of the call in slot `k` is turned away**: it is over, and the call still waits. -/
structure TurnedAway (k : ι) (t : LockTrans w ι T) : Prop where
  attempt : t.act = .run k .attempt ∨ ∃ j, t.act = .attemptUpgrade k j
  waits : (t.post.slots k).waits = true

/-! ## 1. A step that is refused -/

section Refused

variable [DecidableEq ι]

/-- A row whose update the fields do not admit is refused. -/
theorem refused_step (hw : 8 ≤ w) {s : Config w ι T} {i : ι} {a : Action} {u : Update}
    {g r : Slot ι} (hi : (s.slots i).instr a = some (.update u g r))
    (ha : u.admits (maxReaderCount w) (fields s.stat) = false) :
    step s (.run i a) = some (s.put i r) := by
  rw [← Update.isSome_run hw, Option.isSome_eq_false_iff, Option.isNone_iff_eq_none] at ha
  exact step_of_case (.refused i a u g r hi ha)

/-- **Under a WriterGuard every attempt is turned away.** What it leaves in the word is
    WRITER_QUEUED, if it was a writer's. -/
theorem turned_away (hw : 8 ≤ w) {s : Config w ι T}
    (hf : fields s.stat = ⟨true, false, false, 0⟩) (hL : ∀ i, ¬ Lent s i) {k : ι} {c : Call}
    (hk : s.slots k = .calling c .task) :
    ∃ s' m, step s (.run k .attempt) = some s' ∧ Awaiting k ⟨s, .run k .attempt, s'⟩ ∧
      TurnedAway k ⟨s, .run k .attempt, s'⟩ ∧ Within step (Awaiting k) 1 s' m ∧
      m.slots = Function.update s.slots k (.polling c) ∧ m.data = s.data ∧
      ∃ q, fields m.stat = ⟨true, q, false, 0⟩ := by
  have hmax := maxReaderCount_ge hw
  have hgo : ∀ s', Awaiting k ⟨s, .run k .attempt, s'⟩ := by
    intro s'
    refine ⟨finish_disciplined (by rw [hk]; rfl) (hL k) fun _ => ?_, by rw [hk]; rfl⟩
    rw [hf]
    show 0 < maxReaderCount w
    omega
  have hput : ∀ c', (c'.waits = true) → TurnedAway k ⟨s, .run k .attempt, s.put k c'⟩ := by
    intro c' hc
    refine ⟨Or.inl rfl, ?_⟩
    show ((s.put k c').slots k).waits = true
    rw [Config.put_slots_self]
    exact hc
  cases c with
  | read =>
      have hstep := refused_step hw (s := s) (i := k) (a := .attempt) (u := .tryRead)
        (r := .polling .read) (by rw [hk]; rfl) (by rw [hf]; simp [Update.admits])
      exact ⟨_, _, hstep, hgo _, hput _ rfl, (Within.refl _).weaken (Nat.zero_le _), rfl, rfl, _,
        hf⟩
  | upgradableRead =>
      have hstep := refused_step hw (s := s) (i := k) (a := .attempt) (u := .tryUpgradableRead)
        (r := .polling .upgradableRead) (by rw [hk]; rfl) (by rw [hf]; simp [Update.admits])
      exact ⟨_, _, hstep, hgo _, hput _ rfl, (Within.refl _).weaken (Nat.zero_le _), rfl, rfl, _,
        hf⟩
  | write =>
      have hstep := refused_step hw (s := s) (i := k) (a := .attempt) (u := .tryWrite)
        (r := .refused .task) (by rw [hk]; rfl) (by rw [hf]; simp [Update.admits])
      have hk' : (s.put k (.refused .task)).slots k = .refused .task := Config.put_slots_self s k _
      have hL' := unlent_update (t := s.put k (.refused .task)) rfl (fun i e => by cases e) hL
      -- the second update of the failed `try_write` queues the writer
      obtain ⟨m, hqueue, hm, hd, hfm⟩ := granted_step hw (s := s.put k (.refused .task)) (i := k)
        (a := .queue) (u := .tryWriteQueue) (g := .polling .write) (r := .polling .write)
        (by rw [hk']; rfl) (by show Update.admits _ _ (fields s.stat) = true; rw [hf]; rfl)
        ⟨Nat.zero_le _, count_le_max hw _⟩
      refine ⟨_, m, hstep, hgo _, hput _ rfl, .one hqueue ⟨?_, by rw [hk']; rfl⟩, ?_, hd, true, ?_⟩
      · refine finish_disciplined (by rw [hk']; rfl) (hL' k) fun he => ?_
        obtain ⟨m, e⟩ := he
        rw [hk'] at e
        cases e
      · rw [hm]
        exact Function.update_idem _ _ _
      · rw [hfm]
        show Update.effect .tryWriteQueue (fields s.stat) = _
        rw [hf]
        rfl

end Refused

/-! ## 2. Turned away for ever -/

section Starves

variable [DecidableEq ι]

/-- **From a free lock and back to it**: a writer comes, the task fails, the writer leaves. -/
theorem starves_free (hw : 8 ≤ w) {s : Config w ι T} (h0 : s.stat = 0#w) (hL : ∀ i, ¬ Lent s i)
    {k j : ι} {c : Call} (hk : s.slots k = .polling c) (hj : s.slots j = .idle) :
    ∃ e, Endless step (Awaiting k) s e ∧ (∃ᶠ n in Filter.atTop, (e n).pre = s) ∧
      ∃ᶠ n in Filter.atTop, TurnedAway k (e n) := by
  have hf : fields s.stat = ⟨false, false, false, 0⟩ := by rw [h0, fields_zero hw]
  have hjk : j ≠ k := by
    intro e
    rw [e, hk] at hj
    cases hj
  -- the writer in slot j
  obtain ⟨m, htake, hm, hd, hfm⟩ := take_step hw hL hj (c := .write) (u := .tryWrite) rfl
    (by rw [hf]; rfl) ⟨Nat.zero_le _, count_le_max hw _⟩ (fun e => by cases e)
  rw [hf] at hfm
  have hLm := unlent_update hm (fun i e => by cases e) hL
  have hmk : m.slots k = .polling c := by rw [hm, Function.update_of_ne hjk.symm, hk]
  have hin : Within step (Awaiting k) 2 s m := by
    refine htake.mono fun t ht => ⟨ht.1, ?_⟩
    rw [ht.2 k hjk.symm, hk]
    rfl
  -- the task in slot k
  have hLp := unlent_update (t := m.put k (.calling c .task)) rfl (fun i e => by cases e) hLm
  obtain ⟨m', x, hstep, hgo, haway, hrest, hx, hdx, q, hfx⟩ :=
    turned_away hw (s := m.put k (.calling c .task)) hfm hLp (Config.put_slots_self m k _)
  -- the writer leaves
  have hxj : x.slots j = .writer .acquired := by
    rw [hx, Function.update_of_ne hjk, Config.put_slots_of_ne m hjk, hm, Function.update_self]
  have hxk : x.slots k = .polling c := by rw [hx, Function.update_self]
  have hslots : s.slots = Function.update x.slots j .idle := by
    rw [hx]
    show s.slots = Function.update (Function.update (Function.update m.slots k _) k _) j .idle
    rw [Function.update_idem, Function.update_comm hjk.symm, hm, Function.update_idem, ← hj,
      Function.update_eq_self, ← hk, Function.update_eq_self]
  have hback : step x (.run j .drop) = some s ∧ Disciplined ⟨x, .run j .drop, s⟩ :=
    give_back_step hw (unlent_update hx (fun i e => by cases e) hLp) (by rw [hxj]; rfl)
      (u := .writerGuardDrop) (r := .idle) (by rw [hxj]; rfl) (by rw [hfx]; rfl)
      ⟨Nat.zero_le _, count_le_max hw _⟩ hslots (hd.symm.trans hdx.symm) (by rw [hfx, hf]; rfl)
  have hout := hrest.trans (.one hback.1 ⟨hback.2, by rw [hxk]; rfl⟩)
  have hpoll := poll_step (s := m) (c := .calling c .task) (by rw [hmk]; rfl) (by rw [hmk]; rfl)
    (hLm k)
  obtain ⟨e, he, hstart, hturn⟩ := Endless.of_cycle (hin.trans hpoll) hstep hgo hout
  exact ⟨e, he, hstart, hturn.mono fun n hn => hn ▸ haway⟩

variable [Fintype ι]

/-- **Every task can starve.** From every state of a disciplined run: a task that has failed once
    may go on in an execution without an end, disciplined and never cancelled, in which it is turned
    away infinitely often, although infinitely often the word is 0 and nobody else is there. -/
theorem every_task_can_starve (hw : 8 ≤ w) (hcard : 3 ≤ Fintype.card ι) {d : T}
    {ts : List (LockTrans w ι T)} {s : Config w ι T} (hr : Run step (init w ι d) ts s)
    (hC : ∀ t ∈ ts, Disciplined t) {k : ι} {c : Call} (hk : s.slots k = .polling c) :
    ∃ e, Endless step (Awaiting k) s e ∧
      (∃ᶠ n in Filter.atTop, (e n).pre.stat = 0#w ∧ ∀ i, i ≠ k → (e n).pre.slots i = .idle) ∧
      ∃ᶠ n in Filter.atTop, TurnedAway k (e n) := by
  have hwaits : (s.slots k).waits = true := by
    rw [hk]
    rfl
  obtain ⟨us, m, hrun, hawait, hF, hmk, hidle⟩ := others_leave hw hcard hr hC hwaits
  rw [hk] at hmk
  have hL := unlent_of_alone (s := m) (by rw [hmk]; rfl) hidle
  obtain ⟨j, hjk⟩ := exists_other (by omega) k
  have hfree := fields_of_free hF fun ρ => by
    rw [live_of_alone hidle, hmk]
    rfl
  -- a stranded WRITER_QUEUED is cleared first
  obtain ⟨us', hrun', hclear, -⟩ := write_and_drop hw hfree hL (hidle j hjk)
  have hpath : ∀ t ∈ us' ++ us, Awaiting k t := by
    intro t ht
    rcases List.mem_append.mp ht with ht | ht
    · refine ⟨(hclear t ht).1, ?_⟩
      rw [(hclear t ht).2 k hjk.symm, hmk]
      rfl
    · exact hawait t ht
  obtain ⟨e, he, hstart, hturn⟩ := starves_free hw (s := { m with stat := 0#w }) rfl
    (fun i hi => hL i hi) hmk (hidle j hjk)
  obtain ⟨e', he', hrec⟩ := he.after (hrun.append hrun') hpath
  refine ⟨e', he', hrec (fun t => t.pre.stat = 0#w ∧ ∀ i, i ≠ k → t.pre.slots i = .idle)
    (hstart.mono fun n hn => ?_), hrec (TurnedAway k) hturn⟩
  rw [hn]
  exact ⟨rfl, hidle⟩

/-- The theorem at work: a WriteTask that has queued itself behind a reader. -/
theorem every_task_can_starve_queued :
    ∃ ts s, Run step (init 8 (Fin 3) ()) ts s ∧ s.stat = 0x41#8 ∧ s.slots 1 = .polling .write ∧
      ∃ e, Endless step (Awaiting 1) s e ∧
        (∃ᶠ n in Filter.atTop, (e n).pre.stat = 0#8 ∧ ∀ i, i ≠ 1 → (e n).pre.slots i = .idle) ∧
        ∃ᶠ n in Filter.atTop, TurnedAway 1 (e n) := by
  obtain ⟨ts, s, hr, hL, hB, hO, hP, hstat, h1⟩ := Run.of_exec step (init 8 (Fin 3) ())
    (acquire .read 0 ++ ([.run 1 (.call .write .task), .run 1 .attempt, .run 1 .queue] :
      List (Act (Fin 3) Unit)))
    (fun ts s => (∀ t ∈ ts, ¬ Leaks t) ∧ (∀ t ∈ ts, ¬ BreaksBorrow t) ∧
      (∀ t ∈ ts, ¬ Overflows t) ∧ (∀ t ∈ ts, ¬ DowngradesPinned t) ∧
      s.stat = 0x41#8 ∧ s.slots 1 = .polling .write) (by decide)
  have hC : ∀ t ∈ ts, Disciplined t := fun t ht => ⟨hL t ht, hB t ht, hO t ht, hP t ht⟩
  exact ⟨ts, s, hr, hstat, h1, every_task_can_starve (by decide) (by decide) hr hC h1⟩

/-- **A pinned upgrade can starve while no writer is queued.** From every state of a disciplined
    run in which WRITER_QUEUED is clear, the counter not full and two slots idle: one reader comes
    and goes, and the upgrade is turned away infinitely often, although the state it started from
    -- where, with no reader there, its next attempt would be granted -- comes back infinitely
    often. -/
theorem upgrade_can_starve (hw : 8 ≤ w) {d : T} {ts : List (LockTrans w ι T)} {s : Config w ι T}
    (hr : Run step (init w ι d) ts s) (hC : ∀ t ∈ ts, Disciplined t)
    (hq : (fields s.stat).writerQueued = false) (hroom : (fields s.stat).count < maxReaderCount w)
    {k i j : ι} (hk : s.slots k = .upgradePolling) (hi : s.slots i = .idle)
    (hj : s.slots j = .idle) (hij : i ≠ j) :
    ∃ e, Endless step (Awaiting k) s e ∧ (∃ᶠ n in Filter.atTop, (e n).pre = s) ∧
      ∃ᶠ n in Filter.atTop, TurnedAway k (e n) := by
  obtain ⟨hF, hsusp, -⟩ := ebbing_run hw hr hC ∅
  have hup : (s.slots k).holds .upgradable = true := holds_of_slot hk rfl
  have hne : ∀ l, s.slots l = .idle → l ≠ k := by
    intro l hl e
    rw [e, hk] at hl
    cases hl
  have hik := hne i hi
  -- no writer is there, the upgrade's own guard is
  have hLk : ¬ Lent s k := by
    intro hl
    obtain ⟨l, hl⟩ := hl
    rw [hsusp l k hl] at hk
    cases hk
  have hwr := no_writer_beside hF.exclusive hup (fun e => by rw [hk] at e; cases e) hLk
  have hL : ∀ l, ¬ Lent s l := by
    intro l hl
    obtain ⟨l', hl'⟩ := hl
    have := live_pos (holds_of_slot hl' (ρ := .writer) rfl)
    omega
  have hcount : 0 < (fields s.stat).count := by
    have := live_pos hup
    have := hF.readers.count
    omega
  -- the reader in slot i
  obtain ⟨m, htake, hm, hd, hfm⟩ := take_step hw hL hi (c := .read) (u := .tryRead) rfl
    (by simp [Update.admits, hroom, hq, hF.owned.inactive hwr]) ⟨Nat.zero_le _, hroom⟩
    (fun e => by cases e)
  have hLm := unlent_update hm (fun i e => by cases e) hL
  have hmk : m.slots k = .upgradePolling := by rw [hm, Function.update_of_ne hik.symm, hk]
  have hmj : m.slots j = .idle := by rw [hm, Function.update_of_ne hij.symm, hj]
  have hin : Within step (Awaiting k) 2 s m := by
    refine htake.mono fun t ht => ⟨ht.1, ?_⟩
    rw [ht.2 k hik.symm, hk]
    rfl
  -- the upgrade in slot k
  have hpoll := poll_step (s := m) (c := .upgrading .task) (by rw [hmk]; rfl) (by rw [hmk]; rfl)
    (hLm k)
  have hLp := unlent_update (t := m.put k (.upgrading .task)) rfl (fun i e => by cases e) hLm
  have hpk := Config.put_slots_self m k (.upgrading .task)
  have hnone : Update.upgradeUpgradableToWrite.run (m.put k (.upgrading .task)).stat = none := by
    rw [← Option.isNone_iff_eq_none, ← Option.isSome_eq_false_iff, Update.isSome_run hw]
    show Update.admits _ _ (fields m.stat) = false
    rw [hfm]
    simp [Update.admits, Update.effect]
    omega
  have hstep := step_of_case (.notLent k j .task hpk (by
    rw [Config.put_slots_of_ne m (hne j hj), hmj]) hnone)
  have hsame : (m.put k (.upgrading .task)).put k (upgradeRefusal .task) = m := by
    show ({ m with slots := Function.update (Function.update m.slots k _) k .upgradePolling } :
      Config w ι T) = m
    rw [Function.update_idem, ← hmk, Function.update_eq_self]
  rw [hsame] at hstep
  have hgo : Awaiting k ⟨m.put k (.upgrading .task), .attemptUpgrade k j, m⟩ :=
    ⟨attemptUpgrade_disciplined (hLp k), by rw [hpk]; rfl⟩
  have haway : TurnedAway k ⟨m.put k (.upgrading .task), .attemptUpgrade k j, m⟩ :=
    ⟨Or.inr ⟨j, rfl⟩, by rw [hmk]; rfl⟩
  -- the reader leaves
  have hmi : m.slots i = .reader := by rw [hm, Function.update_self]
  have hslots : s.slots = Function.update m.slots i .idle := by
    rw [hm, Function.update_idem, ← hi, Function.update_eq_self]
  have hback : step m (.run i .drop) = some s ∧ Disciplined ⟨m, .run i .drop, s⟩ :=
    give_back_step hw hLm (by rw [hmi]; rfl) (u := .decreaseReaderCount) (r := .idle)
      (by rw [hmi]; rfl) (by rw [hfm]; simp [Update.admits, Update.effect])
      ⟨by rw [hfm]; exact Nat.succ_pos _, count_le_max hw _⟩ hslots hd.symm
      (by rw [hfm]; simp [Update.effect])
  obtain ⟨e, he, hstart, hturn⟩ := Endless.of_cycle (hin.trans hpoll) hstep hgo
    (.one hback.1 ⟨hback.2, by rw [hmk]; rfl⟩)
  exact ⟨e, he, hstart, hturn.mono fun n hn => hn ▸ haway⟩

/-- The theorem at work: the `Upgrade` is all there is, and its task has been turned away once. -/
theorem upgrade_can_starve_alone :
    ∃ ts s, Run step (init 8 (Fin 3) ()) ts s ∧ s.stat = 0x21#8 ∧ s.slots 0 = .upgradePolling ∧
      ∃ e, Endless step (Awaiting 0) s e ∧ (∃ᶠ n in Filter.atTop, (e n).pre = s) ∧
        ∃ᶠ n in Filter.atTop, TurnedAway 0 (e n) := by
  obtain ⟨ts, s, hr, hL, hB, hO, hP, hstat, h0, h1, h2⟩ := Run.of_exec step (init 8 (Fin 3) ())
    (acquire .upgradableRead 0 ++ acquire .read 1 ++ ([.run 0 .upgrade,
      .run 0 (.startUpgrade .task), .attemptUpgrade 0 2, .run 1 .drop] : List (Act (Fin 3) Unit)))
    (fun ts s => (∀ t ∈ ts, ¬ Leaks t) ∧ (∀ t ∈ ts, ¬ BreaksBorrow t) ∧
      (∀ t ∈ ts, ¬ Overflows t) ∧ (∀ t ∈ ts, ¬ DowngradesPinned t) ∧
      s.stat = 0x21#8 ∧ s.slots 0 = .upgradePolling ∧ s.slots 1 = .idle ∧ s.slots 2 = .idle)
    (by decide)
  have hC : ∀ t ∈ ts, Disciplined t := fun t ht => ⟨hL t ht, hB t ht, hO t ht, hP t ht⟩
  exact ⟨ts, s, hr, hstat, h0, upgrade_can_starve (by decide) hr hC (by rw [hstat]; decide)
    (by rw [hstat]; decide) h0 h1 h2 (by decide)⟩

end Starves

/-! ## 3. Somebody gets in -/

section Fair

variable [Fintype ι] [DecidableEq ι]

/-- **Behind WRITER_QUEUED some writer gets in.** In every execution without an end from a state with
    the flag set and no writer active: if readers leave as long as there are any, and attempts to
    write never cease, a WriterGuard is granted. -/
theorem writers_get_in (hw : 8 ≤ w) {d : T} {ts : List (LockTrans w ι T)} {s : Config w ι T}
    (hr : Run step (init w ι d) ts s) (hO : ∀ t ∈ ts, ¬ Overflows t)
    (hQ : (fields s.stat).writerQueued = true) (hW : (fields s.stat).writerActive = false)
    {C : LockTrans w ι T → Prop} {e : ℕ → LockTrans w ι T} (he : Endless step C s e)
    (hleave : ∀ n, 0 < (fields (e n).pre.stat).count → ∃ m, n ≤ m ∧ 0 < released (e m))
    (htry : ∃ᶠ n in Filter.atTop, updateAt (e n).pre (e n).act = some .tryWrite) :
    ∃ n, seizes (e n) = true := by
  by_contra hnone
  have hS : ∀ n, seizes (e n) = false := fun n => Bool.eq_false_iff.mpr fun h => hnone ⟨n, h⟩
  have hfree : Endless step (fun t => seizes t = false) s e := ⟨he.start, he.steps, he.linked, hS⟩
  have hline : ∀ n, InLine (e n).pre := hfree.invariant
    (fun t h hS hs => (inLine_step hw t h hS hs).1) ⟨⟨bounded_run hw hr hO, hQ⟩, hW⟩
  have hpaid : ∀ n, (fields (e n).post.stat).count + released (e n) =
      (fields (e n).pre.stat).count :=
    fun n => (inLine_step hw (e n) (he.steps n) (hS n) (hline n)).2
  -- the readers that are there leave, and then the next attempt is granted
  obtain ⟨n, hn⟩ := hfree.runs_out (f := fun s => (fields s.stat).count)
    (fun n => by have := hpaid n; omega) fun n hpos => by
      obtain ⟨m, hm, hrel⟩ := hleave n hpos
      have := hpaid m
      exact ⟨m, hm, by omega⟩
  obtain ⟨m, hm, hu⟩ := (Filter.frequently_atTop.mp htry) n
  have hsome : (Update.tryWrite.run (e m).pre.stat).isSome = true := by
    rw [Update.isSome_run hw]
    simp [Update.admits, hn m hm, (hline m).inactive]
  refine absurd (hS m) ?_
  unfold seizes grantedAt
  rw [hu, Option.filter_some, hsome]
  exact Bool.false_ne_true.symm

/-- The theorem at work: the last reader leaves, and writers come and go for ever after. -/
theorem writers_get_in_for_ever :
    ∃ s e, Endless step (fun t => (fields t.pre.stat).count = 0 ∨ 0 < released t) s e ∧
      s.stat = 0x41#8 ∧ ∃ n, seizes (ι := Fin 2) (T := Unit) (e n) = true := by
  obtain ⟨ts, s, us, m, hr, hseg, hO, hstat, hC, hm, hm0⟩ := Run.of_exec_segment step
    (init 8 (Fin 2) ())
    (acquire .read 0 ++ acquire .write 1 ++ ([.run 1 .queue] : List (Act (Fin 2) Unit)))
    ([.run 0 .drop] ++ acquire .write 1 ++ ([.run 1 .drop] : List (Act (Fin 2) Unit)))
    (fun ts s us m => (∀ t ∈ ts, ¬ Overflows t) ∧ s.stat = 0x41#8 ∧
      (∀ t ∈ us, (fields t.pre.stat).count = 0 ∨ 0 < released t) ∧
      (∀ i, m.slots i = .idle) ∧ m.stat = 0#8) (by decide)
  obtain ⟨vs, m', hloop, hC', ht, hm', hm0'⟩ := Run.of_exec step (init 8 (Fin 2) ())
    (acquire .write 1 ++ ([.run 1 .drop] : List (Act (Fin 2) Unit)))
    (fun vs m' => (∀ t ∈ vs, (fields t.pre.stat).count = 0 ∨ 0 < released t) ∧
      (∃ t ∈ vs, updateAt t.pre t.act = some .tryWrite) ∧
      (∀ i, m'.slots i = .idle) ∧ m'.stat = 0#8) (by decide)
  have hnew : ∀ x : Config 8 (Fin 2) Unit, (∀ i, x.slots i = .idle) → x.stat = 0#8 →
      x = init 8 (Fin 2) () := by
    intro x hx h0
    obtain ⟨⟨stat, data⟩, slots⟩ := x
    rw [show stat = 0#8 from h0, show slots = fun _ => .idle from funext hx]
    rfl
  rw [hnew m' hm' hm0'] at hloop
  rw [hnew m hm hm0] at hseg
  obtain ⟨t, ht, hu⟩ := ht
  obtain ⟨e, he, hrec⟩ := Endless.of_loop hloop hC' (List.length_pos_of_mem ht)
  obtain ⟨e', he', hrec'⟩ := he.after hseg hC
  refine ⟨s, e', he', hstat, writers_get_in (by decide) hr hO (by rw [hstat]; decide)
    (by rw [hstat]; decide) he' (fun n hn => ⟨n, Nat.le_refl n, ?_⟩) ?_⟩
  · exact (he'.permitted n).resolve_left (Nat.ne_of_gt hn)
  · exact hrec' (fun t => updateAt t.pre t.act = some .tryWrite)
      ((hrec t ht).mono fun n hn => hn ▸ hu)

end Fair

end AtomicSync.RwLock
