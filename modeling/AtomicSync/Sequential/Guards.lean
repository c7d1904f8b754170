/-
  File:      AtomicSync/Sequential/Guards.lean
  Subject:   `AcqLinkGuard`: `prev_` as the lock of its node.

  The marker is in `prev_` exactly while a guard of the node is alive, and it is never among the
  values a call carries: the value to exchange, the value a guard saves, the address of a node.
  So no exchange takes a node that is taken, whatever it found on the way, and every drop finds
  the marker.

  * `Phase.Sound`, `NodeLock` -- the marker's places; `Locked`, the invariant of the machine;
  * `Effect`, `step_effect` -- a step takes a node, lets one go, or leaves the locks alone;
  * `locked_run` -- any nodes, any number of calls, any interleaving.
-/
import AtomicSync.Sequential.Machine

namespace AtomicSync.Sequential

open Atomics

variable {w : ℕ} {ι κ : Type} {L : Layout w ι}

/-! ## 1. The marker -/

/-- The marker is odd. -/
theorem guarded_odd (L : Layout w ι) : (guarded w).getLsbD 0 = true := by
  unfold guarded
  rw [BitVec.getLsbD_allOnes, decide_eq_true L.width]

theorem Layout.null_ne_guarded (L : Layout w ι) : null w ≠ guarded w := by
  intro h
  have hodd := guarded_odd L
  rw [← h, null, BitVec.getLsbD_zero] at hodd
  cases hodd

/-- No node is at an odd address. -/
theorem Layout.addr_ne_guarded (L : Layout w ι) (n : ι) : L.addr n ≠ guarded w := by
  intro h
  have hodd := guarded_odd L
  rw [← h, ← BitVec.testBit_toNat, Nat.testBit_zero, L.aligned n] at hodd
  cases hodd

/-- The guard is one of node `n` and has not saved the marker. -/
def AcqLinkGuard.Saves (g : AcqLinkGuard w ι) (n : ι) : Prop := g.node = n ∧ g.prev ≠ guarded w

/-- **The values a call carries**, none of them the marker, and the nodes of its guards. -/
def Phase.Sound (this candidate : ι) : Phase w ι → Prop
  | .exchange held current | .poll held current _ =>
    current ≠ guarded w ∧ ∀ g ∈ held, g.Saves candidate
  | .load candidateGuard thisGuard | .dropThis candidateGuard thisGuard _ =>
    candidateGuard.Saves candidate ∧ thisGuard.Saves this
  | .dropCandidate candidateGuard _ => candidateGuard.Saves candidate
  | .returned _ => True
  | .panicked => False

/-! ## 2. The guards at each place -/

theorem nodes_of_call {s : Config w ι κ} {c : κ} {k : InsertCall w ι} (hc : s.calls c = some k) :
    s.nodes c = k.phase.guards.map AcqLinkGuard.node := by
  unfold Config.nodes Config.guards
  rw [hc]

/-- What a drop leaves over. -/
theorem Phase.guards_of_drops {phase phase' : Phase w ι} {g : AcqLinkGuard w ι}
    (h : phase.drops = some (g, phase')) : phase.guards = g :: phase'.guards := by
  cases phase <;> cases h <;> rfl

theorem Phase.guards_acquired (held : Option (AcqLinkGuard w ι)) (current : BitVec w)
    (g : AcqLinkGuard w ι) :
    (acquired held g).guards = g :: (Phase.exchange held current).guards := by
  cases held <;> rfl

theorem Phase.guards_polled (held : Option (AcqLinkGuard w ι)) (current found : BitVec w)
    (b : Bool) : (polled held current found b).guards = (Phase.poll held current found).guards := by
  cases b <;> cases held <;> rfl

theorem Phase.nodes_loaded (this candidate : ι) (candidateGuard thisGuard : AcqLinkGuard w ι)
    (next : BitVec w) :
    (loaded L this candidate candidateGuard thisGuard next).guards.map AcqLinkGuard.node =
      (Phase.load candidateGuard thisGuard).guards.map AcqLinkGuard.node := by
  unfold loaded
  split <;> rfl

/-- No guard has saved the marker. -/
theorem Phase.Sound.saved {this candidate : ι} {phase : Phase w ι}
    (h : phase.Sound this candidate) {g : AcqLinkGuard w ι} (hg : g ∈ phase.guards) :
    g.prev ≠ guarded w := by
  cases phase with
  | exchange held current =>
      obtain ⟨-, h⟩ := h
      exact (h g (by simpa [Phase.guards] using hg)).2
  | poll held current found =>
      obtain ⟨-, h⟩ := h
      exact (h g (by simpa [Phase.guards] using hg)).2
  | load cg tg =>
      simp only [Phase.guards, List.mem_cons, List.not_mem_nil, or_false] at hg
      rcases hg with rfl | rfl
      · exact h.2.2
      · exact h.1.2
  | dropThis cg tg r =>
      simp only [Phase.guards, List.mem_cons, List.not_mem_nil, or_false] at hg
      rcases hg with rfl | rfl
      · exact h.2.2
      · exact h.1.2
  | dropCandidate cg r =>
      obtain rfl := List.mem_singleton.mp hg
      exact h.2
  | returned r => cases hg
  | panicked => cases hg

/-! ## 3. The invariant -/

/-- **The state of a node's lock**: no guard and no marker, or one guard and the marker. -/
inductive NodeLock [DecidableEq ι] (s : Config w ι κ) (n : ι) : Prop where
  | free (hp : (s.links n).prev ≠ guarded w) (hn : ∀ c, n ∉ s.nodes c)
  | held (c : κ) (hp : (s.links n).prev = guarded w) (h1 : (s.nodes c).count n = 1)
      (ho : ∀ c', n ∈ s.nodes c' → c' = c)

variable [DecidableEq ι]

/-- The invariant of the machine. -/
structure Locked (s : Config w ι κ) : Prop where
  sound : ∀ c k, s.calls c = some k → k.phase.Sound k.this k.candidate
  node : ∀ n, NodeLock s n

namespace Locked

variable {s : Config w ι κ} (hs : Locked s) {c c' : κ} {n : ι}

include hs

theorem free_of_unmarked (hp : (s.links n).prev ≠ guarded w) (c : κ) : n ∉ s.nodes c := by
  cases hs.node n with
  | free _ hn => exact hn c
  | held c' hp' _ _ => exact absurd hp' hp

theorem marked (hn : n ∈ s.nodes c) : (s.links n).prev = guarded w := by
  cases hs.node n with
  | free _ hn' => exact absurd hn (hn' c)
  | held _ hp _ _ => exact hp

theorem count_eq_one (hn : n ∈ s.nodes c) : (s.nodes c).count n = 1 := by
  cases hs.node n with
  | free _ hn' => exact absurd hn (hn' c)
  | held c' _ h1 ho => rwa [ho c hn]

theorem single (hn : n ∈ s.nodes c) (hn' : n ∈ s.nodes c') : c = c' := by
  cases hs.node n with
  | free _ hf => exact absurd hn (hf c)
  | held c₀ _ _ ho => exact (ho c hn).trans (ho c' hn').symm

end Locked

theorem locked_init {links : ι → AcqLink w} (h0 : ∀ n, (links n).prev ≠ guarded w) :
    Locked (init κ links) where
  sound := nofun
  node n := .free (h0 n) nofun

/-- A guard that is dropped finds the marker, -/
theorem Locked.marked_of_drops {s : Config w ι κ} (hs : Locked s) {c : κ} {this candidate : ι}
    {phase phase' : Phase w ι} {g : AcqLinkGuard w ι}
    (hc : s.calls c = some ⟨this, candidate, phase⟩) (hd : phase.drops = some (g, phase')) :
    (s.links g.node).prev = guarded w := by
  refine hs.marked (c := c) ?_
  rw [nodes_of_call hc, Phase.guards_of_drops hd]
  exact List.mem_cons_self

/-- and was the only one of its node. -/
theorem Locked.gone_of_drops {s : Config w ι κ} (hs : Locked s) {c : κ} {this candidate : ι}
    {phase phase' : Phase w ι} {g : AcqLinkGuard w ι}
    (hc : s.calls c = some ⟨this, candidate, phase⟩) (hd : phase.drops = some (g, phase')) :
    g.node ∉ phase'.guards.map AcqLinkGuard.node := by
  have hnodes := nodes_of_call hc
  simp only [Phase.guards_of_drops hd, List.map_cons] at hnodes
  have h1 := hs.count_eq_one (c := c) (n := g.node) (by rw [hnodes]; exact List.mem_cons_self)
  rw [hnodes, List.count_cons_self] at h1
  exact List.count_eq_zero.mp (by omega)

/-! ## 4. What a step does to the locks -/

variable [DecidableEq κ]

/-- The slot a step is taken by. -/
def Act.call : Act ι κ → κ
  | .start c _ _ | .exchange c _ | .poll c _ | .load c | .drop c => c

/-- A step of another slot leaves this one as it is. -/
theorem calls_other {s s' : Config w ι κ} {a : Act ι κ} (h : step L s a = some s') {c : κ}
    (hc : c ≠ a.call) : s'.calls c = s.calls c := by
  cases step_cases h with
  | started c' _ _ _ => exact Config.put_calls_of_ne s hc _
  | took c' _ _ _ _ _ _ => exact Config.put_calls_of_ne s hc _
  | failed c' _ _ _ _ _ _ _ => exact Config.put_calls_of_ne s hc _
  | polled c' _ _ _ _ _ _ _ => exact Config.put_calls_of_ne s hc _
  | loaded c' _ _ _ _ _ => exact Config.put_calls_of_ne s hc _
  | dropped c' _ _ _ _ _ _ _ _ => exact Config.put_calls_of_ne s hc _
  | panicked c' _ _ _ _ _ _ _ _ => exact Config.put_calls_of_ne s hc _

theorem nodes_other {s s' : Config w ι κ} {a : Act ι κ} (h : step L s a = some s') {c : κ}
    (hc : c ≠ a.call) : s'.nodes c = s.nodes c := by
  unfold Config.nodes Config.guards
  rw [calls_other h hc]

omit [DecidableEq ι] in
theorem nodes_put (s : Config w ι κ) (c : κ) (k : InsertCall w ι) :
    (s.put c k).nodes c = k.phase.guards.map AcqLinkGuard.node :=
  nodes_of_call (Config.put_calls_self s c k)

omit [DecidableEq ι] in
/-- A place with guards of the same nodes. -/
theorem nodes_put_same {s : Config w ι κ} {c : κ} {k k' : InsertCall w ι}
    (hc : s.calls c = some k) (hg : k'.phase.guards.map AcqLinkGuard.node =
      k.phase.guards.map AcqLinkGuard.node) : (s.put c k').nodes c = s.nodes c := by
  rw [nodes_put, nodes_of_call hc, hg]

/-- **The effect of a step** of slot `c` on the locks. -/
inductive Effect (s s' : Config w ι κ) (c : κ) : Prop where
  /-- a node without the marker is taken -/
  | took (n : ι) (hp : (s.links n).prev ≠ guarded w) (hn : s'.nodes c = n :: s.nodes c)
      (hl : s'.links = setPrev s.links n (guarded w))
  /-- a node is let go, with a value other than the marker -/
  | dropped (n : ι) (p : BitVec w) (hp : p ≠ guarded w) (hn : s.nodes c = n :: s'.nodes c)
      (hl : s'.links = setPrev s.links n p)
  | silent (hn : s'.nodes c = s.nodes c) (hl : s'.links = s.links)

/-- **Every step has one of the three effects**, where the locks are in order. -/
theorem step_effect {s s' : Config w ι κ} {a : Act ι κ} (h : step L s a = some s')
    (hs : Locked s) : Effect s s' a.call := by
  cases step_cases h with
  | started c this candidate hc =>
      refine .silent ?_ rfl
      show (s.put c _).nodes c = s.nodes c
      rw [nodes_put]
      cases hk : s.calls c with
      | none => simp [Config.nodes, Config.guards, hk, Phase.guards]
      | some k =>
          obtain ⟨r, hr⟩ := hc k hk
          rw [nodes_of_call hk, hr]
          rfl
  | took c this candidate held current hc hp =>
      have hsound := hs.sound c _ hc
      refine .took _ (by rw [hp]; exact hsound.1) ?_ rfl
      show (s.put c _).nodes c = _ :: s.nodes c
      rw [nodes_put, nodes_of_call hc, Phase.guards_acquired held current]
      rfl
  | failed c this candidate held current b hc hb => exact .silent (nodes_put_same hc rfl) rfl
  | polled c this candidate held current found b hc =>
      exact .silent (nodes_put_same hc (by rw [Phase.guards_polled])) rfl
  | loaded c this candidate cg tg hc =>
      exact .silent (nodes_put_same hc (Phase.nodes_loaded this candidate cg tg _)) rfl
  | dropped c this candidate phase g phase' hc hd hm =>
      have hsound := hs.sound c _ hc
      have hg := Phase.guards_of_drops hd
      refine .dropped g.node g.prev (hsound.saved (hg ▸ List.mem_cons_self)) ?_ rfl
      show s.nodes c = g.node :: (s.put c _).nodes c
      rw [nodes_put, nodes_of_call hc, hg]
      rfl
  | panicked c this candidate phase g phase' hc hd hm =>
      exact absurd (hs.marked_of_drops hc hd) hm

/-- Nobody ever writes `next_`. -/
theorem next_of_step {s s' : Config w ι κ} {a : Act ι κ} (h : step L s a = some s') (n : ι) :
    (s'.links n).next = (s.links n).next := by
  cases step_cases h with
  | took c this candidate held current hc hp => exact setPrev_next _ _ _ _
  | dropped c this candidate phase g phase' hc hd hm => exact setPrev_next _ _ _ _
  | _ => rfl

/-- `prev_` is written where a guard begins or ends. -/
theorem prev_of_step {s s' : Config w ι κ} {a : Act ι κ} (h : step L s a = some s')
    (hs : Locked s) {n : ι} (hne : (s'.links n).prev ≠ (s.links n).prev) :
    n ∈ s.nodes a.call ↔ n ∉ s'.nodes a.call := by
  cases step_effect h hs with
  | silent hn hl =>
      rw [hl] at hne
      exact absurd rfl hne
  | took m hp hn hl =>
      by_cases hnm : n = m
      · subst hnm
        refine iff_of_false (hs.free_of_unmarked hp a.call) (not_not_intro ?_)
        rw [hn]
        exact List.mem_cons_self
      · rw [hl, setPrev_of_ne s.links hnm] at hne
        exact absurd rfl hne
  | dropped m p hp hn hl =>
      by_cases hnm : n = m
      · subst hnm
        have hin : n ∈ s.nodes a.call := hn ▸ List.mem_cons_self
        have h1 := hs.count_eq_one hin
        rw [hn, List.count_cons_self] at h1
        exact iff_of_true hin (List.count_eq_zero.mp (by omega))
      · rw [hl, setPrev_of_ne s.links hnm] at hne
        exact absurd rfl hne

/-- **The lock of every node stays in order.** -/
theorem nodeLock_step {s s' : Config w ι κ} {a : Act ι κ} (h : step L s a = some s')
    (hs : Locked s) (n : ι) : NodeLock s' n := by
  have hother : ∀ c, c ≠ a.call → s'.nodes c = s.nodes c := fun c hc => nodes_other h hc
  have hkeep : (s'.links n).prev = (s.links n).prev →
      (s'.nodes a.call).count n = (s.nodes a.call).count n → NodeLock s' n := by
    intro hl hcount
    have hmem : ∀ c, n ∈ s'.nodes c ↔ n ∈ s.nodes c := by
      intro c
      by_cases hc : c = a.call
      · rw [hc, ← List.count_pos_iff, ← List.count_pos_iff, hcount]
      · rw [hother c hc]
    cases hs.node n with
    | free hp hn => exact .free (by rwa [hl]) fun c hc => hn c ((hmem c).mp hc)
    | held c hp h1 ho =>
        refine .held c (by rwa [hl]) ?_ fun c' hc' => ho c' ((hmem c').mp hc')
        by_cases hc : c = a.call
        · rw [hc] at h1 ⊢
          rw [hcount, h1]
        · rw [hother c hc, h1]
  cases step_effect h hs with
  | silent hn hl => exact hkeep (by rw [hl]) (by rw [hn])
  | took m hp hn hl =>
      by_cases hnm : n = m
      · subst hnm
        have hfree := hs.free_of_unmarked hp
        refine .held a.call (by rw [hl, setPrev_prev_self]) ?_ fun c hc => ?_
        · rw [hn, List.count_cons_self, List.count_eq_zero.mpr (hfree a.call)]
        · by_contra hne
          rw [hother c hne] at hc
          exact hfree c hc
      · refine hkeep (by rw [hl, setPrev_of_ne s.links hnm]) ?_
        rw [hn, List.count_cons_of_ne (Ne.symm hnm)]
  | dropped m p hp hn hl =>
      by_cases hnm : n = m
      · subst hnm
        have hin : n ∈ s.nodes a.call := hn ▸ List.mem_cons_self
        refine .free (by rw [hl, setPrev_prev_self]; exact hp) fun c hc => ?_
        by_cases hca : c = a.call
        · have h1 := hs.count_eq_one hin
          rw [hn, List.count_cons_self] at h1
          rw [hca, ← List.count_pos_iff] at hc
          omega
        · rw [hother c hca] at hc
          exact hca (hs.single hc hin)
      · refine hkeep (by rw [hl, setPrev_of_ne s.links hnm]) ?_
        rw [hn, List.count_cons_of_ne (Ne.symm hnm)]

/-- The values a call carries stay sound. -/
theorem sound_step {s s' : Config w ι κ} {a : Act ι κ} (h : step L s a = some s')
    (hs : Locked s) {c : κ} {k : InsertCall w ι} (hk : s'.calls c = some k) :
    k.phase.Sound k.this k.candidate := by
  by_cases hc : c = a.call
  swap
  · rw [calls_other h hc] at hk
    exact hs.sound c k hk
  subst hc
  cases step_cases h with
  | started c this candidate hc =>
      obtain rfl := Config.put_calls_inj s hk
      exact ⟨L.null_ne_guarded, nofun⟩
  | took c this candidate held current hc hp =>
      obtain ⟨hcur, hheld⟩ := hs.sound c _ hc
      obtain rfl := Config.put_calls_inj s hk
      cases held with
      | none =>
          refine ⟨L.null_ne_guarded, fun g hg => ?_⟩
          cases hg
          exact ⟨rfl, hcur⟩
      | some cg => exact ⟨hheld cg rfl, rfl, hcur⟩
  | failed c this candidate held current b hc hb =>
      obtain rfl := Config.put_calls_inj s hk
      have hsound := hs.sound c _ hc
      exact hsound
  | polled c this candidate held current found b hc =>
      obtain ⟨hcur, hheld⟩ := hs.sound c _ hc
      obtain rfl := Config.put_calls_inj s hk
      cases b with
      | false =>
          refine ⟨?_, hheld⟩
          show (if found ≠ guarded w then found else current) ≠ guarded w
          split
          · next hf => exact hf
          · exact hcur
      | true =>
          cases held with
          | none => trivial
          | some cg => exact hheld cg rfl
  | loaded c this candidate cg tg hc =>
      obtain ⟨hcg, htg⟩ := hs.sound c _ hc
      obtain rfl := Config.put_calls_inj s hk
      unfold loaded
      split
      · exact ⟨hcg, htg⟩
      · exact ⟨⟨hcg.1, L.addr_ne_guarded this⟩, htg⟩
  | dropped c this candidate phase g phase' hc hd hm =>
      have hsound := hs.sound c _ hc
      obtain rfl := Config.put_calls_inj s hk
      cases phase <;> cases hd
      · exact hsound.1
      · trivial
  | panicked c this candidate phase g phase' hc hd hm =>
      exact absurd (hs.marked_of_drops hc hd) hm

/-- **The step lemma.** -/
theorem locked_step {s s' : Config w ι κ} {a : Act ι κ} (h : step L s a = some s')
    (hs : Locked s) : Locked s' :=
  ⟨fun _ _ hk => sound_step h hs hk, nodeLock_step h hs⟩

/-- **The run lemma.** -/
theorem locked_run {links : ι → AcqLink w} (h0 : ∀ n, (links n).prev ≠ guarded w)
    {ts : List (Trans (Config w ι κ) (Act ι κ))} {s : Config w ι κ}
    (hr : Run (step L) (init κ links) ts s) : Locked s :=
  hr.invariant (C := fun _ => True) (locked_init h0) (fun _ h _ hs => locked_step h hs)
    fun _ _ => trivial

end AtomicSync.Sequential
