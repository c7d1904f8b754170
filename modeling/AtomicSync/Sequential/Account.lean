/-
  File:      AtomicSync/Sequential/Account.lean
  Subject:   What a `try_insert_next_` call finds in the nodes it takes, and what it leaves there.

  Both are read off the run, not off the guards: `found` is the value of `prev_` in front of the
  step that takes the node, `left` the value behind the step that lets it go. The two guards have
  different drop points and there are three early returns; `Accounted` says at every place of the
  code what has been found so far, what a guard still alive is going to leave, and what has been
  left.

  * `accounted_step`, `accounted_run` -- for the slot that steps and for every other one;
  * **`links_guarded`** -- the lock of a node, the assertion of the drop, and the effect of a call
    on its nodes by its result.
-/
import Mathlib.Data.List.Nodup
import AtomicSync.Sequential.Guards

namespace AtomicSync.Sequential

open Atomics

variable {w : ℕ} {ι κ : Type} {L : Layout w ι}

/-- The transitions of the machine. -/
abbrev LinkTrans (w : ℕ) (ι κ : Type) := Trans (Config w ι κ) (Act ι κ)

/-! ## 1. Found and left -/

section History

variable [DecidableEq ι] [DecidableEq κ]

/-- The step begins a call in slot `c`. -/
def Act.starts (c : κ) : Act ι κ → Bool
  | .start c' _ _ => decide (c' = c)
  | _ => false

/-- What the call in slot `c` found in `prev_` of node `n` when it took it, if it has. -/
def found (c : κ) (n : ι) : List (LinkTrans w ι κ) → Option (BitVec w)
  | [] => none
  | t :: ts =>
    if t.act.starts c then none
    else if n ∉ t.pre.nodes c ∧ n ∈ t.post.nodes c then some (t.pre.links n).prev
    else found c n ts

/-- What it left there when it let the node go, if it has. -/
def left (c : κ) (n : ι) : List (LinkTrans w ι κ) → Option (BitVec w)
  | [] => none
  | t :: ts =>
    if t.act.starts c then none
    else if n ∈ t.pre.nodes c ∧ n ∉ t.post.nodes c then some (t.post.links n).prev
    else left c n ts

variable {c : κ} {n : ι} {t : LinkTrans w ι κ} {ts : List (LinkTrans w ι κ)}

theorem found_start (h : t.act.starts c = true) : found c n (t :: ts) = none := if_pos h

theorem left_start (h : t.act.starts c = true) : left c n (t :: ts) = none := if_pos h

theorem found_took (h : t.act.starts c = false) (hpre : n ∉ t.pre.nodes c)
    (hpost : n ∈ t.post.nodes c) : found c n (t :: ts) = some (t.pre.links n).prev := by
  simp [found, h, hpre, hpost]

theorem left_dropped (h : t.act.starts c = false) (hpre : n ∈ t.pre.nodes c)
    (hpost : n ∉ t.post.nodes c) : left c n (t :: ts) = some (t.post.links n).prev := by
  simp [left, h, hpre, hpost]

theorem found_same (h : t.act.starts c = false) (hn : n ∈ t.post.nodes c → n ∈ t.pre.nodes c) :
    found c n (t :: ts) = found c n ts := by
  have hcond : ¬ (n ∉ t.pre.nodes c ∧ n ∈ t.post.nodes c) := fun hc => hc.1 (hn hc.2)
  simp only [found, h, if_neg hcond]
  rfl

theorem left_same (h : t.act.starts c = false) (hn : n ∈ t.pre.nodes c → n ∈ t.post.nodes c) :
    left c n (t :: ts) = left c n ts := by
  have hcond : ¬ (n ∈ t.pre.nodes c ∧ n ∉ t.post.nodes c) := fun hc => hc.2 (hn hc.1)
  simp only [left, h, if_neg hcond]
  rfl

end History

/-! ## 2. The account of a call -/

/-- The result a call is about to return, once it is decided. -/
def Phase.result : Phase w ι → Option (Inserted w)
  | .dropThis _ _ r | .dropCandidate _ r | .returned r => some r
  | _ => none

variable [DecidableEq ι]

/-- **What a call leaves in node `n` where it found `p`**: the same, and its own node's address in
    the candidate once the insertion is decided. -/
def InsertCall.leaves (L : Layout w ι) (k : InsertCall w ι) (n : ι) (p : BitVec w) : BitVec w :=
  match k.phase.result with
  | some (.ok _) => if n = k.candidate then L.addr k.this else p
  | _ => p

variable [DecidableEq κ]

/-- **The account of the call `k` in slot `c`** after the run `ts`. -/
structure Accounted (L : Layout w ι) (c : κ) (ts : List (LinkTrans w ι κ))
    (k : InsertCall w ι) : Prop where
  /-- a live guard has taken its node, has not let it go and is going to leave what it should -/
  live : ∀ g ∈ k.phase.guards, left c g.node ts = none ∧
    ∃ p, found c g.node ts = some p ∧ g.prev = k.leaves L g.node p
  /-- any other node has been left as it should, if it was taken -/
  gone : ∀ n, n ∉ k.phase.guards.map AcqLinkGuard.node →
    left c n ts = (found c n ts).map (k.leaves L n)
  /-- nothing is let go before the result is decided -/
  fresh : k.phase.result = none → ∀ n, n ∉ k.phase.guards.map AcqLinkGuard.node →
    found c n ts = none
  /-- and `Ok` is decided with both nodes taken -/
  both : ∀ x, k.phase.result = some (.ok x) → x = L.addr k.candidate ∧ k.this ≠ k.candidate ∧
    (found c k.this ts).isSome = true ∧ (found c k.candidate ts).isSome = true

omit [DecidableEq κ] in
/-- Until `Ok` is decided a call leaves what it found. -/
theorem InsertCall.leaves_eq {k : InsertCall w ι} (h : ∀ x, k.phase.result ≠ some (.ok x)) (n : ι)
    (p : BitVec w) : k.leaves L n p = p := by
  unfold InsertCall.leaves
  split
  · next x hx => exact absurd hx (h x)
  · rfl

/-! ## 3. The account along a step -/

namespace Accounted

variable {c : κ} {t : LinkTrans w ι κ} {ts ts' : List (LinkTrans w ι κ)} {k k' : InsertCall w ι}
  {g : AcqLinkGuard w ι}

/-- A new call has taken nothing. -/
theorem started (hst : t.act.starts c = true) (hg : k.phase.guards = [])
    (hr : k.phase.result = none) : Accounted L c (t :: ts) k where
  live g hmem := by
    rw [hg] at hmem
    cases hmem
  gone n _ := by rw [found_start hst, left_start hst, Option.map_none]
  fresh _ n _ := found_start hst
  both x hx := by
    rw [hr] at hx
    cases hx

/-- A step that neither takes nor lets go a node of the call. -/
theorem idle (hA : Accounted L c ts k) (hst : t.act.starts c = false)
    (hn : t.post.nodes c = t.pre.nodes c) : Accounted L c (t :: ts) k := by
  have hf : ∀ n, found c n (t :: ts) = found c n ts :=
    fun n => found_same hst fun h => by rwa [hn] at h
  have hl : ∀ n, left c n (t :: ts) = left c n ts :=
    fun n => left_same hst fun h => by rwa [hn]
  refine ⟨fun g hg => ?_, fun n hmem => ?_, fun hr n hmem => ?_, fun x hx => ?_⟩
  · rw [hf, hl]
    exact hA.live g hg
  · rw [hf, hl]
    exact hA.gone n hmem
  · rw [hf]
    exact hA.fresh hr n hmem
  · rw [hf, hf]
    exact hA.both x hx

/-- Moving on with the same guards, to no `Ok`. -/
theorem carry (hA : Accounted L c ts k) (hg : k'.phase.guards = k.phase.guards)
    (hr : k.phase.result = none) (hr' : ∀ x, k'.phase.result ≠ some (.ok x)) :
    Accounted L c ts k' := by
  have hleaves : ∀ n p, k.leaves L n p = p := InsertCall.leaves_eq (by rw [hr]; nofun)
  have hleaves' : ∀ n p, k'.leaves L n p = p := InsertCall.leaves_eq hr'
  refine ⟨fun g hmem => ?_, fun n hmem => ?_, fun _ n hmem => ?_, fun x hx => absurd hx (hr' x)⟩
  · rw [hg] at hmem
    obtain ⟨hl, p, hp, he⟩ := hA.live g hmem
    rw [hleaves] at he
    exact ⟨hl, p, hp, by rw [hleaves', he]⟩
  · rw [hg] at hmem
    rw [hA.gone n hmem, funext (hleaves n), funext (hleaves' n)]
  · rw [hg] at hmem
    exact hA.fresh hr n hmem

/-- `next_` is null: the candidate's guard is going to leave the address of the node. -/
theorem inserted {this candidate : ι} {candidateGuard thisGuard : AcqLinkGuard w ι}
    (hA : Accounted L c ts ⟨this, candidate, .load candidateGuard thisGuard⟩)
    (hc : candidateGuard.node = candidate) (ht : thisGuard.node = this) (hne : this ≠ candidate) :
    Accounted L c ts ⟨this, candidate, .dropThis (candidateGuard.updatePrev (L.addr this))
      thisGuard (.ok (L.addr candidate))⟩ := by
  obtain ⟨hlt, p, hpt, het⟩ := hA.live thisGuard List.mem_cons_self
  obtain ⟨hlc, q, hqc, -⟩ := hA.live candidateGuard (List.mem_cons_of_mem _ List.mem_cons_self)
  refine ⟨fun g hg => ?_, fun n hn => ?_, nofun, fun x hx => ?_⟩
  · rcases List.mem_cons.mp hg with rfl | hg
    · refine ⟨hlt, p, hpt, ?_⟩
      show g.prev = if g.node = candidate then _ else p
      rw [if_neg (ht ▸ hne)]
      exact het
    · obtain rfl := List.mem_singleton.mp hg
      refine ⟨hlc, q, hqc, ?_⟩
      show L.addr this = if candidateGuard.node = candidate then L.addr this else q
      rw [if_pos hc]
  · have hn' : n ≠ candidate := by
      rintro rfl
      exact hn (by simp [Phase.guards, AcqLinkGuard.updatePrev, hc])
    rw [hA.gone n hn]
    congr 1
    funext r
    show r = if n = candidate then _ else r
    rw [if_neg hn']
  · cases hx
    refine ⟨rfl, hne, ?_, ?_⟩
    · rw [← ht, hpt]
      rfl
    · rw [← hc, hqc]
      rfl

/-- A node is taken, with what is found there as the guard's value. -/
theorem took (hA : Accounted L c ts k) (hst : t.act.starts c = false)
    (hk : t.pre.calls c = some k) (hk' : t.post.calls c = some k')
    (hg : k'.phase.guards = g :: k.phase.guards) (hr : k.phase.result = none)
    (hr' : k'.phase.result = none) (hfree : g.node ∉ t.pre.nodes c)
    (hp : (t.pre.links g.node).prev = g.prev) : Accounted L c (t :: ts) k' := by
  have hleaves : ∀ n p, k.leaves L n p = p := InsertCall.leaves_eq (by rw [hr]; nofun)
  have hleaves' : ∀ n p, k'.leaves L n p = p := InsertCall.leaves_eq (by rw [hr']; nofun)
  have hpost : t.post.nodes c = g.node :: t.pre.nodes c := by
    rw [nodes_of_call hk', nodes_of_call hk, hg, List.map_cons]
  have hleft : ∀ n, left c n (t :: ts) = left c n ts := fun n =>
    left_same hst fun h => by rw [hpost]; exact List.mem_cons_of_mem _ h
  have hfound : ∀ n, n ≠ g.node → found c n (t :: ts) = found c n ts := fun n hn =>
    found_same hst fun h => by rw [hpost] at h; exact (List.mem_cons.mp h).resolve_left hn
  rw [nodes_of_call hk] at hfree
  refine ⟨fun g' hg' => ?_, fun n hn => ?_, fun _ n hn => ?_, fun x hx => ?_⟩
  · rw [hleft]
    rw [hg] at hg'
    rcases List.mem_cons.mp hg' with rfl | hg'
    · have hnew : found c g'.node (t :: ts) = some (t.pre.links g'.node).prev :=
        found_took hst (by rwa [nodes_of_call hk]) (by rw [hpost]; exact List.mem_cons_self)
      refine ⟨?_, _, hnew, by rw [hleaves', hp]⟩
      rw [hA.gone _ hfree, hA.fresh hr _ hfree, Option.map_none]
    · have hne : g'.node ≠ g.node := fun e => hfree (e ▸ List.mem_map_of_mem hg')
      obtain ⟨hl, p, hf, he⟩ := hA.live g' hg'
      rw [hleaves] at he
      exact ⟨hl, p, (hfound _ hne).trans hf, by rw [hleaves', he]⟩
  · rw [hg, List.map_cons, List.mem_cons, not_or] at hn
    rw [hleft, hfound n hn.1, hA.gone n hn.2, funext (hleaves n), funext (hleaves' n)]
  · rw [hg, List.map_cons, List.mem_cons, not_or] at hn
    rw [hfound n hn.1]
    exact hA.fresh hr n hn.2
  · rw [hr'] at hx
    cases hx

/-- A node is let go, with the guard's value. -/
theorem dropped (hA : Accounted L c ts k) (hst : t.act.starts c = false)
    (hk : t.pre.calls c = some k) (hk' : t.post.calls c = some k')
    (hg : k.phase.guards = g :: k'.phase.guards) (hthis : k'.this = k.this)
    (hcand : k'.candidate = k.candidate) (hr : k'.phase.result = k.phase.result)
    (hdone : k.phase.result ≠ none) (hgone : g.node ∉ t.post.nodes c)
    (hp : (t.post.links g.node).prev = g.prev) : Accounted L c (t :: ts) k' := by
  have hleaves : ∀ n p, k'.leaves L n p = k.leaves L n p := by
    intro n p
    unfold InsertCall.leaves
    rw [hr, hthis, hcand]
  have hpre : t.pre.nodes c = g.node :: t.post.nodes c := by
    rw [nodes_of_call hk', nodes_of_call hk, hg, List.map_cons]
  have hfound : ∀ n, found c n (t :: ts) = found c n ts := fun n =>
    found_same hst fun h => by rw [hpre]; exact List.mem_cons_of_mem _ h
  have hleft : ∀ n, n ≠ g.node → left c n (t :: ts) = left c n ts := fun n hn =>
    left_same hst fun h => by rw [hpre] at h; exact (List.mem_cons.mp h).resolve_left hn
  have hmem : g ∈ k.phase.guards := hg ▸ List.mem_cons_self
  refine ⟨fun g' hg' => ?_, fun n hn => ?_, fun h => ?_, fun x hx => ?_⟩
  · have hne : g'.node ≠ g.node := by
      intro e
      rw [nodes_of_call hk', ← e] at hgone
      exact hgone (List.mem_map_of_mem hg')
    obtain ⟨hl, p, hf, he⟩ := hA.live g' (hg ▸ List.mem_cons_of_mem _ hg')
    exact ⟨(hleft _ hne).trans hl, p, (hfound _).trans hf, by rw [hleaves, he]⟩
  · rw [hfound, funext (hleaves n)]
    by_cases hng : n = g.node
    · obtain ⟨-, p, hf, he⟩ := hA.live g hmem
      rw [hng, hf, left_dropped hst (by rw [hpre]; exact List.mem_cons_self) hgone, hp, he]
      rfl
    · rw [hleft n hng]
      refine hA.gone n fun h => ?_
      rw [hg, List.map_cons, List.mem_cons] at h
      exact hn (h.resolve_left hng)
  · rw [hr] at h
    exact absurd h hdone
  · rw [hr] at hx
    rw [hfound, hfound, hthis, hcand]
    exact hA.both x hx

end Accounted

omit [DecidableEq ι] [DecidableEq κ] in
/-- A guard is dropped only once the result is decided, and the result stays. -/
theorem Phase.result_of_drops {phase phase' : Phase w ι} {g : AcqLinkGuard w ι}
    (h : phase.drops = some (g, phase')) :
    phase'.result = phase.result ∧ phase.result ≠ none := by
  cases phase <;> cases h <;> exact ⟨rfl, nofun⟩

omit [DecidableEq ι] [DecidableEq κ] in
theorem Phase.result_polled (held : Option (AcqLinkGuard w ι)) (current found : BitVec w)
    (b : Bool) (x : BitVec w) : (polled held current found b).result ≠ some (.ok x) := by
  cases b <;> cases held <;> nofun

omit [DecidableEq ι] in
theorem starts_other {a : Act ι κ} {c : κ} (hc : c ≠ a.call) : a.starts c = false := by
  cases a with
  | start c' this candidate => exact decide_eq_false fun e => hc e.symm
  | _ => rfl

/-- **The step lemma.** -/
theorem accounted_step {t : LinkTrans w ι κ} (h : step L t.pre t.act = some t.post)
    (hs : Locked t.pre) {ts : List (LinkTrans w ι κ)}
    (hA : ∀ c k, t.pre.calls c = some k → Accounted L c ts k) (c : κ) (k : InsertCall w ι)
    (hk : t.post.calls c = some k) : Accounted L c (t :: ts) k := by
  by_cases hc : c = t.act.call
  swap
  · rw [calls_other h hc] at hk
    exact (hA c k hk).idle (starts_other hc) (nodes_other h hc)
  obtain ⟨s, a, s'⟩ := t
  change step L s a = some s' at h
  change Locked s at hs
  change s'.calls c = some k at hk
  change c = a.call at hc
  subst hc
  cases step_cases h with
  | started c this candidate hc =>
      obtain rfl := Config.put_calls_inj s hk
      exact .started (decide_eq_true rfl) rfl rfl
  | took c this candidate held current hc hp =>
      have hfree := hs.free_of_unmarked (n := acquireTarget this candidate held)
        (by rw [hp]; exact (hs.sound c _ hc).1) c
      obtain rfl := Config.put_calls_inj s hk
      refine (hA c _ hc).took rfl hc hk (Phase.guards_acquired held current _) rfl ?_ hfree hp
      cases held <;> rfl
  | failed c this candidate held current b hc hb =>
      obtain rfl := Config.put_calls_inj s hk
      refine Accounted.idle ?_ rfl (nodes_put_same hc rfl)
      exact (hA c _ hc).carry rfl rfl nofun
  | polled c this candidate held current found b hc =>
      obtain rfl := Config.put_calls_inj s hk
      have hg := Phase.guards_polled held current found b
      refine Accounted.idle ?_ rfl (nodes_put_same hc (congrArg _ hg))
      exact (hA c _ hc).carry hg rfl (Phase.result_polled held current found b)
  | loaded c this candidate cg tg hc =>
      obtain rfl := Config.put_calls_inj s hk
      refine Accounted.idle ?_ rfl
        (nodes_put_same hc (Phase.nodes_loaded this candidate cg tg (s.links this).next))
      obtain ⟨⟨hcg, -⟩, htg, -⟩ := hs.sound c _ hc
      unfold loaded
      split
      · exact (hA c _ hc).carry rfl rfl nofun
      · refine (hA c _ hc).inserted hcg htg fun e => ?_
        -- both guards would be of one node
        have hcount := hs.count_eq_one (c := c) (n := this)
        rw [nodes_of_call hc] at hcount
        simp [Phase.guards, hcg, htg, e] at hcount
  | dropped c this candidate phase g phase' hc hd hm =>
      obtain rfl := Config.put_calls_inj s hk
      obtain ⟨hr, hdone⟩ := Phase.result_of_drops hd
      refine (hA c _ hc).dropped rfl hc hk (Phase.guards_of_drops hd) rfl rfl hr hdone ?_
        (setPrev_prev_self s.links g.node g.prev)
      show g.node ∉ (s.put c _).nodes c
      rw [nodes_put]
      exact hs.gone_of_drops hc hd
  | panicked c this candidate phase g phase' hc hd hm =>
      exact absurd (hs.marked_of_drops hc hd) hm

/-- **The run lemma.** -/
theorem accounted_run {links : ι → AcqLink w} (h0 : ∀ n, (links n).prev ≠ guarded w)
    {ts : List (LinkTrans w ι κ)} {s : Config w ι κ} (hr : Run (step L) (init κ links) ts s) :
    ∀ c k, s.calls c = some k → Accounted L c ts k := by
  induction hr with
  | start => exact nofun
  | @next ts s s' a hpre hs ih =>
      exact accounted_step (t := ⟨s, a, s'⟩) hs (locked_run h0 hpre) ih

/-! ## 4. The nodes -/

theorem next_run {links : ι → AcqLink w} {ts : List (LinkTrans w ι κ)} {s : Config w ι κ}
    (hr : Run (step L) (init κ links) ts s) (n : ι) : (s.links n).next = (links n).next := by
  induction hr with
  | start => rfl
  | next _ hs ih => exact (next_of_step hs n).trans ih

/-- **What a run over the nodes `links` is in, at every state it reaches.** -/
structure LinkLaw (L : Layout w ι) (links : ι → AcqLink w) (ts : List (LinkTrans w ι κ))
    (s : Config w ι κ) : Prop where
  /-- at most one guard of a node is alive, -/
  single : ∀ n c c', n ∈ s.nodes c → n ∈ s.nodes c' → c = c'
  once : ∀ c, (s.nodes c).Nodup
  /-- and `prev_` is the marker exactly while one is -/
  marked : ∀ n, (s.links n).prev = guarded w ↔ ∃ c, n ∈ s.nodes c
  /-- `try_acquire` never exchanges the marker for the marker -/
  compared : ∀ c k held current, s.calls c = some k → k.phase = .exchange held current →
    current ≠ guarded w
  /-- the assertion of the drop never fails -/
  asserted : ∀ c k, s.calls c = some k → k.phase ≠ .panicked
  /-- `next_` is never written, `prev_` only where the writer's guard begins or ends -/
  next : ∀ n, (s.links n).next = (links n).next
  prev : ∀ a s' n, step L s a = some s' → (s'.links n).prev ≠ (s.links n).prev →
    (n ∈ s.nodes a.call ↔ n ∉ s'.nodes a.call)
  /-- a call that has returned `Err` left in every node what it found, -/
  failed : ∀ c k r, s.calls c = some k → k.phase = .returned (.error r) →
    ∀ n, left c n ts = found c n ts
  /-- and one that has returned `Ok` the same in its own, and its own address in the candidate -/
  inserted : ∀ c k x, s.calls c = some k → k.phase = .returned (.ok x) →
    x = L.addr k.candidate ∧ (found c k.this ts).isSome = true ∧
      left c k.this ts = found c k.this ts ∧ left c k.candidate ts = some (L.addr k.this)

/-- **The lock of the nodes and the effect of the calls**, for any nodes none of which holds the
    marker at the start, any number of calls on any pairs of them, and any interleaving. -/
theorem links_guarded {links : ι → AcqLink w} (h0 : ∀ n, (links n).prev ≠ guarded w)
    {ts : List (LinkTrans w ι κ)} {s : Config w ι κ} (hr : Run (step L) (init κ links) ts s) :
    LinkLaw L links ts s := by
  have hs := locked_run h0 hr
  have hA := accounted_run h0 hr
  have hgone : ∀ {c k r}, s.calls c = some k → k.phase = .returned r → ∀ n,
      left c n ts = (found c n ts).map (k.leaves L n) := by
    intro c k r hk hphase n
    refine (hA c k hk).gone n ?_
    rw [hphase]
    exact List.not_mem_nil
  refine ⟨fun n c c' h h' => hs.single h h', fun c => ?_, fun n => ⟨fun h => ?_, ?_⟩, ?_, ?_,
    next_run hr, fun a s' n h hne => prev_of_step h hs hne, ?_, ?_⟩
  · exact List.nodup_iff_count_eq_one.mpr fun n hn => hs.count_eq_one hn
  · by_contra hfree
    cases hs.node n with
    | free hp hn => exact hp h
    | held c hp h1 ho => exact hfree ⟨c, List.count_pos_iff.mp (by omega)⟩
  · rintro ⟨c, hc⟩
    exact hs.marked hc
  · intro c k held current hk hphase
    have hsound := hs.sound c k hk
    rw [hphase] at hsound
    exact hsound.1
  · intro c k hk hphase
    have hsound := hs.sound c k hk
    rw [hphase] at hsound
    exact hsound
  · intro c k r hk hphase n
    have hleaves : ∀ p, k.leaves L n p = p := InsertCall.leaves_eq (by rw [hphase]; nofun) n
    rw [hgone hk hphase n, funext hleaves, Option.map_id']
  · intro c k x hk hphase
    have hresult : k.phase.result = some (.ok x) := by rw [hphase]; rfl
    obtain ⟨hx, hne, hthis, hcand⟩ := (hA c k hk).both x hresult
    have hleaves : ∀ n p, k.leaves L n p = if n = k.candidate then L.addr k.this else p := by
      intro n p
      unfold InsertCall.leaves
      rw [hresult]
    obtain ⟨p, hp⟩ := Option.isSome_iff_exists.mp hthis
    obtain ⟨q, hq⟩ := Option.isSome_iff_exists.mp hcand
    refine ⟨hx, hthis, ?_, ?_⟩
    · rw [hgone hk hphase, hp, Option.map_some, hleaves, if_neg hne]
    · rw [hgone hk hphase, hq, Option.map_some, hleaves, if_pos rfl]

/-- Three nodes in an address space of eight bits. -/
def threeNodes : Layout 8 (Fin 3) where
  addr n := BitVec.ofNat 8 (16 * (n.val + 1))
  width := by decide
  aligned := by decide
  nonnull := by decide

/-- The law at work: two calls compete for node 0; the one that comes second is cancelled while it
    waits there, with its candidate locked. -/
theorem links_guarded_cancelled :
    ∃ ts s, Run (step threeNodes) (init (Fin 2) fun _ => ⟨null 8, null 8⟩) ts s ∧
      s.calls 0 = some ⟨0, 1, .returned (.ok 0x20#8)⟩ ∧
      s.calls 1 = some ⟨0, 2, .returned (.error none)⟩ ∧
      LinkLaw threeNodes (fun _ => ⟨null 8, null 8⟩) ts s := by
  obtain ⟨ts, s, hr, h0, h1⟩ := Run.of_exec (step threeNodes)
    (init (Fin 2) fun _ => ⟨null 8, null 8⟩)
    [.start 0 0 1, .exchange 0 false, .exchange 0 true, .poll 0 false, .exchange 0 false,
      .start 1 0 2, .exchange 1 false, .exchange 1 false, .load 0, .poll 1 false,
      .exchange 1 false, .drop 0, .poll 1 true, .drop 1, .drop 0]
    (fun _ s => s.calls 0 = some ⟨0, 1, .returned (.ok 0x20#8)⟩ ∧
      s.calls 1 = some ⟨0, 2, .returned (.error none)⟩) (by decide)
  exact ⟨ts, s, hr, h0, h1, links_guarded (by decide) hr⟩

end AtomicSync.Sequential
