/-
  File:      AtomicSync/Sequential/Refinement.lean
  Subject:   The calls of `try_insert_next_` happen one after the other, each at one stroke.

  While a call is under way its two nodes hold the marker, its candidate's new link is in a guard,
  and nothing of it is in the links. `insertNext` is the whole call as one operation on links that
  no marker ever enters: it looks at `next_` of the node and sets `prev_` of the candidate. A call
  takes effect in its load of `next_` (`takesEffect`); taking a node, letting it go, a failed
  exchange and an answer of the token are no operation, and a cancelled call never is one.

  * `Shows`, `Represents` -- the link of a node, whoever has it locked; the links as a whole;
  * `refines_links` -- the machine simulates the operations on links;
  * `Settled`, `settled_run` -- the operation of a call, and the result it returns;
  * **`calls_linearise`** -- along a run the operations, in the order in which they take effect,
    are a run of `insertNext`; each call that returns a node has had exactly the one with its
    result, a cancelled one none; and with no guard alive the nodes are what the operations left.
-/
import AtomicSync.Lib.Simulation
import AtomicSync.Sequential.Account

namespace AtomicSync.Sequential

open Atomics

variable {w : ℕ} {ι κ : Type} {L : Layout w ι}

/-! ## 1. The operations on links -/

section Abstract

variable [DecidableEq ι]

/-- **`try_insert_next_` at one stroke**, not cancelled. -/
def insertNext (L : Layout w ι) (links : ι → AcqLink w) (this candidate : ι) :
    Inserted w × (ι → AcqLink w) :=
  if (links this).next ≠ null w then (.error (some (links this).next), links)
  else (.ok (L.addr candidate), setPrev links candidate (L.addr this))

/-- A call's operation: its slot, its nodes and what it returns. -/
structure Op (w : ℕ) (ι κ : Type) where
  call : κ
  this : ι
  candidate : ι
  result : Inserted w
  deriving DecidableEq

/-- **The operations on links**: on two nodes, with the result `insertNext` gives. -/
def linksNext (L : Layout w ι) (links : ι → AcqLink w) (o : Op w ι κ) : Option (ι → AcqLink w) :=
  if o.this ≠ o.candidate ∧ (insertNext L links o.this o.candidate).1 = o.result then
    some (insertNext L links o.this o.candidate).2
  else none

/-- Where the last insertion of `n` has put it; the newest operation comes first. -/
def predecessor (L : Layout w ι) (links : ι → AcqLink w) (n : ι) : List (Op w ι κ) → BitVec w
  | [] => (links n).prev
  | o :: os =>
    match o.result with
    | .ok _ => if o.candidate = n then L.addr o.this else predecessor L links n os
    | .error _ => predecessor L links n os

/-- **What the operations leave**: `next_` as it was, `prev_` where the last insertion put it. -/
theorem links_of_history {links m : ι → AcqLink w} {us : List (Trans (ι → AcqLink w) (Op w ι κ))}
    (hr : Run (linksNext L) links us m) (n : ι) :
    m n = ⟨predecessor L links n (us.map Trans.act), (links n).next⟩ := by
  induction hr with
  | start => rfl
  | @next us m m' o _ hs ih =>
      unfold linksNext at hs
      split at hs
      · next ho =>
        obtain ⟨-, hres⟩ := ho
        cases hs
        rw [List.map_cons]
        unfold insertNext at hres ⊢
        split
        · next hnext =>
          rw [if_pos hnext] at hres
          simp only [predecessor, ← hres]
          exact ih
        · next hnext =>
          rw [if_neg hnext] at hres
          simp only [predecessor, ← hres]
          by_cases hn : o.candidate = n
          · subst hn
            simp [setPrev, ih]
          · rw [setPrev_of_ne m (Ne.symm hn), if_neg hn]
            exact ih
      · cases hs

end Abstract

/-! ## 2. The link behind a guard -/

/-- **The link of node `n`**, whoever has it locked: what its guard is going to leave there, or
    the pointer itself. -/
inductive Shows (s : Config w ι κ) (n : ι) (p : BitVec w) : Prop where
  | held (c : κ) (g : AcqLinkGuard w ι) (hg : g ∈ s.guards c) (hn : g.node = n)
      (hp : g.prev = p)
  | free (hn : ∀ c, n ∉ s.nodes c) (hp : (s.links n).prev = p)

theorem guards_of_call {s : Config w ι κ} {c : κ} {k : InsertCall w ι}
    (hc : s.calls c = some k) : s.guards c = k.phase.guards := by
  unfold Config.guards
  rw [hc]

variable [DecidableEq ι] [DecidableEq κ]

theorem guards_other {s s' : Config w ι κ} {a : Act ι κ} (h : step L s a = some s') {c : κ}
    (hc : c ≠ a.call) : s'.guards c = s.guards c := by
  unfold Config.guards
  rw [calls_other h hc]

namespace Shows

variable {s s' : Config w ι κ} {a : Act ι κ} {n : ι} {p : BitVec w}

/-- A link is shown after a step, if it is where the slot that steps has it and where nobody
    does. -/
theorem after (h : step L s a = some s') (hs : Shows s n p)
    (hkeep : ∀ g ∈ s.guards a.call, g.node = n → Shows s' n g.prev)
    (hfree : (∀ c, n ∉ s.nodes c) → Shows s' n (s.links n).prev) : Shows s' n p := by
  cases hs with
  | held c g hg hn hp =>
      by_cases hc : c = a.call
      · subst hc
        exact hp ▸ hkeep g hg hn
      · rw [← guards_other h hc] at hg
        exact .held c g hg hn hp
  | free hn hp => exact hp ▸ hfree hn

/-- A node with no guard in the slot that steps has none, if none of the others has one. -/
theorem unheld (h : step L s a = some s') (hn : ∀ c, n ∉ s.nodes c) (ha : n ∉ s'.nodes a.call)
    (c : κ) : n ∉ s'.nodes c := by
  by_cases hc : c = a.call
  · rw [hc]
    exact ha
  · rw [nodes_other h hc]
    exact hn c

/-- A step that changes neither the nodes nor the guards. -/
theorem same (h : step L s a = some s') (hg : s'.guards a.call = s.guards a.call)
    (hl : s'.links = s.links) (hs : Shows s n p) : Shows s' n p := by
  refine hs.after h (fun g hmem hn => .held a.call g (hg ▸ hmem) hn rfl) fun hfree => ?_
  refine .free (unheld h hfree ?_) (by rw [hl])
  unfold Config.nodes
  rw [hg]
  exact hfree a.call

/-- Taking a node saves its link. -/
theorem taken (h : step L s a = some s') {g : AcqLinkGuard w ι}
    (hg : s'.guards a.call = g :: s.guards a.call) (hcur : (s.links g.node).prev = g.prev)
    (hl : s'.links = setPrev s.links g.node (guarded w)) (hs : Shows s n p) : Shows s' n p := by
  refine hs.after h (fun g' hmem hn => ?_) fun hfree => ?_
  · exact .held a.call g' (hg ▸ List.mem_cons_of_mem _ hmem) hn rfl
  · by_cases hne : n = g.node
    · exact .held a.call g (hg ▸ List.mem_cons_self) hne.symm (by rw [hne, hcur])
    · refine .free (unheld h hfree ?_) (by rw [hl, setPrev_of_ne s.links hne])
      unfold Config.nodes
      rw [hg, List.map_cons, List.mem_cons, not_or]
      exact ⟨hne, hfree a.call⟩

/-- Letting it go writes the saved link back. -/
theorem dropped (h : step L s a = some s') (hL : Locked s) {g : AcqLinkGuard w ι}
    (hg : s.guards a.call = g :: s'.guards a.call)
    (hl : s'.links = setPrev s.links g.node g.prev) (hs : Shows s n p) : Shows s' n p := by
  have hnodes : s.nodes a.call = g.node :: s'.nodes a.call := by
    unfold Config.nodes
    rw [hg, List.map_cons]
  have hin : g.node ∈ s.nodes a.call := hnodes ▸ List.mem_cons_self
  have hgone : g.node ∉ s'.nodes a.call := by
    have h1 := hL.count_eq_one hin
    rw [hnodes, List.count_cons_self] at h1
    exact List.count_eq_zero.mp (by omega)
  refine hs.after h (fun g' hmem hn => ?_) fun hfree => ?_
  · rw [hg] at hmem
    rcases List.mem_cons.mp hmem with rfl | hmem
    · refine .free (fun c => ?_) (by rw [hl, ← hn, setPrev_prev_self])
      by_cases hc : c = a.call
      · rw [hc, ← hn]
        exact hgone
      · rw [nodes_other h hc, ← hn]
        exact fun hmem => hc (hL.single hmem hin)
    · exact .held a.call g' hmem hn rfl
  · have hne : n ≠ g.node := fun e => hfree a.call (e ▸ hin)
    refine .free (unheld h hfree ?_) (by rw [hl, setPrev_of_ne s.links hne])
    have hn := hfree a.call
    rw [hnodes, List.mem_cons, not_or] at hn
    exact hn.2

/-- **No step but the load of `next_` changes the link of a node.** -/
theorem silent (h : step L s a = some s') (hL : Locked s) (ha : ∀ c, a ≠ .load c)
    (hs : Shows s n p) : Shows s' n p := by
  have hput : ∀ {c k}, (s.put c k).guards c = k.phase.guards :=
    fun {c k} => guards_of_call (Config.put_calls_self s c k)
  cases step_cases h with
  | started c this candidate hc =>
      refine hs.same h (hput.trans ?_) rfl
      show [] = s.guards c
      cases hk : s.calls c with
      | none => simp [Config.guards, hk]
      | some k =>
          obtain ⟨r, hr⟩ := hc k hk
          rw [guards_of_call hk, hr]
          rfl
  | took c this candidate held current hc hcur =>
      refine hs.taken h (g := ⟨acquireTarget this candidate held, current⟩) (hput.trans ?_) hcur rfl
      rw [Phase.guards_acquired held current]
      exact congrArg _ (guards_of_call hc).symm
  | failed c this candidate held current b hc hb =>
      exact hs.same h (hput.trans (guards_of_call hc).symm) rfl
  | polled c this candidate held current found b hc =>
      refine hs.same h (hput.trans ?_) rfl
      exact (Phase.guards_polled held current found b).trans (guards_of_call hc).symm
  | loaded c this candidate cg tg hc => exact absurd rfl (ha c)
  | dropped c this candidate phase g phase' hc hd hm =>
      refine hs.dropped h hL ?_ rfl
      refine (guards_of_call hc).trans ?_
      rw [Phase.guards_of_drops hd]
      exact congrArg (List.cons g) (hput (c := c) (k := ⟨this, candidate, phase'⟩)).symm
  | panicked c this candidate phase g phase' hc hd hm =>
      exact absurd (hL.marked_of_drops hc hd) hm

end Shows

/-! ## 3. The machine carries the operations out -/

/-- **The state stands for the links**, as they are behind its guards. -/
structure Represents (s : Config w ι κ) (m : ι → AcqLink w) : Prop where
  locked : Locked s
  prev : ∀ n, Shows s n (m n).prev
  next : ∀ n, (s.links n).next = (m n).next

omit [DecidableEq ι] [DecidableEq κ] in
/-- The operation of a call, once it has one: a call that has been cancelled never will. -/
def InsertCall.operation (c : κ) (k : InsertCall w ι) : Option (Op w ι κ) :=
  match k.phase.result with
  | none | some (.error none) => none
  | some r => some ⟨c, k.this, k.candidate, r⟩

/-- **The operation that takes effect in a transition**: that of the call that loads `next_`. -/
def takesEffect (t : LinkTrans w ι κ) : Option (Op w ι κ) :=
  match t.act with
  | .load c => (t.post.calls c).bind (InsertCall.operation c)
  | _ => none

omit [DecidableEq ι] [DecidableEq κ] in
theorem takesEffect_silent {t : LinkTrans w ι κ} (h : ∀ c, t.act ≠ .load c) :
    takesEffect t = none := by
  unfold takesEffect
  split
  · next c hc => exact absurd hc (h c)
  · rfl

omit [DecidableEq κ] in
/-- The load decides what the operation returns. -/
theorem operation_loaded {c : κ} {this candidate : ι} {cg tg : AcqLinkGuard w ι}
    (m : ι → AcqLink w) :
    InsertCall.operation c ⟨this, candidate, loaded L this candidate cg tg (m this).next⟩ =
      some ⟨c, this, candidate, (insertNext L m this candidate).1⟩ := by
  unfold loaded insertNext
  by_cases hn : (m this).next ≠ null w
  · rw [if_pos hn, if_pos hn]
    rfl
  · rw [if_neg hn, if_neg hn]
    rfl

/-- So the load is that operation, on any links with the node's `next_`. -/
theorem takesEffect_load (s : Config w ι κ) (c : κ) {this candidate : ι}
    (cg tg : AcqLinkGuard w ι) {m : ι → AcqLink w} (hm : (s.links this).next = (m this).next) :
    takesEffect ⟨s, .load c, s.put c ⟨this, candidate,
      loaded L this candidate cg tg (s.links this).next⟩⟩ =
      some ⟨c, this, candidate, (insertNext L m this candidate).1⟩ := by
  show ((s.put c _).calls c).bind (InsertCall.operation c) = _
  rw [Config.put_calls_self, Option.bind_some, hm, operation_loaded]

omit [DecidableEq κ] in
/-- The two guards of a call that loads are of two nodes. -/
theorem Locked.distinct {s : Config w ι κ} (hs : Locked s) {c : κ} {this candidate : ι}
    {cg tg : AcqLinkGuard w ι} (hc : s.calls c = some ⟨this, candidate, .load cg tg⟩) :
    this ≠ candidate := by
  intro e
  obtain ⟨⟨hcg, -⟩, htg, -⟩ := hs.sound c _ hc
  have hcount := hs.count_eq_one (c := c) (n := this)
  rw [nodes_of_call hc] at hcount
  simp [Phase.guards, hcg, htg, e] at hcount

/-- **The load**: the links behind the guards are what the operation makes of them. -/
theorem represents_load {s s' : Config w ι κ} {c : κ} (h : step L s (.load c) = some s')
    {m : ι → AcqLink w} (hR : Represents s m) {this candidate : ι} {cg tg : AcqLinkGuard w ι}
    (hc : s.calls c = some ⟨this, candidate, .load cg tg⟩) (hl : s'.links = s.links)
    (hc' : s'.calls c =
      some ⟨this, candidate, loaded L this candidate cg tg (m this).next⟩) :
    Represents s' (insertNext L m this candidate).2 := by
  have hlocked := locked_step h hR.locked
  have hguards := guards_of_call hc
  have hguards' := guards_of_call hc'
  obtain ⟨⟨hcg, -⟩, htg, -⟩ := hR.locked.sound c _ hc
  unfold loaded at hguards'
  unfold insertNext
  by_cases hn : (m this).next ≠ null w
  · -- taken: the guards are as they were
    rw [if_pos hn] at hguards' ⊢
    exact ⟨hlocked, fun n => (hR.prev n).same h (hguards'.trans hguards.symm) hl,
      fun n => by rw [hl]; exact hR.next n⟩
  · -- the candidate's guard has its new link, the other one what it saved
    rw [if_neg hn] at hguards' ⊢
    refine ⟨hlocked, fun n => ?_, fun n => ?_⟩
    · show Shows s' n (setPrev m candidate (L.addr this) n).prev
      by_cases hnc : n = candidate
      · subst hnc
        rw [setPrev_prev_self]
        refine .held c (cg.updatePrev (L.addr this)) ?_ hcg rfl
        rw [hguards']
        exact List.mem_cons_of_mem _ List.mem_cons_self
      · rw [setPrev_of_ne m hnc]
        refine (hR.prev n).after h (fun g hg hgn => ?_) fun hfree => ?_
        · rw [show s.guards (Act.load c : Act ι κ).call = [tg, cg] from hguards] at hg
          rcases List.mem_cons.mp hg with rfl | hg
          · exact .held c g (hguards' ▸ List.mem_cons_self) hgn rfl
          · obtain rfl := List.mem_singleton.mp hg
            exact absurd (hgn.symm.trans hcg) hnc
        · refine .free (Shows.unheld h hfree ?_) (by rw [hl])
          have hn' := hfree c
          unfold Config.nodes at hn' ⊢
          rw [hguards] at hn'
          rw [show s'.guards (Act.load c : Act ι κ).call = _ from hguards']
          exact hn'
    · rw [hl, setPrev_next]
      exact hR.next n

/-- **The machine carries the operations out**, whatever the calls find on the way to the nodes,
    whichever exchanges fail and whichever calls are cancelled. -/
theorem refines_links (L : Layout w ι) :
    Simulates (step (κ := κ) L) (fun _ => True) takesEffect (linksNext L) Represents where
  action := by
    intro t h _ m o hR ho
    obtain ⟨s, a, s'⟩ := t
    change step L s a = some s' at h
    change Represents s m at hR
    by_cases ha : ∃ c, a = .load c
    · obtain ⟨c, rfl⟩ := ha
      cases step_cases h with
      | loaded _ this candidate cg tg hc =>
          rw [takesEffect_load s c cg tg (hR.next this)] at ho
          cases ho
          refine ⟨_, if_pos ⟨hR.locked.distinct hc, rfl⟩, ?_⟩
          refine represents_load h hR hc rfl ?_
          rw [← hR.next this]
          exact Config.put_calls_self s c _
    · rw [takesEffect_silent fun c hc => ha ⟨c, hc⟩] at ho
      cases ho
  silent := by
    intro t h _ m hR ho
    obtain ⟨s, a, s'⟩ := t
    change step L s a = some s' at h
    change Represents s m at hR
    have ha : ∀ c, a ≠ .load c := by
      rintro c rfl
      cases step_cases h with
      | loaded _ this candidate cg tg hc =>
          rw [takesEffect_load s c cg tg (hR.next this)] at ho
          cases ho
    exact ⟨locked_step h hR.locked, fun n => (hR.prev n).silent h hR.locked ha,
      fun n => (next_of_step h n).trans (hR.next n)⟩

/-! ## 4. The operation of a call -/

omit [DecidableEq ι] in
/-- The operations of the call in slot `c`, the newest first. -/
def effects (c : κ) : List (LinkTrans w ι κ) → List (Op w ι κ)
  | [] => []
  | t :: ts =>
    if t.act.starts c then []
    else if t.act.call = c then (takesEffect t).toList ++ effects c ts
    else effects c ts

omit [DecidableEq ι] in
theorem effects_other {c : κ} {t : LinkTrans w ι κ} (hc : c ≠ t.act.call)
    (ts : List (LinkTrans w ι κ)) : effects c (t :: ts) = effects c ts := by
  rw [effects, starts_other hc, if_neg nofun, if_neg (Ne.symm hc)]

/-- **The step lemma**: a call has had the operation its result says, and no other. -/
theorem settled_step {t : LinkTrans w ι κ} (h : step L t.pre t.act = some t.post)
    (hs : Locked t.pre) {ts : List (LinkTrans w ι κ)}
    (ih : ∀ c k, t.pre.calls c = some k → effects c ts = (k.operation c).toList) (c : κ)
    (k : InsertCall w ι) (hk : t.post.calls c = some k) :
    effects c (t :: ts) = (k.operation c).toList := by
  by_cases hc : c = t.act.call
  swap
  · rw [calls_other h hc] at hk
    rw [effects_other hc]
    exact ih c k hk
  obtain ⟨s, a, s'⟩ := t
  change step L s a = some s' at h
  change Locked s at hs
  change s'.calls c = some k at hk
  change c = a.call at hc
  subst hc
  cases step_cases h with
  | started c this candidate hc =>
      obtain rfl := Config.put_calls_inj s hk
      exact if_pos (decide_eq_true rfl)
  | took c this candidate held current hc hp =>
      obtain rfl := Config.put_calls_inj s hk
      refine (if_pos rfl).trans ((ih c _ hc).trans ?_)
      cases held <;> rfl
  | failed c this candidate held current b hc hb =>
      obtain rfl := Config.put_calls_inj s hk
      have hbefore : effects c ts = [] := ih c _ hc
      exact (if_pos rfl).trans hbefore
  | polled c this candidate held current found b hc =>
      obtain rfl := Config.put_calls_inj s hk
      refine (if_pos rfl).trans ((ih c _ hc).trans ?_)
      cases b <;> cases held <;> rfl
  | loaded c this candidate cg tg hc =>
      obtain rfl := Config.put_calls_inj s hk
      have hbefore : effects c ts = [] := ih c _ hc
      refine (if_pos rfl).trans ?_
      rw [takesEffect_load s c cg tg rfl]
      show Option.toList _ ++ effects c ts = _
      rw [hbefore, List.append_nil]
      exact congrArg Option.toList (operation_loaded s.links).symm
  | dropped c this candidate phase g phase' hc hd hm =>
      obtain rfl := Config.put_calls_inj s hk
      obtain ⟨hr, -⟩ := Phase.result_of_drops hd
      refine (if_pos rfl).trans ((ih c _ hc).trans (congrArg Option.toList ?_))
      show InsertCall.operation c ⟨this, candidate, phase⟩ =
        InsertCall.operation c ⟨this, candidate, phase'⟩
      simp only [InsertCall.operation, hr]
  | panicked c this candidate phase g phase' hc hd hm =>
      exact absurd (hs.marked_of_drops hc hd) hm

/-- **The run lemma.** -/
theorem settled_run {links : ι → AcqLink w} (h0 : ∀ n, (links n).prev ≠ guarded w)
    {ts : List (LinkTrans w ι κ)} {s : Config w ι κ} (hr : Run (step L) (init κ links) ts s) :
    ∀ c k, s.calls c = some k → effects c ts = (k.operation c).toList := by
  induction hr with
  | start => exact nofun
  | @next ts s s' a hpre hs ih =>
      exact settled_step (t := ⟨s, a, s'⟩) hs (locked_run h0 hpre) ih

/-! ## 5. The history of a run -/

/-- **The calls happen one after the other**: the operations that take effect along a run, in their
    order, are a run of `insertNext` from the first links on. Every call has had the operation
    its result says, exactly once and since it began, and no other; a cancelled one none. A node no
    guard is alive of has its `prev_` from the last insertion of it, and `next_` from the start. -/
theorem calls_linearise {links : ι → AcqLink w} (h0 : ∀ n, (links n).prev ≠ guarded w)
    {ts : List (LinkTrans w ι κ)} {s : Config w ι κ} (hr : Run (step L) (init κ links) ts s) :
    (∃ us m, Run (linksNext L) links us m ∧ us.map Trans.act = ts.filterMap takesEffect ∧
      ∀ n, (∀ c, n ∉ s.nodes c) → s.links n = m n) ∧
    (∀ c k, s.calls c = some k → effects c ts = (k.operation c).toList) ∧
    ∀ n, (∀ c, n ∉ s.nodes c) →
      s.links n = ⟨predecessor L links n (ts.filterMap takesEffect), (links n).next⟩ := by
  have hinit : Represents (init κ links) links :=
    ⟨locked_init h0, fun n => .free (fun _ => List.not_mem_nil) rfl, fun _ => rfl⟩
  obtain ⟨us, m, hrun, hR, hacts⟩ := (refines_links L).run hinit hr fun _ _ => trivial
  have hfree : ∀ n, (∀ c, n ∉ s.nodes c) → s.links n = m n := by
    intro n hn
    have hprev : (s.links n).prev = (m n).prev := by
      cases hR.prev n with
      | held c g hg hgn hp => exact absurd (List.mem_map.mpr ⟨g, hg, hgn⟩) (hn c)
      | free _ hp => exact hp
    cases hl : s.links n with
    | mk prev next =>
        cases hm : m n with
        | mk prev' next' =>
            have hnext := hR.next n
            rw [hl, hm] at hprev hnext
            simp only at hprev hnext
            rw [hprev, hnext]
  refine ⟨⟨us, m, hrun, hacts, hfree⟩, settled_run h0 hr, fun n hn => ?_⟩
  rw [hfree n hn, links_of_history hrun, hacts]

/-- Two calls compete for node 2 as their candidate: the one that takes it second comes last, and
    its node is the predecessor. -/
theorem calls_linearise_last :
    ∃ ts s, Run (step threeNodes) (init (Fin 2) fun _ => ⟨null 8, null 8⟩) ts s ∧
      ts.filterMap takesEffect = [⟨1, 1, 2, .ok 0x30#8⟩, ⟨0, 0, 2, .ok 0x30#8⟩] ∧
      s.links 2 = ⟨0x20#8, null 8⟩ := by
  obtain ⟨ts, s, hr, hops, hn⟩ := Run.of_exec (step threeNodes)
    (init (Fin 2) fun _ => ⟨null 8, null 8⟩)
    [.start 1 1 2, .start 0 0 2, .exchange 0 false, .exchange 1 false, .poll 1 false,
      .exchange 0 false, .load 0, .drop 0, .drop 0, .exchange 1 false, .poll 1 false,
      .exchange 1 false, .exchange 1 false, .load 1, .drop 1, .drop 1]
    (fun ts s => ts.filterMap takesEffect = [⟨1, 1, 2, .ok 0x30#8⟩, ⟨0, 0, 2, .ok 0x30#8⟩] ∧
      ∀ c, (2 : Fin 3) ∉ s.nodes c) (by decide)
  refine ⟨ts, s, hr, hops, ?_⟩
  rw [(calls_linearise (by decide) hr).2.2 2 hn, hops]
  rfl

end AtomicSync.Sequential
