/-
  File:      AtomicSync/Sequential/Insertion.lean
  Subject:   `try_insert_next_` as the insertion into a queue: what its documentation promises of
             the calls on one node, and what they do.

  The documentation has the candidate inserted as the NEXT node of `self`, and every later call
  refused with that node. The code loads `self.next_` and sets the candidate's `prev_`; it never
  stores to `next_`. So a node whose `next_` is null keeps it null, and a call that is not stopped
  by its token inserts its candidate, whoever has been inserted before.

  * `InsertsOnce` -- the promise, over a run;
  * `Decided`, `decided_run` -- a call that is not stopped comes to `Ok`, a stopped one to
    `Err(None)`;
  * **`inserts_once_iff`** -- the promise is kept exactly as long as every call on the node that
    comes back was stopped, so that nothing is inserted at all;
  * `inserts_twice` -- two candidates after one node.
-/
import AtomicSync.Sequential.Account

namespace AtomicSync.Sequential

open Atomics

variable {w : ℕ} {ι κ : Type} {L : Layout w ι}

/-! ## 1. The promise -/

section Promise

variable [DecidableEq κ]

/-- The last answer of its token to the call in slot `c`. -/
def stopped (c : κ) : List (LinkTrans w ι κ) → Bool
  | [] => false
  | t :: ts =>
    if t.act.call = c then
      match t.act with
      | .start _ _ _ => false
      | .poll _ cancelled => cancelled
      | _ => stopped c ts
    else stopped c ts

end Promise

/-- The step brings a call `n.try_insert_next_(candidate, _)` back with `r`. -/
def Returns (n candidate : ι) (r : Inserted w) (t : LinkTrans w ι κ) : Prop :=
  t.post.calls t.act.call = some ⟨n, candidate, .returned r⟩

instance [DecidableEq ι] (n candidate : ι) (r : Inserted w) (t : LinkTrans w ι κ) :
    Decidable (Returns n candidate r t) := inferInstanceAs (Decidable (_ = _))

/-- It brings a call on `n` back with `Ok`. -/
def Inserts (n : ι) (t : LinkTrans w ι κ) : Prop := ∃ candidate x, Returns n candidate (.ok x) t

/-- **Insertion after node `n` links both ways and happens once.** -/
structure InsertsOnce [DecidableEq κ] (L : Layout w ι) (n : ι) (ts : List (LinkTrans w ι κ)) :
    Prop where
  /-- at most one call returns `Ok`, -/
  once : ts.Pairwise fun t t' => ¬ (Inserts n t ∧ Inserts n t')
  /-- with its candidate linked in both directions, -/
  linked : ∀ t ∈ ts, ∀ candidate x, Returns n candidate (.ok x) t →
    (t.post.links n).next = L.addr candidate ∧ (t.post.links candidate).prev = L.addr n
  /-- and a call begun after that and not stopped is refused with that candidate -/
  refused : ∀ newer t between t' older, ts = newer ++ t :: (between ++ t' :: older) →
    ∀ candidate x, Returns n candidate (.ok x) t' → ∀ candidate' r, Returns n candidate' r t →
    (∃ u ∈ between, u.act.starts t.act.call = true) →
    stopped t.act.call (t :: (between ++ t' :: older)) = false →
    r = .error (some (L.addr candidate))

/-! ## 2. What decides the result -/

variable [DecidableEq ι] [DecidableEq κ]

omit [DecidableEq ι] in
theorem stopped_other {c : κ} {t : LinkTrans w ι κ} (hc : c ≠ t.act.call)
    (ts : List (LinkTrans w ι κ)) : stopped c (t :: ts) = stopped c ts := if_neg (Ne.symm hc)

/-- **The token decides the result** of a call on a node whose `next_` is null. -/
structure Decided (L : Layout w ι) (c : κ) (ts : List (LinkTrans w ι κ)) (k : InsertCall w ι) :
    Prop where
  /-- a call still under way has not been stopped; a failed assertion would end it otherwise -/
  going : k.phase.result = none → k.phase = .panicked ∨ stopped c ts = false
  result : ∀ r, k.phase.result = some r →
    stopped c ts = true ∧ r = .error none ∨ stopped c ts = false ∧ r = .ok (L.addr k.candidate)

omit [DecidableEq ι] in
/-- A call still at its acquisitions or its load has not been stopped. -/
theorem Decided.not_stopped {c : κ} {ts : List (LinkTrans w ι κ)} {k : InsertCall w ι}
    (hD : Decided L c ts k) (hr : k.phase.result = none) (hp : k.phase ≠ .panicked) :
    stopped c ts = false := (hD.going hr).resolve_left hp

/-- **The step lemma.** -/
theorem decided_step {n : ι} {t : LinkTrans w ι κ} (h : step L t.pre t.act = some t.post)
    (hn : (t.pre.links n).next = null w) {ts : List (LinkTrans w ι κ)}
    (hD : ∀ c k, t.pre.calls c = some k → k.this = n → Decided L c ts k) (c : κ)
    (k : InsertCall w ι) (hk : t.post.calls c = some k) (hkn : k.this = n) :
    Decided L c (t :: ts) k := by
  by_cases hc : c = t.act.call
  swap
  · rw [calls_other h hc] at hk
    obtain ⟨hgoing, hresult⟩ := hD c k hk hkn
    exact ⟨by rwa [stopped_other hc], by rwa [stopped_other hc]⟩
  obtain ⟨s, a, s'⟩ := t
  change step L s a = some s' at h
  change (s.links n).next = null w at hn
  change s'.calls c = some k at hk
  change c = a.call at hc
  subst hc
  cases step_cases h with
  | started c this candidate hc =>
      obtain rfl := Config.put_calls_inj s hk
      exact ⟨fun _ => Or.inr (if_pos rfl), nofun⟩
  | took c this candidate held current hc hp =>
      obtain rfl := Config.put_calls_inj s hk
      have hstop := (hD c _ hc hkn).not_stopped rfl nofun
      refine ⟨fun _ => Or.inr ((if_pos rfl).trans hstop), fun r hr => ?_⟩
      cases held <;> cases hr
  | failed c this candidate held current b hc hb =>
      obtain rfl := Config.put_calls_inj s hk
      have hstop := (hD c _ hc hkn).not_stopped rfl nofun
      exact ⟨fun _ => Or.inr ((if_pos rfl).trans hstop), nofun⟩
  | polled c this candidate held current found b hc =>
      obtain rfl := Config.put_calls_inj s hk
      cases b with
      | false => exact ⟨fun _ => Or.inr (if_pos rfl), nofun⟩
      | true =>
          refine ⟨fun hr => ?_, fun r hr => Or.inl ⟨if_pos rfl, ?_⟩⟩
          · cases held <;> cases hr
          · cases held <;> cases hr <;> rfl
  | loaded c this candidate cg tg hc =>
      obtain rfl := Config.put_calls_inj s hk
      have hstop := (hD c _ hc hkn).not_stopped rfl nofun
      have hnext : (s.links this).next = null w := by rw [← hn, ← hkn]
      have hphase : loaded L this candidate cg tg (s.links this).next =
          .dropThis (cg.updatePrev (L.addr this)) tg (.ok (L.addr candidate)) := by
        unfold loaded
        rw [if_neg (not_not_intro hnext)]
      refine ⟨fun hr => ?_, fun r hr => Or.inr ⟨(if_pos rfl).trans hstop, ?_⟩⟩
      · simp only [hphase, Phase.result] at hr
        cases hr
      · simp only [hphase, Phase.result, Option.some.injEq] at hr
        exact hr.symm
  | dropped c this candidate phase g phase' hc hd hm =>
      obtain rfl := Config.put_calls_inj s hk
      obtain ⟨hr', hdone⟩ := Phase.result_of_drops hd
      refine ⟨fun hr => absurd (hr'.symm.trans hr) hdone, fun r hr => ?_⟩
      rcases (hD c _ hc hkn).result r (hr'.symm.trans hr) with ⟨hstop, he⟩ | ⟨hstop, he⟩
      · exact Or.inl ⟨(if_pos rfl).trans hstop, he⟩
      · exact Or.inr ⟨(if_pos rfl).trans hstop, he⟩
  | panicked c this candidate phase g phase' hc hd hm =>
      obtain rfl := Config.put_calls_inj s hk
      exact ⟨fun _ => Or.inl rfl, nofun⟩

/-- **The run lemma.** -/
theorem decided_run {links : ι → AcqLink w} {n : ι} (hn : (links n).next = null w)
    {ts : List (LinkTrans w ι κ)} {s : Config w ι κ} (hr : Run (step L) (init κ links) ts s) :
    ∀ c k, s.calls c = some k → k.this = n → Decided L c ts k := by
  induction hr with
  | start => exact nofun
  | @next ts s s' a hpre hs ih =>
      exact decided_step (t := ⟨s, a, s'⟩) hs ((next_run hpre n).trans hn) ih

/-! ## 3. What becomes of the promise -/

omit [DecidableEq κ] in
/-- The step brings a call on `n` back. -/
def returnsOn (n : ι) (t : LinkTrans w ι κ) : Bool :=
  match t.post.calls t.act.call with
  | some ⟨this, _, .returned _⟩ => decide (this = n)
  | _ => false

/-- **Every call on `n` that came back was stopped by its token.** -/
def returnsStopped (n : ι) : List (LinkTrans w ι κ) → Bool
  | [] => true
  | t :: ts => (!returnsOn n t || stopped t.act.call (t :: ts)) && returnsStopped n ts

/-- Nothing is inserted exactly if everything was stopped. -/
theorem returnsStopped_iff {links : ι → AcqLink w} {n : ι} (hn : (links n).next = null w)
    {ts : List (LinkTrans w ι κ)} {s : Config w ι κ} (hr : Run (step L) (init κ links) ts s) :
    returnsStopped n ts = true ↔ ∀ t ∈ ts, ¬ Inserts n t := by
  induction hr with
  | start => exact iff_of_true rfl nofun
  | @next ts s s' a hpre hs ih =>
      have hdec := decided_run hn (hpre.next hs)
      have hlast : (!returnsOn n ⟨s, a, s'⟩ || stopped a.call (⟨s, a, s'⟩ :: ts)) = true ↔
          ¬ Inserts n ⟨s, a, s'⟩ := by
        unfold returnsOn
        simp only
        split
        · next this candidate r hk =>
          by_cases hthis : this = n
          · subst hthis
            rcases (hdec a.call _ hk rfl).result r rfl with ⟨hstop, rfl⟩ | ⟨hstop, hok⟩
            · refine iff_of_true (by rw [hstop, Bool.or_true]) ?_
              rintro ⟨candidate', x, hret⟩
              cases hk.symm.trans hret
            · change r = .ok (L.addr candidate) at hok
              subst hok
              refine iff_of_false (by simp [hstop]) (not_not_intro ?_)
              exact ⟨candidate, L.addr candidate, hk⟩
          · refine iff_of_true (by simp [hthis]) ?_
            rintro ⟨candidate', x, hret⟩
            cases hk.symm.trans hret
            exact hthis rfl
        · next hother =>
          refine iff_of_true rfl ?_
          rintro ⟨candidate, x, hret⟩
          exact hother n candidate (.ok x) hret
      show (_ && returnsStopped n ts) = true ↔ _
      rw [Bool.and_eq_true, hlast, ih, List.forall_mem_cons]

omit [DecidableEq ι] in
/-- With nothing inserted the promise is empty. -/
theorem insertsOnce_of_none {n : ι} {ts : List (LinkTrans w ι κ)} (h : ∀ t ∈ ts, ¬ Inserts n t) :
    InsertsOnce L n ts where
  once := List.pairwise_iff_forall_sublist.mpr fun hsub hi =>
    h _ (hsub.subset List.mem_cons_self) hi.1
  linked t ht candidate x hret := absurd ⟨candidate, x, hret⟩ (h t ht)
  refused newer t between t' older e candidate x hret := by
    refine absurd ⟨candidate, x, hret⟩ (h t' ?_)
    rw [e]
    simp

/-- **The promise is kept exactly as long as every call on the node that comes back was stopped**:
    the first `Ok` leaves `next_` at null. Any nodes, any number of calls, any interleaving. -/
theorem inserts_once_iff {links : ι → AcqLink w} {n : ι} (hn : (links n).next = null w)
    {ts : List (LinkTrans w ι κ)} {s : Config w ι κ} (hr : Run (step L) (init κ links) ts s) :
    InsertsOnce L n ts ↔ returnsStopped n ts = true := by
  rw [returnsStopped_iff hn hr]
  refine ⟨fun hI t ht hins => ?_, insertsOnce_of_none⟩
  obtain ⟨candidate, x, hret⟩ := hins
  obtain ⟨hstep, us, hus, -⟩ := hr.of_mem ht
  have hnext := next_run (hus.next hstep) n
  rw [(hI.linked t ht candidate x hret).1, hn] at hnext
  exact L.nonnull candidate hnext

/-- The criterion at work: the one call on node 0 gives up while its candidate is locked by a
    call on node 1. -/
theorem inserts_once_iff_stopped :
    ∃ ts s, Run (step threeNodes) (init (Fin 2) fun _ => ⟨null 8, null 8⟩) ts s ∧
      s.calls 0 = some ⟨0, 2, .returned (.error none)⟩ ∧ InsertsOnce threeNodes 0 ts := by
  obtain ⟨ts, s, hr, h0, hstop⟩ := Run.of_exec (step threeNodes)
    (init (Fin 2) fun _ => ⟨null 8, null 8⟩)
    [.start 1 1 2, .exchange 1 false, .start 0 0 2, .exchange 0 false, .poll 0 false,
      .exchange 0 false, .poll 0 true]
    (fun ts s => s.calls 0 = some ⟨0, 2, .returned (.error none)⟩ ∧ returnsStopped 0 ts = true)
    (by decide)
  exact ⟨ts, s, hr, h0, (inserts_once_iff rfl hr).mpr hstop⟩

/-- **Two candidates after one node**: two calls one after the other, neither stopped, both come
    back with `Ok`, and `next_` is still null. -/
theorem inserts_twice :
    ∃ ts s, Run (step threeNodes) (init (Fin 1) fun _ => ⟨null 8, null 8⟩) ts s ∧
      (∃ t ∈ ts, Returns 0 1 (.ok (threeNodes.addr 1)) t) ∧
      (∃ t ∈ ts, Returns 0 2 (.ok (threeNodes.addr 2)) t) ∧
      (s.links 1).prev = threeNodes.addr 0 ∧ (s.links 2).prev = threeNodes.addr 0 ∧
      (s.links 0).next = null 8 ∧ ¬ InsertsOnce threeNodes 0 ts := by
  obtain ⟨ts, s, hr, ⟨t, ht, hret, hnext⟩, h2, hp1, hp2, hs⟩ := Run.of_exec (step threeNodes)
    (init (Fin 1) fun _ => ⟨null 8, null 8⟩)
    [.start 0 0 1, .exchange 0 false, .exchange 0 false, .load 0, .drop 0, .drop 0,
      .start 0 0 2, .exchange 0 false, .exchange 0 false, .load 0, .drop 0, .drop 0]
    (fun ts s => (∃ t ∈ ts, Returns 0 1 (.ok (threeNodes.addr 1)) t ∧
        (t.post.links 0).next = null 8) ∧
      (∃ t ∈ ts, Returns 0 2 (.ok (threeNodes.addr 2)) t) ∧
      (s.links 1).prev = threeNodes.addr 0 ∧ (s.links 2).prev = threeNodes.addr 0 ∧
      (s.links 0).next = null 8) (by decide)
  refine ⟨ts, s, hr, ⟨t, ht, hret⟩, h2, hp1, hp2, hs, fun hI => ?_⟩
  rw [(hI.linked t ht 1 _ hret).1] at hnext
  exact threeNodes.nonnull 1 hnext

end AtomicSync.Sequential
