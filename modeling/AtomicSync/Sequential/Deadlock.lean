/-
  File:      AtomicSync/Sequential/Deadlock.lean
  Subject:   When the calls of `try_insert_next_` can all come back, and when nothing but their
             tokens gets them out.

  A call keeps its candidate locked while it spins for its own node. Two calls that name the same
  two nodes the other way round hold what the other one wants; a call that is to insert a node
  after itself holds what it wants. `Stuck` is a set of such calls: no step of anybody ever helps
  them (`stuck_run`).

  There is nothing else that could keep the calls from returning. With no stuck set some call that
  holds a node can go on, or nobody holds one; run to its end, it leaves no stuck set behind, for
  what is stuck afterwards was stuck before.

  * **`stuck_forever`** -- a stuck call spins until its token stops it, or that of one it waits for;
  * **`can_all_return_iff`** -- without a token's help all calls can return iff no set is stuck;
  * **`ordered_calls_can_return`** -- calls that insert every node after one that comes before it in
    some order always can.
-/
import Mathlib.Data.Finset.Card
import Mathlib.Data.Set.Basic
import Mathlib.Order.WellFounded
import AtomicSync.Lib.Progress
import AtomicSync.Sequential.Account

namespace AtomicSync.Sequential

open Atomics

variable {w : ℕ} {ι κ : Type} {L : Layout w ι}

/-! ## 1. Waiting -/

/-- The node a call is about to take. -/
def InsertCall.awaits (k : InsertCall w ι) : Option ι :=
  match k.phase with
  | .exchange held _ | .poll held _ _ => some (acquireTarget k.this k.candidate held)
  | _ => none

/-- The token answers that the call is cancelled. -/
def Act.cancels : Act ι κ → Bool
  | .poll _ cancelled => cancelled
  | _ => false

/-- **A stuck set of calls**: each waits for a node that one of them holds, or is to insert a node
    after itself. -/
def Stuck (s : Config w ι κ) (D : Set κ) : Prop :=
  ∀ c ∈ D, ∃ k n, s.calls c = some k ∧ k.awaits = some n ∧
    (k.this = k.candidate ∨ ∃ c' ∈ D, n ∈ s.nodes c')

variable [DecidableEq ι] [DecidableEq κ]

/-- **What the step of a waiting call does**, its token not stopping it: it goes on waiting for the
    same node, or takes it unmarked. -/
theorem waits_step {s s' : Config w ι κ} {a : Act ι κ} (h : step L s a = some s')
    (ha : a.cancels = false) {k : InsertCall w ι} {n : ι} (hk : s.calls a.call = some k)
    (hn : k.awaits = some n) :
    (∃ phase, s'.calls a.call = some ⟨k.this, k.candidate, phase⟩ ∧
      InsertCall.awaits ⟨k.this, k.candidate, phase⟩ = some n ∧
      s'.nodes a.call = s.nodes a.call) ∨
    ∃ held current, k.phase = .exchange held current ∧ (s.links n).prev = current ∧
      s'.calls a.call = some ⟨k.this, k.candidate, acquired held ⟨n, current⟩⟩ ∧
      s'.nodes a.call = n :: s.nodes a.call := by
  cases step_cases h with
  | started c this candidate hc =>
      obtain ⟨r, hr⟩ := hc k hk
      simp [InsertCall.awaits, hr] at hn
  | took c this candidate held current hc hp =>
      obtain rfl := Option.some.inj (hk.symm.trans hc)
      cases hn
      refine Or.inr ⟨held, current, rfl, hp, Config.put_calls_self s c _, ?_⟩
      show (s.put c _).nodes c = _ :: s.nodes c
      rw [nodes_put, nodes_of_call hc, Phase.guards_acquired held current]
      rfl
  | failed c this candidate held current b hc hb =>
      obtain rfl := Option.some.inj (hk.symm.trans hc)
      exact Or.inl ⟨_, Config.put_calls_self s c _, hn, nodes_put_same hc rfl⟩
  | polled c this candidate held current found b hc =>
      obtain rfl := Option.some.inj (hk.symm.trans hc)
      cases b with
      | false => exact Or.inl ⟨_, Config.put_calls_self s c _, hn, nodes_put_same hc rfl⟩
      | true => cases ha
  | loaded c this candidate cg tg hc =>
      obtain rfl := Option.some.inj (hk.symm.trans hc)
      cases hn
  | dropped c this candidate phase g phase' hc hd hm =>
      obtain rfl := Option.some.inj (hk.symm.trans hc)
      cases phase <;> cases hd <;> cases hn
  | panicked c this candidate phase g phase' hc hd hm =>
      obtain rfl := Option.some.inj (hk.symm.trans hc)
      cases phase <;> cases hd <;> cases hn

omit [DecidableEq κ] in
/-- A stuck call does not take the node it waits for: that one is marked. -/
theorem Stuck.marked {s : Config w ι κ} (hs : Locked s) {D : Set κ} (hD : Stuck s D) {c : κ}
    (hc : c ∈ D) {k : InsertCall w ι} {held : Option (AcqLinkGuard w ι)} {current : BitVec w}
    (hk : s.calls c = some k) (hp : k.phase = .exchange held current)
    (hself : k.this = k.candidate → held ≠ none) :
    (s.links (acquireTarget k.this k.candidate held)).prev = guarded w := by
  obtain ⟨k', n, hk', hn, hor⟩ := hD c hc
  obtain rfl := Option.some.inj (hk.symm.trans hk')
  have hn' : acquireTarget k.this k.candidate held = n := by
    simpa [InsertCall.awaits, hp] using hn
  rcases hor with he | ⟨c', -, hmem⟩
  · cases held with
    | none => exact absurd rfl (hself he)
    | some cg =>
        have hsound := hs.sound c k hk
        rw [hp] at hsound
        have hnode := (hsound.2 cg rfl).1
        refine hs.marked (c := c) ?_
        rw [nodes_of_call hk, hp]
        show k.this ∈ [cg.node]
        rw [hnode, he]
        exact List.mem_cons_self
  · rw [hn']
    exact hs.marked hmem

/-- **The step lemma**: a stuck set stays stuck, unless the token of one of its calls stops it. -/
theorem stuck_step {s s' : Config w ι κ} {a : Act ι κ} (h : step L s a = some s') (hs : Locked s)
    {D : Set κ} (hD : Stuck s D) (ha : a.call ∈ D → a.cancels = false) : Stuck s' D := by
  -- nothing is let go in D
  have hkeep : ∀ c' ∈ D, ∀ n, n ∈ s.nodes c' → n ∈ s'.nodes c' := by
    intro c' hc' n hn
    by_cases hc : c' = a.call
    · subst hc
      obtain ⟨k, m, hk, hm, -⟩ := hD _ hc'
      rcases waits_step h (ha hc') hk hm with ⟨-, -, -, he⟩ | ⟨-, -, -, -, -, he⟩
      · rw [he]
        exact hn
      · rw [he]
        exact List.mem_cons_of_mem _ hn
    · rw [nodes_other h hc]
      exact hn
  intro c hc
  by_cases hca : c = a.call
  swap
  · obtain ⟨k, n, hk, hn, hor⟩ := hD c hc
    refine ⟨k, n, by rw [calls_other h hca, hk], hn, hor.imp_right ?_⟩
    rintro ⟨c', hc', hmem⟩
    exact ⟨c', hc', hkeep c' hc' n hmem⟩
  subst hca
  obtain ⟨k, n, hk, hn, hor⟩ := hD _ hc
  rcases waits_step h (ha hc) hk hn with ⟨phase, hk', hn', -⟩ | ⟨held, current, hp, hcur, hk', -⟩
  · refine ⟨_, n, hk', hn', hor.imp_right ?_⟩
    rintro ⟨c', hc', hmem⟩
    exact ⟨c', hc', hkeep c' hc' n hmem⟩
  · -- a call that takes its node is at its first, to be inserted after itself
    have hsound := hs.sound _ k hk
    rw [hp] at hsound
    have htarget : acquireTarget k.this k.candidate held = n := by
      simpa [InsertCall.awaits, hp] using hn
    have hfirst : k.this = k.candidate ∧ held = none := by
      by_contra hno
      have hm := hD.marked hs hc hk hp fun e hh => hno ⟨e, hh⟩
      rw [htarget, hcur] at hm
      exact hsound.1 hm
    obtain ⟨he, rfl⟩ := hfirst
    exact ⟨_, k.this, hk', rfl, Or.inl he⟩

/-- **The run lemma.** -/
theorem stuck_run {s s' : Config w ι κ} {us : List (LinkTrans w ι κ)} (hr : Run (step L) s us s')
    (hs : Locked s) {D : Set κ} (hD : Stuck s D)
    (ha : ∀ t ∈ us, t.act.call ∈ D → t.act.cancels = false) : Locked s' ∧ Stuck s' D :=
  hr.invariant (I := fun s => Locked s ∧ Stuck s D)
    (C := fun t => t.act.call ∈ D → t.act.cancels = false) ⟨hs, hD⟩
    (fun _ h hC hI => ⟨locked_step h hI.1, stuck_step h hI.1 hI.2 hC⟩) ha

/-! ## 2. A call on its own -/

/-- Slot `c` alone, its token never stopping it, gets from `s` to `s'` in at most `n` steps. -/
abbrev Alone (L : Layout w ι) (c : κ) (n : ℕ) (s s' : Config w ι κ) : Prop :=
  Within (step L) (fun t => t.act.call = c ∧ t.act.cancels = false) n s s'

namespace Alone

variable {c : κ} {n : ℕ} {s s' : Config w ι κ}

theorem locked (h : Alone L c n s s') (hs : Locked s) : Locked s' :=
  h.invariant (fun _ h _ hs => locked_step h hs) hs

/-- The other calls are as they were. -/
theorem others (h : Alone L c n s s') {c' : κ} (hc : c' ≠ c) : s'.calls c' = s.calls c' := by
  refine h.invariant (I := fun x => x.calls c' = s.calls c') (fun t ht hC hI => ?_) rfl
  rw [calls_other ht (by rw [hC.1]; exact hc)]
  exact hI

end Alone

section Finish

variable {s : Config w ι κ} {c : κ} {this candidate : ι}

/-- A call with its result decided lets its guards go. -/
theorem drop_step (hs : Locked s) {phase phase' : Phase w ι} {g : AcqLinkGuard w ι}
    (hc : s.calls c = some ⟨this, candidate, phase⟩) (hd : phase.drops = some (g, phase')) :
    ∃ s', Alone L c 1 s s' ∧ s'.calls c = some ⟨this, candidate, phase'⟩ := by
  have hstep : step L s (.drop c) = some (s.dropGuard c this candidate g phase') := by
    simp [step, hc, hd]
  refine ⟨_, .one hstep ⟨rfl, rfl⟩, ?_⟩
  unfold Config.dropGuard trySpinCompareExchangeWeak
  rw [if_pos (beq_iff_eq.mpr (hs.marked_of_drops hc hd))]
  exact Config.put_calls_self s c _

/-- A call with both nodes loads, and returns. -/
theorem finishes_of_load (hs : Locked s) {cg tg : AcqLinkGuard w ι}
    (hc : s.calls c = some ⟨this, candidate, .load cg tg⟩) :
    ∃ s' r, Alone L c 3 s s' ∧ s'.calls c = some ⟨this, candidate, .returned r⟩ := by
  obtain ⟨cg', r, hl⟩ : ∃ cg' r, loaded L this candidate cg tg (s.links this).next =
      .dropThis cg' tg r := by
    unfold loaded
    split
    · exact ⟨_, _, rfl⟩
    · exact ⟨_, _, rfl⟩
  have hstep : step L s (.load c) = some (s.put c ⟨this, candidate, .dropThis cg' tg r⟩) := by
    simp [step, hc, hl]
  have h1 : Alone L c 1 s _ := .one hstep ⟨rfl, rfl⟩
  have hs1 := h1.locked hs
  obtain ⟨s₂, h2, hc2⟩ := drop_step (L := L) hs1 (Config.put_calls_self s c _) rfl
  obtain ⟨s₃, h3, hc3⟩ := drop_step (L := L) (h2.locked hs1) hc2 rfl
  exact ⟨s₃, r, (h1.trans h2).trans h3, hc3⟩

/-- One exchange that does not fail spuriously. -/
theorem exchange_step {held : Option (AcqLinkGuard w ι)} {current : BitVec w}
    (hc : s.calls c = some ⟨this, candidate, .exchange held current⟩) :
    ∃ s', Alone L c 1 s s' ∧
      ((s.links (acquireTarget this candidate held)).prev = current →
        s'.calls c = some ⟨this, candidate,
          acquired held ⟨acquireTarget this candidate held, current⟩⟩ ∧
        s'.links = setPrev s.links (acquireTarget this candidate held) (guarded w)) ∧
      ((s.links (acquireTarget this candidate held)).prev ≠ current →
        s' = s.put c ⟨this, candidate, .poll held current
          (s.links (acquireTarget this candidate held)).prev⟩) := by
  have hstep : step L s (.exchange c false) =
      some (s.tryAcquire c this candidate held current false) := by
    simp [step, hc]
  refine ⟨_, .one hstep ⟨rfl, rfl⟩, ?_⟩
  generalize s.tryAcquire c this candidate held current false = s' at hstep
  cases step_cases hstep with
  | took _ this' candidate' held' current' hc' hp =>
      rw [hc] at hc'
      cases hc'
      exact ⟨fun _ => ⟨Config.put_calls_self s c _, rfl⟩, fun hne => absurd hp hne⟩
  | failed _ this' candidate' held' current' b hc' hb =>
      rw [hc] at hc'
      cases hc'
      exact ⟨fun hp => absurd (hb hp) Bool.false_ne_true, fun _ => rfl⟩

/-- **An unmarked node is taken**: a stale value costs one iteration of the loop. -/
theorem takes_of_exchange {held : Option (AcqLinkGuard w ι)} {current : BitVec w}
    (hc : s.calls c = some ⟨this, candidate, .exchange held current⟩)
    (hm : (s.links (acquireTarget this candidate held)).prev ≠ guarded w) :
    ∃ s' p, Alone L c 3 s s' ∧
      s'.calls c = some ⟨this, candidate, acquired held ⟨acquireTarget this candidate held, p⟩⟩ ∧
      s'.links = setPrev s.links (acquireTarget this candidate held) (guarded w) := by
  obtain ⟨s₁, h1, hsame, hstale⟩ := exchange_step (L := L) hc
  by_cases hcur : (s.links (acquireTarget this candidate held)).prev = current
  · obtain ⟨hc1, hl1⟩ := hsame hcur
    exact ⟨s₁, current, h1.weaken (by decide), hc1, hl1⟩
  · obtain rfl := hstale hcur
    -- found unmarked, the value is the one the next exchange works on
    let s₂ := s.put c ⟨this, candidate,
      .exchange held (s.links (acquireTarget this candidate held)).prev⟩
    have hpoll : step L (s.put c ⟨this, candidate, .poll held current
        (s.links (acquireTarget this candidate held)).prev⟩) (.poll c false) = some s₂ := by
      simp [step, polled, hm, s₂, Config.put]
    have hc2 : s₂.calls c = some ⟨this, candidate,
      .exchange held (s.links (acquireTarget this candidate held)).prev⟩ :=
      Config.put_calls_self s c _
    obtain ⟨s₃, h3, hsame, -⟩ := exchange_step (L := L) hc2
    obtain ⟨hc3, hl3⟩ := hsame rfl
    exact ⟨s₃, _, (h1.trans (.one hpoll ⟨rfl, rfl⟩)).trans h3, hc3, hl3⟩

/-- The same from the answer of the token on. -/
theorem takes_of_poll {held : Option (AcqLinkGuard w ι)} {current found : BitVec w}
    (hc : s.calls c = some ⟨this, candidate, .poll held current found⟩)
    (hm : (s.links (acquireTarget this candidate held)).prev ≠ guarded w) :
    ∃ s' p, Alone L c 4 s s' ∧
      s'.calls c = some ⟨this, candidate, acquired held ⟨acquireTarget this candidate held, p⟩⟩ ∧
      s'.links = setPrev s.links (acquireTarget this candidate held) (guarded w) := by
  have hpoll : step L s (.poll c false) = some (s.put c ⟨this, candidate,
      .exchange held (if found ≠ guarded w then found else current)⟩) := by
    simp [step, hc, polled]
  have h1 : Alone L c 1 s _ := .one hpoll ⟨rfl, rfl⟩
  obtain ⟨s₂, p, h2, hc2, hl2⟩ := takes_of_exchange (L := L) (Config.put_calls_self s c _) hm
  exact ⟨s₂, p, h1.trans h2, hc2, hl2⟩

/-- A call that holds its candidate and finds its own node unmarked returns. -/
theorem finishes_of_second (hs : Locked s) {cg : AcqLinkGuard w ι} {k : InsertCall w ι}
    (hk : s.calls c = some k) (hg : k.phase.guards = [cg]) (hw : k.awaits = some k.this)
    (hm : (s.links k.this).prev ≠ guarded w) :
    ∃ s' r, Alone L c 7 s s' ∧ s'.calls c = some ⟨k.this, k.candidate, .returned r⟩ := by
  obtain ⟨s₁, cg', tg, h1, hc1⟩ : ∃ s₁ cg' tg, Alone L c 4 s s₁ ∧
      s₁.calls c = some ⟨k.this, k.candidate, .load cg' tg⟩ := by
    obtain ⟨this, candidate, phase⟩ := k
    cases phase with
    | exchange held current =>
        cases held with
        | none => cases hg
        | some g =>
            obtain ⟨s₁, p, h1, hc1, -⟩ := takes_of_exchange (L := L) hk hm
            exact ⟨s₁, _, _, h1.weaken (by decide), hc1⟩
    | poll held current found =>
        cases held with
        | none => cases hg
        | some g =>
            obtain ⟨s₁, p, h1, hc1, -⟩ := takes_of_poll (L := L) hk hm
            exact ⟨s₁, _, _, h1, hc1⟩
    | _ => cases hw
  obtain ⟨s₂, r, h2, hc2⟩ := finishes_of_load (L := L) (h1.locked hs) hc1
  exact ⟨s₂, r, h1.trans h2, hc2⟩

/-- A call that holds nothing yet and finds both its nodes unmarked returns. -/
theorem finishes_of_first (hs : Locked s) {k : InsertCall w ι} (hk : s.calls c = some k)
    (hg : k.phase.guards = []) {n : ι} (hw : k.awaits = some n) (hne : k.this ≠ k.candidate)
    (hm : ∀ n, (s.links n).prev ≠ guarded w) :
    ∃ s' r, Alone L c 11 s s' ∧ s'.calls c = some ⟨k.this, k.candidate, .returned r⟩ := by
  obtain ⟨s₁, p, h1, hc1, hl1⟩ : ∃ s₁ p, Alone L c 4 s s₁ ∧
      s₁.calls c = some ⟨k.this, k.candidate, .exchange (some ⟨k.candidate, p⟩) (null w)⟩ ∧
      s₁.links = setPrev s.links k.candidate (guarded w) := by
    obtain ⟨this, candidate, phase⟩ := k
    cases phase with
    | exchange held current =>
        cases held with
        | some g => cases hg
        | none =>
            obtain ⟨s₁, p, h1, hc1, hl1⟩ := takes_of_exchange (L := L) hk (hm _)
            exact ⟨s₁, p, h1.weaken (by decide), hc1, hl1⟩
    | poll held current found =>
        cases held with
        | some g => cases hg
        | none =>
            obtain ⟨s₁, p, h1, hc1, hl1⟩ := takes_of_poll (L := L) hk (hm _)
            exact ⟨s₁, p, h1, hc1, hl1⟩
    | _ => cases hw
  have hm1 : (s₁.links k.this).prev ≠ guarded w := by
    rw [hl1, setPrev_of_ne s.links hne]
    exact hm _
  obtain ⟨s₂, r, h2, hc2⟩ := finishes_of_second (L := L) (h1.locked hs) hc1 rfl rfl hm1
  exact ⟨s₂, r, h1.trans h2, hc2⟩

end Finish

/-! ## 3. Returning -/

/-- **Every call made so far has returned.** -/
def AllReturned (s : Config w ι κ) : Prop :=
  ∀ c k, s.calls c = some k → ∃ r, k.phase = .returned r

omit [DecidableEq κ] in
/-- A place with no guard and no node to take is the end. -/
theorem returned_of_quiet {s : Config w ι κ} (hs : Locked s) {c : κ} {k : InsertCall w ι}
    (hk : s.calls c = some k) (hg : k.phase.guards = []) (hw : k.awaits = none) :
    ∃ r, k.phase = .returned r := by
  obtain ⟨this, candidate, phase⟩ := k
  cases phase with
  | exchange held current => cases hw
  | poll held current found => cases hw
  | load cg tg => cases hg
  | dropThis cg tg r => cases hg
  | dropCandidate cg r => cases hg
  | returned r => exact ⟨r, rfl⟩
  | panicked =>
      have hsound := hs.sound c _ hk
      cases hsound

/-- A call that holds a node, and finds the one it waits for unmarked if it waits, returns. -/
theorem finishes_of_holder {s : Config w ι κ} (hs : Locked s) {c : κ} {k : InsertCall w ι}
    (hk : s.calls c = some k) (hg : k.phase.guards ≠ [])
    (hm : ∀ n, k.awaits = some n → (s.links n).prev ≠ guarded w) :
    ∃ s' r, Alone L c 7 s s' ∧ s'.calls c = some ⟨k.this, k.candidate, .returned r⟩ := by
  obtain ⟨this, candidate, phase⟩ := k
  cases phase with
  | exchange held current =>
      cases held with
      | none => exact absurd rfl hg
      | some g => exact finishes_of_second hs hk rfl rfl (hm _ rfl)
  | poll held current found =>
      cases held with
      | none => exact absurd rfl hg
      | some g => exact finishes_of_second hs hk rfl rfl (hm _ rfl)
  | load cg tg =>
      obtain ⟨s₁, r, h1, hc1⟩ := finishes_of_load (L := L) hs hk
      exact ⟨s₁, r, h1.weaken (by decide), hc1⟩
  | dropThis cg tg r =>
      obtain ⟨s₁, h1, hc1⟩ := drop_step (L := L) hs hk rfl
      obtain ⟨s₂, h2, hc2⟩ := drop_step (L := L) (h1.locked hs) hc1 rfl
      exact ⟨s₂, r, (h1.trans h2).weaken (by decide), hc2⟩
  | dropCandidate cg r =>
      obtain ⟨s₁, h1, hc1⟩ := drop_step (L := L) hs hk rfl
      exact ⟨s₁, r, h1.weaken (by decide), hc1⟩
  | returned r => exact absurd rfl hg
  | panicked => exact absurd rfl hg

omit [DecidableEq ι] [DecidableEq κ] in
theorem nodes_nil_iff {s : Config w ι κ} {c : κ} {k : InsertCall w ι} (hk : s.calls c = some k) :
    s.nodes c = [] ↔ k.phase.guards = [] := by
  rw [nodes_of_call hk, List.map_eq_nil_iff]

/-- **With no stuck set some call can be brought back** on its own. -/
theorem finishes_some {s : Config w ι κ} (hs : Locked s)
    (hD : ¬ ∃ D : Set κ, D.Nonempty ∧ Stuck s D) (hopen : ¬ AllReturned s) :
    ∃ c k s' r, s.calls c = some k ∧ (∀ r, k.phase ≠ .returned r) ∧ Alone L c 11 s s' ∧
      s'.calls c = some ⟨k.this, k.candidate, .returned r⟩ := by
  by_cases hheld : ∃ c, s.nodes c ≠ []
  · -- not every holder waits for a marked node: the holders would be stuck
    obtain ⟨c, k, hk, hg, hm⟩ : ∃ c k, s.calls c = some k ∧ k.phase.guards ≠ [] ∧
        ∀ n, k.awaits = some n → (s.links n).prev ≠ guarded w := by
      by_contra hno
      obtain ⟨c₀, hc₀⟩ := hheld
      refine hD ⟨{c | s.nodes c ≠ []}, ⟨c₀, hc₀⟩, fun c hc => ?_⟩
      cases hk : s.calls c with
      | none => exact absurd (by simp [Config.nodes, Config.guards, hk]) hc
      | some k =>
          have hg : k.phase.guards ≠ [] := fun e => hc ((nodes_nil_iff hk).mpr e)
          obtain ⟨n, hn, hm⟩ : ∃ n, k.awaits = some n ∧ (s.links n).prev = guarded w := by
            by_contra hfree
            exact hno ⟨c, k, hk, hg, fun n hn hm => hfree ⟨n, hn, hm⟩⟩
          refine ⟨k, n, rfl, hn, Or.inr ?_⟩
          cases hs.node n with
          | free hp _ => exact absurd hm hp
          | held c' _ h1 _ =>
              have hmem : n ∈ s.nodes c' := List.count_pos_iff.mp (by omega)
              exact ⟨c', List.ne_nil_of_mem hmem, hmem⟩
    obtain ⟨s', r, halone, hc'⟩ := finishes_of_holder (L := L) hs hk hg hm
    refine ⟨c, k, s', r, hk, fun r hr => hg ?_, halone.weaken (by decide), hc'⟩
    rw [hr]
    rfl
  · -- nobody holds a node: whoever comes first finds both unmarked
    have hnone : ∀ c, s.nodes c = [] := fun c => by
      by_contra hc
      exact hheld ⟨c, hc⟩
    obtain ⟨c, k, hk, hk'⟩ : ∃ c k, s.calls c = some k ∧ ∀ r, k.phase ≠ .returned r := by
      by_contra hno
      refine hopen fun c k hk => ?_
      by_contra hr
      exact hno ⟨c, k, hk, fun r e => hr ⟨r, e⟩⟩
    have hg := (nodes_nil_iff hk).mp (hnone c)
    have hmark : ∀ n, (s.links n).prev ≠ guarded w := by
      intro n hm
      cases hs.node n with
      | free hp _ => exact hp hm
      | held c' _ h1 _ =>
          rw [hnone c'] at h1
          cases h1
    cases hw : k.awaits with
    | none =>
        obtain ⟨r, hr⟩ := returned_of_quiet hs hk hg hw
        exact absurd hr (hk' r)
    | some n =>
        have hne : k.this ≠ k.candidate := by
          intro e
          refine hD ⟨{c}, ⟨c, rfl⟩, fun c' hc' => ?_⟩
          obtain rfl := Set.mem_singleton_iff.mp hc'
          exact ⟨k, n, hk, hw, Or.inl e⟩
        obtain ⟨s', r, halone, hc'⟩ := finishes_of_first (L := L) hs hk hg hw hne hmark
        exact ⟨c, k, s', r, hk, hk', halone, hc'⟩

/-- What is stuck after a call has returned was stuck before. -/
theorem Alone.stuck_before {c : κ} {m : ℕ} {s s' : Config w ι κ} (h : Alone L c m s s')
    {k : InsertCall w ι} (hc : s'.calls c = some k) {r : Inserted w} (hr : k.phase = .returned r)
    {D : Set κ} (hD : Stuck s' D) : Stuck s D := by
  have hne : ∀ c' ∈ D, c' ≠ c := by
    rintro c' hc' rfl
    obtain ⟨k', n, hk', hn, -⟩ := hD c' hc'
    obtain rfl := Option.some.inj (hc.symm.trans hk')
    simp [InsertCall.awaits, hr] at hn
  intro c' hc'
  obtain ⟨k', n, hk', hn, hor⟩ := hD c' hc'
  refine ⟨k', n, by rw [← h.others (hne c' hc'), hk'], hn, hor.imp_right ?_⟩
  rintro ⟨d, hd, hmem⟩
  refine ⟨d, hd, ?_⟩
  unfold Config.nodes Config.guards at hmem ⊢
  rw [← h.others (hne d hd)]
  exact hmem

/-! ## 4. The way out -/

/-- The call is under way. -/
def InsertCall.going (k : InsertCall w ι) : Bool :=
  match k.phase with
  | .returned _ => false
  | _ => true

omit [DecidableEq ι] [DecidableEq κ] in
theorem going_iff {k : InsertCall w ι} : k.going = true ↔ ∀ r, k.phase ≠ .returned r := by
  unfold InsertCall.going
  split
  · next r hr => exact iff_of_false nofun fun h => h r hr
  · next h => exact iff_of_true rfl h

/-- The calls of `F` that are under way. -/
def Config.underWay (F : Finset κ) (s : Config w ι κ) : Finset κ :=
  F.filter fun c => (s.calls c).any InsertCall.going = true

/-- A run so far has made finitely many calls. -/
theorem calls_finite {links : ι → AcqLink w} {ts : List (LinkTrans w ι κ)} {s : Config w ι κ}
    (hr : Run (step L) (init κ links) ts s) : ∃ F : Finset κ, ∀ c, c ∉ F → s.calls c = none := by
  induction hr with
  | start => exact ⟨∅, fun _ _ => rfl⟩
  | @next ts s s' a _ hs ih =>
      obtain ⟨F, hF⟩ := ih
      refine ⟨insert a.call F, fun c hc => ?_⟩
      rw [Finset.mem_insert, not_or] at hc
      rw [calls_other hs hc.1]
      exact hF c hc.2

/-- **What the way out keeps**: no set is stuck, and there are no calls but those of `F`. -/
structure Clear (F : Finset κ) (s : Config w ι κ) : Prop where
  locked : Locked s
  loose : ¬ ∃ D : Set κ, D.Nonempty ∧ Stuck s D
  calls : ∀ c, c ∉ F → s.calls c = none

/-- **One call after the other comes back**, in at most eleven steps each. -/
theorem drains (L : Layout w ι) (F : Finset κ) :
    Drains (step L) (Clear F) (fun t => t.act.cancels = false)
      (fun s => (Config.underWay (w := w) (ι := ι) F s).card) 11 where
  lowers := by
    intro s hs hpos
    obtain ⟨c₀, hc₀⟩ := Finset.card_pos.mp hpos
    obtain ⟨-, hany⟩ := Finset.mem_filter.mp hc₀
    obtain ⟨k₀, hk₀, hgoing₀⟩ := (Option.any_eq_true _ _).mp hany
    have hopen : ¬ AllReturned s := by
      intro hall
      obtain ⟨r, hr⟩ := hall c₀ k₀ hk₀
      exact going_iff.mp hgoing₀ r hr
    obtain ⟨c, k, s', r, hk, hgoing, halone, hc'⟩ := finishes_some (L := L) hs.locked hs.loose hopen
    have hcF : c ∈ F := by
      by_contra hc
      rw [hs.calls c hc] at hk
      cases hk
    have hsub : s'.underWay F ⊂ s.underWay F := by
      refine Finset.ssubset_iff_of_subset (fun d hd => ?_) |>.mpr ⟨c, ?_, fun hmem => ?_⟩
      · obtain ⟨hdF, hd⟩ := Finset.mem_filter.mp hd
        have hdc : d ≠ c := by
          rintro rfl
          rw [hc'] at hd
          cases hd
        rw [halone.others hdc] at hd
        exact Finset.mem_filter.mpr ⟨hdF, hd⟩
      · exact Finset.mem_filter.mpr ⟨hcF, by rw [hk]; exact going_iff.mpr hgoing⟩
      · have hgoing' := (Finset.mem_filter.mp hmem).2
        rw [hc'] at hgoing'
        cases hgoing'
    have hlt := Finset.card_lt_card hsub
    refine ⟨s', (halone.mono fun t ht => ht.2).weaken (by omega),
      ⟨halone.locked hs.locked, ?_, ?_⟩, hlt⟩
    · rintro ⟨D, hne, hD⟩
      exact hs.loose ⟨D, hne, halone.stuck_before hc' rfl hD⟩
    · intro d hd
      have hdc : d ≠ c := fun e => hd (e ▸ hcF)
      rw [halone.others hdc]
      exact hs.calls d hd

/-- **Without a token's help the calls can all return exactly where no set of them is stuck**: from
    every state of a run, whatever the nodes and however many calls. -/
theorem can_all_return_iff {links : ι → AcqLink w} (h0 : ∀ n, (links n).prev ≠ guarded w)
    {ts : List (LinkTrans w ι κ)} {s : Config w ι κ} (hr : Run (step L) (init κ links) ts s) :
    CanReach (step L) (fun t => t.act.cancels = false) s AllReturned ↔
      ¬ ∃ D : Set κ, D.Nonempty ∧ Stuck s D := by
  have hs := locked_run h0 hr
  constructor
  · rintro ⟨us, s', hrun, hC, hall⟩ ⟨D, ⟨c, hc⟩, hD⟩
    obtain ⟨-, hD'⟩ := stuck_run hrun hs hD fun t ht _ => hC t ht
    obtain ⟨k, n, hk, hn, -⟩ := hD' c hc
    obtain ⟨r, hr⟩ := hall c k hk
    simp [InsertCall.awaits, hr] at hn
  · intro hloose
    obtain ⟨F, hF⟩ := calls_finite hr
    obtain ⟨s', hrun, hs', hzero⟩ := (drains L F).run ⟨hs, hloose, hF⟩
    refine .of_within hrun (.now fun c k hk => ?_)
    by_contra hno
    have hgoing : k.going = true := going_iff.mpr fun r e => hno ⟨r, e⟩
    have hcF : c ∈ F := by
      by_contra hc
      rw [hs'.calls c hc] at hk
      cases hk
    have hmem : c ∈ s'.underWay F := Finset.mem_filter.mpr ⟨hcF, by rw [hk]; exact hgoing⟩
    rw [Finset.card_eq_zero.mp hzero] at hmem
    cases hmem

/-- **A stuck call comes back only by a token**: as long as none of the set is stopped, each of its
    calls spins, in every continuation and whatever the other calls do. -/
theorem stuck_forever {links : ι → AcqLink w} (h0 : ∀ n, (links n).prev ≠ guarded w)
    {ts : List (LinkTrans w ι κ)} {s : Config w ι κ} (hr : Run (step L) (init κ links) ts s)
    {D : Set κ} (hD : Stuck s D) {us : List (LinkTrans w ι κ)} {s' : Config w ι κ}
    (hr' : Run (step L) s us s') (ha : ∀ t ∈ us, t.act.call ∈ D → t.act.cancels = false) :
    ∀ c ∈ D, ∃ k n, s'.calls c = some k ∧ k.awaits = some n ∧
      (k.this = k.candidate ∨ (s'.links n).prev = guarded w) := by
  obtain ⟨hs', hD'⟩ := stuck_run hr' (locked_run h0 hr) hD ha
  intro c hc
  obtain ⟨k, n, hk, hn, hor⟩ := hD' c hc
  refine ⟨k, n, hk, hn, hor.imp_right ?_⟩
  rintro ⟨c', -, hmem⟩
  exact hs'.marked hmem

/-- Two calls with the same two nodes the other way round: a third one is stopped and gets away,
    they do not. -/
theorem stuck_forever_crossed :
    ∃ ts s us s', Run (step threeNodes) (init (Fin 3) fun _ => ⟨null 8, null 8⟩) ts s ∧
      Run (step threeNodes) s us s' ∧ s'.calls 2 = some ⟨0, 2, .returned (.error none)⟩ ∧
      ∃ k n, s'.calls 0 = some k ∧ k.awaits = some n ∧
        (k.this = k.candidate ∨ (s'.links n).prev = guarded 8) := by
  obtain ⟨ts, s, us, s', hr, hr', h0, h1, h2, ha⟩ := Run.of_exec_segment (step threeNodes)
    (init (Fin 3) fun _ => ⟨null 8, null 8⟩)
    [.start 0 0 1, .start 1 1 0, .exchange 0 false, .exchange 1 false]
    [.start 2 0 2, .exchange 2 false, .exchange 0 false, .exchange 2 false, .poll 0 false,
      .poll 2 true, .drop 2]
    (fun _ s us s' => s.calls 0 = some ⟨0, 1, .exchange (some ⟨1, null 8⟩) (null 8)⟩ ∧
      s.calls 1 = some ⟨1, 0, .exchange (some ⟨0, null 8⟩) (null 8)⟩ ∧
      s'.calls 2 = some ⟨0, 2, .returned (.error none)⟩ ∧
      ∀ t ∈ us, t.act.cancels = false ∨ t.act.call = 2) (by decide)
  have hstuck : Stuck s {c | c = 0 ∨ c = 1} := by
    rintro c (rfl | rfl)
    · refine ⟨_, 0, h0, rfl, Or.inr ⟨1, Or.inr rfl, ?_⟩⟩
      rw [nodes_of_call h1]
      exact List.mem_cons_self
    · refine ⟨_, 1, h1, rfl, Or.inr ⟨0, Or.inl rfl, ?_⟩⟩
      rw [nodes_of_call h0]
      exact List.mem_cons_self
  refine ⟨ts, s, us, s', hr, hr', h2,
    stuck_forever (by decide) hr hstuck hr' (fun t ht hin => (ha t ht).resolve_right ?_) 0
      (Or.inl rfl)⟩
  rcases hin with e | e <;> rw [e] <;> decide

/-- A call on its way to the second node, and nothing to stop it: it can still return. -/
theorem can_all_return_waiting :
    ∃ ts s, Run (step threeNodes) (init (Fin 2) fun _ => ⟨null 8, null 8⟩) ts s ∧
      s.calls 1 = some ⟨0, 2, .poll (some ⟨2, null 8⟩) (null 8) (guarded 8)⟩ ∧
      CanReach (step threeNodes) (fun t => t.act.cancels = false) s AllReturned := by
  obtain ⟨ts, s, hr, h0, h1⟩ := Run.of_exec (step threeNodes)
    (init (Fin 2) fun _ => ⟨null 8, null 8⟩)
    [.start 0 0 1, .exchange 0 false, .exchange 0 false, .start 1 0 2, .exchange 1 false,
      .exchange 1 false]
    (fun _ s => s.calls 0 = some ⟨0, 1, .load ⟨1, null 8⟩ ⟨0, null 8⟩⟩ ∧
      s.calls 1 = some ⟨0, 2, .poll (some ⟨2, null 8⟩) (null 8) (guarded 8)⟩) (by decide)
  refine ⟨ts, s, hr, h1, (can_all_return_iff (by decide) hr).mpr ?_⟩
  rintro ⟨D, ⟨c, hc⟩, hD⟩
  have h0D : (0 : Fin 2) ∉ D := by
    intro h
    obtain ⟨k, n, hk, hn, -⟩ := hD 0 h
    obtain rfl := Option.some.inj (h0.symm.trans hk)
    cases hn
  obtain ⟨k, n, hk, hn, hor⟩ := hD c hc
  have hc1 : c = 1 := by
    have hne : c ≠ 0 := fun e => h0D (e ▸ hc)
    omega
  subst hc1
  obtain rfl := Option.some.inj (h1.symm.trans hk)
  rcases hor with e | ⟨c', hc', hmem⟩
  · cases e
  · have hc'1 : c' = 1 := by
      have hne : c' ≠ 0 := fun e => h0D (e ▸ hc')
      omega
    subst hc'1
    cases hn
    rw [nodes_of_call h1] at hmem
    cases List.mem_singleton.mp hmem

/-! ## 5. Calls in an order -/

/-- A call that begins inserts its candidate after a node that comes before it. -/
def Act.Follows (r : ι → ι → Prop) : Act ι κ → Prop
  | .start _ this candidate => r this candidate
  | _ => True

instance (r : ι → ι → Prop) [DecidableRel r] (a : Act ι κ) : Decidable (a.Follows r) :=
  match a with
  | .start _ this candidate => inferInstanceAs (Decidable (r this candidate))
  | .exchange _ _ | .poll _ _ | .load _ | .drop _ => inferInstanceAs (Decidable True)

/-- A call has the nodes it began with. -/
theorem ordered_run {r : ι → ι → Prop} {links : ι → AcqLink w} {ts : List (LinkTrans w ι κ)}
    {s : Config w ι κ} (hr : Run (step L) (init κ links) ts s) (ho : ∀ t ∈ ts, t.act.Follows r) :
    ∀ c k, s.calls c = some k → r k.this k.candidate := by
  induction hr with
  | start => exact nofun
  | @next ts s s' a _ hs ih =>
      have ih := ih fun t ht => ho t (List.mem_cons_of_mem _ ht)
      intro c k hk
      by_cases hc : c = a.call
      swap
      · rw [calls_other hs hc] at hk
        exact ih c k hk
      subst hc
      cases step_cases hs with
      | started c this candidate hc =>
          obtain rfl := Config.put_calls_inj s hk
          have h := ho _ List.mem_cons_self
          exact h
      | took c this candidate held current hc hp =>
          obtain rfl := Config.put_calls_inj s hk
          have h := ih c _ hc
          exact h
      | failed c this candidate held current b hc hb =>
          obtain rfl := Config.put_calls_inj s hk
          have h := ih c _ hc
          exact h
      | polled c this candidate held current found b hc =>
          obtain rfl := Config.put_calls_inj s hk
          have h := ih c _ hc
          exact h
      | loaded c this candidate cg tg hc =>
          obtain rfl := Config.put_calls_inj s hk
          have h := ih c _ hc
          exact h
      | dropped c this candidate phase g phase' hc hd hm =>
          obtain rfl := Config.put_calls_inj s hk
          have h := ih c _ hc
          exact h
      | panicked c this candidate phase g phase' hc hd hm =>
          obtain rfl := Config.put_calls_inj s hk
          have h := ih c _ hc
          exact h

omit [DecidableEq κ] in
/-- A waiting call that holds a node holds its candidate, and waits for its own. -/
theorem waits_with_candidate {s : Config w ι κ} (hs : Locked s) {c : κ} {k : InsertCall w ι}
    (hk : s.calls c = some k) {n m : ι} (hn : k.awaits = some n) (hm : m ∈ s.nodes c) :
    m = k.candidate ∧ n = k.this := by
  have hsound := hs.sound c k hk
  rw [nodes_of_call hk] at hm
  obtain ⟨this, candidate, phase⟩ := k
  cases phase with
  | exchange held current =>
      cases held with
      | none => cases hm
      | some g =>
          obtain rfl := List.mem_singleton.mp hm
          cases hn
          exact ⟨(hsound.2 g rfl).1, rfl⟩
  | poll held current found =>
      cases held with
      | none => cases hm
      | some g =>
          obtain rfl := List.mem_singleton.mp hm
          cases hn
          exact ⟨(hsound.2 g rfl).1, rfl⟩
  | _ => cases hn

omit [DecidableEq κ] in
/-- **Ordered calls are never stuck**: the node a call waits for comes before the one it holds. -/
theorem loose_of_ordered {r : ι → ι → Prop} (hwf : WellFounded r) {s : Config w ι κ}
    (hs : Locked s) (ho : ∀ c k, s.calls c = some k → r k.this k.candidate) :
    ¬ ∃ D : Set κ, D.Nonempty ∧ Stuck s D := by
  rintro ⟨D, ⟨c₀, hc₀⟩, hD⟩
  -- whoever a call of the set waits for is one of the set, and holds the node
  have hnext : ∀ c ∈ D, ∃ k n, s.calls c = some k ∧ k.awaits = some n ∧
      ∃ c' ∈ D, n ∈ s.nodes c' := by
    intro c hc
    obtain ⟨k, n, hk, hn, he | hor⟩ := hD c hc
    · have hk' := ho c k hk
      rw [he] at hk'
      exact absurd hk' (hwf.irrefl.irrefl _)
    · exact ⟨k, n, hk, hn, hor⟩
  have hnobody : ∀ m, ∀ c ∈ D, m ∉ s.nodes c := by
    intro m
    induction m using hwf.induction with
    | _ m ih =>
        intro c hc hm
        obtain ⟨k, n, hk, hn, c', hc', hmem⟩ := hnext c hc
        obtain ⟨rfl, rfl⟩ := waits_with_candidate hs hk hn hm
        exact ih _ (ho c k hk) c' hc' hmem
  obtain ⟨-, n, -, -, c', hc', hmem⟩ := hnext c₀ hc₀
  exact hnobody n c' hc' hmem

/-- **Calls that keep to an order can always return**: where every node is inserted after one that
    comes before it, from every state of the run and without a token's help. -/
theorem ordered_calls_can_return {r : ι → ι → Prop} (hwf : WellFounded r) {links : ι → AcqLink w}
    (h0 : ∀ n, (links n).prev ≠ guarded w) {ts : List (LinkTrans w ι κ)} {s : Config w ι κ}
    (hr : Run (step L) (init κ links) ts s) (ho : ∀ t ∈ ts, t.act.Follows r) :
    CanReach (step L) (fun t => t.act.cancels = false) s AllReturned :=
  (can_all_return_iff h0 hr).mpr (loose_of_ordered hwf (locked_run h0 hr) (ordered_run hr ho))

/-- Nodes inserted in the order of their numbers: the second call holds its candidate and waits for
    the node the first one is inserting. -/
theorem ordered_calls_can_return_chain :
    ∃ ts s, Run (step threeNodes) (init (Fin 2) fun _ => ⟨null 8, null 8⟩) ts s ∧
      s.calls 1 = some ⟨1, 2, .poll (some ⟨2, null 8⟩) (null 8) (guarded 8)⟩ ∧
      CanReach (step threeNodes) (fun t => t.act.cancels = false) s AllReturned := by
  obtain ⟨ts, s, hr, h1, ho⟩ := Run.of_exec (step threeNodes)
    (init (Fin 2) fun _ => ⟨null 8, null 8⟩)
    [.start 0 0 1, .exchange 0 false, .start 1 1 2, .exchange 1 false, .exchange 1 false]
    (fun ts s => s.calls 1 = some ⟨1, 2, .poll (some ⟨2, null 8⟩) (null 8) (guarded 8)⟩ ∧
      ∀ t ∈ ts, t.act.Follows (· < ·)) (by decide)
  have hwf : WellFounded fun a b : Fin 3 => a < b := InvImage.wf Fin.val Nat.lt_wfRel.wf
  exact ⟨ts, s, hr, h1, ordered_calls_can_return hwf (by decide) hr ho⟩

end AtomicSync.Sequential
