/-
  File:      AtomicSync/Sequential/Machine.lean
  Subject:   The nodes of the FIFO lock and any number of `try_insert_next_` calls on them, by
             single accesses of their fields.

  An `AcqLink` has two pointers. `prev_` is the link to the predecessor and the node's lock in
  one: an `AcqLinkGuard` exchanges it for the marker `usize::MAX` and keeps what it found, and its
  drop writes that back. `try_insert_next_` takes the guard of the candidate, then its own, looks
  at `next_` and lets the two guards go, its own first.

  * `Phase` -- the places in that code, with the guards alive there; one of them is the failed
    assertion of the drop;
  * `step` -- one access of one call, on any pairs of nodes, a node after itself included;
  * `StepCase`, `step_cases` -- its inversion.

  The calls are a family of slots (`κ`); a slot makes one call after the other.
-/
import Mathlib.Data.Nat.Notation
import Mathlib.Logic.Function.Basic
import AtomicSync.Lib.Atomics
import AtomicSync.Lib.Run

namespace AtomicSync.Sequential

open Atomics

/-! ## 1. Nodes and guards -/

variable {w : ℕ} {ι κ : Type}

/-- `AcqLinkGuard::guarded()`: `usize::MAX` as a pointer. -/
def guarded (w : ℕ) : BitVec w := BitVec.allOnes w

/-- `ptr::null_mut()` -/
def null (w : ℕ) : BitVec w := 0#w

/-- The two pointers of a node. -/
structure AcqLink (w : ℕ) where
  prev : BitVec w
  next : BitVec w
  deriving DecidableEq, Repr

/-- Where the nodes are: two pointers put a node at an even address, and not at null. -/
structure Layout (w : ℕ) (ι : Type) where
  addr : ι → BitVec w
  width : 0 < w
  aligned : ∀ n, (addr n).toNat % 2 = 0
  nonnull : ∀ n, addr n ≠ null w

/-- `AcqLinkGuard`: the node, and the value its drop will write. -/
structure AcqLinkGuard (w : ℕ) (ι : Type) where
  node : ι
  prev : BitVec w
  deriving DecidableEq, Repr

/-- `AcqLinkGuard::update_prev` -/
def AcqLinkGuard.updatePrev (g : AcqLinkGuard w ι) (prev : BitVec w) : AcqLinkGuard w ι :=
  { g with prev := prev }

/-! ## 2. Calls -/

/-- What `try_insert_next_` returns, its references as addresses. -/
abbrev Inserted (w : ℕ) := Except (Option (BitVec w)) (BitVec w)

/-- **The places in `try_insert_next_`.** In `try_acquire` the candidate's guard is `held` once
    the loop is the second one. -/
inductive Phase (w : ℕ) (ι : Type) where
  /-- `try_acquire`, about to exchange `current` for the marker -/
  | exchange (held : Option (AcqLinkGuard w ι)) (current : BitVec w)
  /-- its exchange failed on `found`; about to ask the token -/
  | poll (held : Option (AcqLinkGuard w ι)) (current found : BitVec w)
  /-- both guards taken, about to load `next_` -/
  | load (candidateGuard thisGuard : AcqLinkGuard w ι)
  | dropThis (candidateGuard thisGuard : AcqLinkGuard w ι) (r : Inserted w)
  | dropCandidate (candidateGuard : AcqLinkGuard w ι) (r : Inserted w)
  | returned (r : Inserted w)
  /-- `assert!(x.is_succ())` failed in a drop -/
  | panicked
  deriving DecidableEq

/-- The guards alive at a place, the next one to drop first. -/
def Phase.guards : Phase w ι → List (AcqLinkGuard w ι)
  | .exchange held _ | .poll held _ _ => held.toList
  | .load candidateGuard thisGuard | .dropThis candidateGuard thisGuard _ =>
    [thisGuard, candidateGuard]
  | .dropCandidate candidateGuard _ => [candidateGuard]
  | .returned _ | .panicked => []

/-- `this.try_insert_next_(candidate, _)` at a place in its code. -/
structure InsertCall (w : ℕ) (ι : Type) where
  this : ι
  candidate : ι
  phase : Phase w ι
  deriving DecidableEq

/-- The node `try_acquire` is called on. -/
def acquireTarget (this candidate : ι) : Option (AcqLinkGuard w ι) → ι
  | none => candidate
  | some _ => this

/-- After `Ok(p)` from the exchange: the other node is next, or `next_`. -/
def acquired (held : Option (AcqLinkGuard w ι)) (g : AcqLinkGuard w ι) : Phase w ι :=
  match held with
  | none => .exchange (some g) (null w)
  | some candidateGuard => .load candidateGuard g

/-- After `Err(found)`: cancelled, or the next iteration with `found` unless it is the marker. -/
def polled (held : Option (AcqLinkGuard w ι)) (current found : BitVec w) (cancelled : Bool) :
    Phase w ι :=
  if cancelled then
    match held with
    | none => .returned (.error none)
    | some candidateGuard => .dropCandidate candidateGuard (.error none)
  else .exchange held (if found ≠ guarded w then found else current)

/-- After the load of `next_`: it is taken, or the candidate's link is set in its guard. -/
def loaded (L : Layout w ι) (this candidate : ι) (candidateGuard thisGuard : AcqLinkGuard w ι)
    (next : BitVec w) : Phase w ι :=
  if next ≠ null w then .dropThis candidateGuard thisGuard (.error (some next))
  else .dropThis (candidateGuard.updatePrev (L.addr this)) thisGuard (.ok (L.addr candidate))

/-- The guard dropped next, and the place after it. -/
def Phase.drops : Phase w ι → Option (AcqLinkGuard w ι × Phase w ι)
  | .dropThis candidateGuard thisGuard r => some (thisGuard, .dropCandidate candidateGuard r)
  | .dropCandidate candidateGuard r => some (candidateGuard, .returned r)
  | _ => none

/-! ## 3. The machine -/

/-- The nodes and the calls. -/
structure Config (w : ℕ) (ι κ : Type) where
  links : ι → AcqLink w
  calls : κ → Option (InsertCall w ι)

/-- A step: a call begins, or makes its next access. -/
inductive Act (ι κ : Type) where
  | start (c : κ) (this candidate : ι)
  | exchange (c : κ) (spurious : Bool)
  | poll (c : κ) (cancelled : Bool)
  | load (c : κ)
  | drop (c : κ)
  deriving DecidableEq, Repr

/-- The nodes as given, no call made yet. -/
def init (κ : Type) (links : ι → AcqLink w) : Config w ι κ := ⟨links, fun _ => none⟩

/-- The guards a slot's call holds. -/
def Config.guards (s : Config w ι κ) (c : κ) : List (AcqLinkGuard w ι) :=
  match s.calls c with
  | some k => k.phase.guards
  | none => []

/-- The nodes these guards are of. -/
def Config.nodes (s : Config w ι κ) (c : κ) : List ι := (s.guards c).map AcqLinkGuard.node

variable [DecidableEq ι] [DecidableEq κ]

/-- Node `n` with its `prev_` set. -/
def setPrev (links : ι → AcqLink w) (n : ι) (prev : BitVec w) : ι → AcqLink w :=
  Function.update links n { links n with prev := prev }

/-- Slot `c` now runs `k`. -/
def Config.put (s : Config w ι κ) (c : κ) (k : InsertCall w ι) : Config w ι κ :=
  { s with calls := Function.update s.calls c (some k) }

/-- One exchange of `try_acquire`. -/
def Config.tryAcquire (s : Config w ι κ) (c : κ) (this candidate : ι)
    (held : Option (AcqLinkGuard w ι)) (current : BitVec w) (spurious : Bool) : Config w ι κ :=
  let node := acquireTarget this candidate held
  match compareExchangeWeak current (guarded w) spurious (s.links node).prev with
  | (.ok p, prev) =>
    { s.put c ⟨this, candidate, acquired held ⟨node, p⟩⟩ with links := setPrev s.links node prev }
  | (.error x, prev) =>
    { s.put c ⟨this, candidate, .poll held current x⟩ with links := setPrev s.links node prev }

/-- `AcqLinkGuard::drop`, on the way to `phase`. -/
def Config.dropGuard (s : Config w ι κ) (c : κ) (this candidate : ι) (g : AcqLinkGuard w ι)
    (phase : Phase w ι) : Config w ι κ :=
  match trySpinCompareExchangeWeak (fun p => p == guarded w) (fun _ => g.prev)
    (s.links g.node).prev with
  | some prev => { s.put c ⟨this, candidate, phase⟩ with links := setPrev s.links g.node prev }
  | none => s.put c ⟨this, candidate, .panicked⟩

/-- **One step of the machine.** -/
def step (L : Layout w ι) (s : Config w ι κ) : Act ι κ → Option (Config w ι κ)
  | .start c this candidate =>
    match s.calls c with
    | none | some ⟨_, _, .returned _⟩ => some (s.put c ⟨this, candidate, .exchange none (null w)⟩)
    | _ => none
  | .exchange c spurious =>
    match s.calls c with
    | some ⟨this, candidate, .exchange held current⟩ =>
      some (s.tryAcquire c this candidate held current spurious)
    | _ => none
  | .poll c cancelled =>
    match s.calls c with
    | some ⟨this, candidate, .poll held current found⟩ =>
      some (s.put c ⟨this, candidate, polled held current found cancelled⟩)
    | _ => none
  | .load c =>
    match s.calls c with
    | some ⟨this, candidate, .load candidateGuard thisGuard⟩ =>
      some (s.put c ⟨this, candidate,
        loaded L this candidate candidateGuard thisGuard (s.links this).next⟩)
    | _ => none
  | .drop c =>
    match s.calls c with
    | some ⟨this, candidate, phase⟩ =>
      phase.drops.map fun (g, phase') => s.dropGuard c this candidate g phase'
    | none => none

/-! ## 4. The inversion of a step -/

@[simp] theorem setPrev_prev_self (links : ι → AcqLink w) (n : ι) (p : BitVec w) :
    (setPrev links n p n).prev = p := by simp [setPrev]

theorem setPrev_of_ne (links : ι → AcqLink w) {n m : ι} (h : m ≠ n) (p : BitVec w) :
    setPrev links n p m = links m := by simp [setPrev, h]

@[simp] theorem setPrev_next (links : ι → AcqLink w) (n m : ι) (p : BitVec w) :
    (setPrev links n p m).next = (links m).next := by
  by_cases h : m = n
  · subst h
    simp [setPrev]
  · rw [setPrev_of_ne links h]

/-- Writing what is there changes nothing. -/
theorem setPrev_same (links : ι → AcqLink w) (n : ι) : setPrev links n (links n).prev = links :=
  Function.update_eq_self n links

omit [DecidableEq ι] in
@[simp] theorem Config.put_calls_self (s : Config w ι κ) (c : κ) (k : InsertCall w ι) :
    (s.put c k).calls c = some k := by simp [Config.put]

omit [DecidableEq ι] in
theorem Config.put_calls_of_ne (s : Config w ι κ) {c c' : κ} (h : c' ≠ c) (k : InsertCall w ι) :
    (s.put c k).calls c' = s.calls c' := by simp [Config.put, h]

omit [DecidableEq ι] in
theorem Config.put_calls_inj (s : Config w ι κ) {c : κ} {k k' : InsertCall w ι}
    (h : (s.put c k').calls c = some k) : k = k' := by
  rw [Config.put_calls_self] at h
  exact (Option.some.inj h).symm

/-- The shapes of a step, with everything it required and everything it changed. -/
inductive StepCase (L : Layout w ι) (s : Config w ι κ) : Act ι κ → Config w ι κ → Prop where
  | started (c : κ) (this candidate : ι)
      (hc : ∀ k, s.calls c = some k → ∃ r, k.phase = .returned r) :
      StepCase L s (.start c this candidate) (s.put c ⟨this, candidate, .exchange none (null w)⟩)
  | took (c : κ) (this candidate : ι) (held : Option (AcqLinkGuard w ι)) (current : BitVec w)
      (hc : s.calls c = some ⟨this, candidate, .exchange held current⟩)
      (hp : (s.links (acquireTarget this candidate held)).prev = current) :
      StepCase L s (.exchange c false)
        { s.put c ⟨this, candidate,
            acquired held ⟨acquireTarget this candidate held, current⟩⟩ with
          links := setPrev s.links (acquireTarget this candidate held) (guarded w) }
  | failed (c : κ) (this candidate : ι) (held : Option (AcqLinkGuard w ι)) (current : BitVec w)
      (b : Bool) (hc : s.calls c = some ⟨this, candidate, .exchange held current⟩)
      (hb : (s.links (acquireTarget this candidate held)).prev = current → b = true) :
      StepCase L s (.exchange c b) (s.put c ⟨this, candidate,
        .poll held current (s.links (acquireTarget this candidate held)).prev⟩)
  | polled (c : κ) (this candidate : ι) (held : Option (AcqLinkGuard w ι))
      (current found : BitVec w) (b : Bool)
      (hc : s.calls c = some ⟨this, candidate, .poll held current found⟩) :
      StepCase L s (.poll c b) (s.put c ⟨this, candidate, polled held current found b⟩)
  | loaded (c : κ) (this candidate : ι) (candidateGuard thisGuard : AcqLinkGuard w ι)
      (hc : s.calls c = some ⟨this, candidate, .load candidateGuard thisGuard⟩) :
      StepCase L s (.load c) (s.put c ⟨this, candidate,
        loaded L this candidate candidateGuard thisGuard (s.links this).next⟩)
  | dropped (c : κ) (this candidate : ι) (phase : Phase w ι) (g : AcqLinkGuard w ι)
      (phase' : Phase w ι) (hc : s.calls c = some ⟨this, candidate, phase⟩)
      (hd : phase.drops = some (g, phase')) (hm : (s.links g.node).prev = guarded w) :
      StepCase L s (.drop c)
        { s.put c ⟨this, candidate, phase'⟩ with links := setPrev s.links g.node g.prev }
  | panicked (c : κ) (this candidate : ι) (phase : Phase w ι) (g : AcqLinkGuard w ι)
      (phase' : Phase w ι) (hc : s.calls c = some ⟨this, candidate, phase⟩)
      (hd : phase.drops = some (g, phase')) (hm : (s.links g.node).prev ≠ guarded w) :
      StepCase L s (.drop c) (s.put c ⟨this, candidate, .panicked⟩)

theorem tryAcquire_case {L : Layout w ι} {s : Config w ι κ} {c : κ} {this candidate : ι}
    {held : Option (AcqLinkGuard w ι)} {current : BitVec w}
    (hc : s.calls c = some ⟨this, candidate, .exchange held current⟩) (b : Bool) :
    StepCase L s (.exchange c b) (s.tryAcquire c this candidate held current b) := by
  unfold Config.tryAcquire
  rcases compareExchangeWeak_cases current (guarded w) b
    (s.links (acquireTarget this candidate held)).prev with ⟨⟨hp, rfl⟩, ho⟩ | ⟨hb, ho⟩
  · simp only [ho]
    rw [hp]
    exact .took c this candidate held current hc hp
  · simp only [ho, setPrev_same]
    exact .failed c this candidate held current b hc hb

theorem dropGuard_case {L : Layout w ι} {s : Config w ι κ} {c : κ} {this candidate : ι}
    {phase phase' : Phase w ι} {g : AcqLinkGuard w ι}
    (hc : s.calls c = some ⟨this, candidate, phase⟩) (hd : phase.drops = some (g, phase')) :
    StepCase L s (.drop c) (s.dropGuard c this candidate g phase') := by
  unfold Config.dropGuard trySpinCompareExchangeWeak
  by_cases hm : (s.links g.node).prev = guarded w
  · rw [if_pos (beq_iff_eq.mpr hm)]
    exact .dropped c this candidate phase g phase' hc hd hm
  · rw [if_neg fun h => hm (beq_iff_eq.mp h)]
    exact .panicked c this candidate phase g phase' hc hd hm

/-- **The inversion of a step.** -/
theorem step_cases {L : Layout w ι} {s s' : Config w ι κ} {a : Act ι κ}
    (h : step L s a = some s') : StepCase L s a s' := by
  cases a with
  | start c this candidate =>
      simp only [step] at h
      split at h
      · next hc =>
        cases h
        refine .started c this candidate fun k hk => ?_
        rw [hc] at hk
        cases hk
      · next r hc =>
        cases h
        refine .started c this candidate fun k hk => ?_
        rw [hc] at hk
        cases hk
        exact ⟨r, rfl⟩
      · cases h
  | exchange c b =>
      simp only [step] at h
      split at h
      · next hc =>
        cases h
        exact tryAcquire_case hc b
      · cases h
  | poll c b =>
      simp only [step] at h
      split at h
      · next hc =>
        cases h
        exact .polled c _ _ _ _ _ b hc
      · cases h
  | load c =>
      simp only [step] at h
      split at h
      · next hc =>
        cases h
        exact .loaded c _ _ _ _ hc
      · cases h
  | drop c =>
      simp only [step] at h
      split at h
      · next hc =>
        obtain ⟨⟨g, phase'⟩, hd, rfl⟩ := Option.map_eq_some_iff.mp h
        exact dropGuard_case hc hd
      · cases h

end AtomicSync.Sequential
