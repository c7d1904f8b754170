/-
  File:      AtomicSync/Sequential/Chains.lean
  Subject:   When the links of the queue stay without a cycle.

  `try_insert_next_` looks at `next_` of the node it inserts after, and at no other link. Nothing
  in it keeps a node from being inserted after one that comes after it already. What it depends on
  is the moment the call takes effect: the chain of links from its node back, seen through the
  guards that have nodes of it locked, must not lead to its candidate then. That is all there is
  to it, whatever the calls meet on the way and whoever else is inserting.

  * `Precedes` -- the link of a node, behind its guard if it has one, is another node's address;
  * `relinks_step` -- a step is an insertion, or leaves every link as it is;
  * **`links_acyclic_iff`** -- the links never close along a run iff no call inserts a node that
    its own node comes after.
-/
import Mathlib.Data.List.Nodup
import AtomicSync.Lib.Chain
import AtomicSync.Sequential.Refinement

namespace AtomicSync.Sequential

open Relation Chain

variable {w : ℕ} {ι κ : Type} {L : Layout w ι} [DecidableEq ι] [DecidableEq κ]

/-! ## 1. The link of a node -/

omit [DecidableEq κ] in
/-- **A node has one link**, whoever has it locked. -/
theorem Shows.unique {s : Config w ι κ} (hs : Locked s) {n : ι} {p q : BitVec w}
    (hp : Shows s n p) (hq : Shows s n q) : p = q := by
  have hmem : ∀ {c g}, g ∈ s.guards c → g.node = n → n ∈ s.nodes c :=
    fun hg hn => List.mem_map.mpr ⟨_, hg, hn⟩
  cases hp with
  | held c g hg hn hgp =>
      cases hq with
      | held c' g' hg' hn' hgq =>
          obtain rfl := hs.single (hmem hg hn) (hmem hg' hn')
          have hnodup : (s.nodes c).Nodup := List.nodup_iff_count_le_one.mpr fun m => by
            by_cases hm : m ∈ s.nodes c
            · exact Nat.le_of_eq (hs.count_eq_one hm)
            · rw [List.count_eq_zero.mpr hm]
              exact Nat.zero_le _
          obtain rfl := List.inj_on_of_nodup_map hnodup hg hg' (hn.trans hn'.symm)
          exact hgp.symm.trans hgq
      | free hn' _ => exact absurd (hmem hg hn) (hn' c)
  | free hn hfp =>
      cases hq with
      | held c g hg hn' _ => exact absurd (hmem hg hn') (hn c)
      | free _ hfq => exact hfp.symm.trans hfq

/-- **Node `m` precedes node `n`**: it is the address of `m` that the link of `n` has. -/
def Precedes (L : Layout w ι) (s : Config w ι κ) (m n : ι) : Prop := Shows s n (L.addr m)

omit [DecidableEq κ] in
theorem Represents.precedes {s : Config w ι κ} {links : ι → AcqLink w} (hR : Represents s links)
    (m n : ι) : Precedes L s m n ↔ (links n).prev = L.addr m := by
  constructor
  · intro h
    exact Shows.unique hR.locked (hR.prev n) h
  · intro h
    show Shows s n (L.addr m)
    rw [← h]
    exact hR.prev n

/-! ## 2. What a step does to it -/

/-- The transition in which `this.try_insert_next_(candidate, _)` takes effect as an insertion. -/
def InsertsAfter (L : Layout w ι) (this candidate : ι) (t : LinkTrans w ι κ) : Prop :=
  ∃ c, takesEffect t = some ⟨c, this, candidate, .ok (L.addr candidate)⟩

/-- **A step is an insertion, or leaves every link as it is.** -/
theorem relinks_step {t : LinkTrans w ι κ} (h : step L t.pre t.act = some t.post)
    {links : ι → AcqLink w} (hR : Represents t.pre links) :
    (∃ this candidate, InsertsAfter L this candidate t ∧
      Represents t.post (setPrev links candidate (L.addr this))) ∨
    ((∀ this candidate, ¬ InsertsAfter L this candidate t) ∧ Represents t.post links) := by
  cases ho : takesEffect t with
  | none =>
      refine Or.inr ⟨fun this candidate hins => ?_, (refines_links L).silent t h trivial _ hR ho⟩
      obtain ⟨c, hc⟩ := hins
      rw [ho] at hc
      cases hc
  | some o =>
      obtain ⟨links', hnext, hR'⟩ := (refines_links L).action t h trivial _ o hR ho
      obtain ⟨c, this, candidate, r⟩ := o
      unfold linksNext at hnext
      split at hnext
      · next hres =>
        obtain ⟨-, hres⟩ := hres
        change (insertNext L links this candidate).1 = r at hres
        subst hres
        cases hnext
        change Represents t.post (insertNext L links this candidate).2 at hR'
        unfold insertNext at ho hR'
        by_cases hn : (links this).next ≠ null w
        · rw [if_pos hn] at ho hR'
          refine Or.inr ⟨fun this' candidate' hins => ?_, hR'⟩
          obtain ⟨c', hc'⟩ := hins
          rw [ho] at hc'
          cases hc'
        · rw [if_neg hn] at ho hR'
          exact Or.inl ⟨this, candidate, ⟨c, ho⟩, hR'⟩
      · cases hnext

omit [DecidableEq κ] in
/-- An insertion relinks its candidate. -/
theorem relinked_of_inserts (hinj : Function.Injective L.addr) {s s' : Config w ι κ}
    {links : ι → AcqLink w} (hR : Represents s links) {this candidate : ι}
    (hR' : Represents s' (setPrev links candidate (L.addr this))) :
    Relinked (Precedes L s) (Precedes L s') candidate this := by
  intro m n
  rw [hR.precedes, hR'.precedes]
  by_cases hn : n = candidate
  · rw [hn, setPrev_prev_self]
    constructor
    · intro h
      exact Or.inl ⟨rfl, (hinj h).symm⟩
    · intro h
      rcases h with ⟨-, rfl⟩ | ⟨hne, -⟩
      · rfl
      · exact absurd rfl hne
  · rw [setPrev_of_ne links hn]
    constructor
    · intro h
      exact Or.inr ⟨hn, h⟩
    · intro h
      rcases h with ⟨he, -⟩ | ⟨-, h⟩
      · exact absurd he hn
      · exact h

/-- **The step lemma**: only an insertion can close a chain, and it does iff one led back. -/
theorem acyclic_step (hinj : Function.Injective L.addr) {t : LinkTrans w ι κ}
    (h : step L t.pre t.act = some t.post) {links : ι → AcqLink w} (hR : Represents t.pre links)
    (hacyclic : Acyclic (Precedes L t.pre)) :
    Acyclic (Precedes L t.post) ↔ ∀ this candidate, InsertsAfter L this candidate t →
      ¬ ReflTransGen (Precedes L t.pre) candidate this := by
  rcases relinks_step h hR with ⟨this, candidate, hins, hR'⟩ | ⟨hno, hR'⟩
  · rw [(relinked_of_inserts hinj hR hR').acyclic_iff hacyclic]
    constructor
    · intro hback this' candidate' hins'
      obtain ⟨c, hc⟩ := hins
      obtain ⟨c', hc'⟩ := hins'
      rw [hc] at hc'
      cases hc'
      exact hback
    · intro hall
      exact hall this candidate hins
  · have hsame : ∀ m n, Precedes L t.post m n ↔ Precedes L t.pre m n := by
      intro m n
      rw [hR'.precedes, hR.precedes]
    exact iff_of_true ((Acyclic.congr hsame).mpr hacyclic) fun this candidate hins =>
      absurd hins (hno this candidate)

/-! ## 3. Along a run -/

/-- **The links stay without a cycle exactly as long as no call inserts a node that its own node
    comes after**: new nodes, at addresses of their own; in every state of the run, the nodes that
    are locked there included. -/
theorem links_acyclic_iff (hinj : Function.Injective L.addr) {links : ι → AcqLink w}
    (h0 : ∀ n, (links n).prev = null w) {ts : List (LinkTrans w ι κ)} {s : Config w ι κ}
    (hr : Run (step L) (init κ links) ts s) :
    (∀ t ∈ ts, Acyclic (Precedes L t.post)) ↔
      ∀ t ∈ ts, ∀ this candidate, InsertsAfter L this candidate t →
        ¬ ReflTransGen (Precedes L t.pre) candidate this := by
  have hinit : Represents (init κ links) links := by
    refine ⟨locked_init fun n => ?_, fun n => .free (fun _ => List.not_mem_nil) rfl, fun _ => rfl⟩
    rw [h0]
    exact L.null_ne_guarded
  induction hr with
  | start =>
      have hnil : ∀ (P : LinkTrans w ι κ → Prop), ∀ t ∈ [], P t := fun _ _ ht =>
        absurd ht List.not_mem_nil
      exact iff_of_true (hnil _) (hnil _)
  | @next ts s s' a hpre hs ih =>
      obtain ⟨us, m, -, hR, -⟩ := (refines_links L).run hinit hpre fun _ _ => trivial
      -- the state before is the first one, or one the run came through
      have hbefore : (∀ t ∈ ts, Acyclic (Precedes L t.post)) → Acyclic (Precedes L s) := by
        intro hall
        rcases hpre.final with rfl | ⟨t, ht, rfl⟩
        · intro n hn
          obtain ⟨m', -, hm'⟩ := TransGen.tail'_iff.mp hn
          rw [hinit.precedes, h0] at hm'
          exact L.nonnull m' hm'.symm
        · exact hall t ht
      have hlast := fun hall => acyclic_step hinj (t := ⟨s, a, s'⟩) hs hR (hbefore hall)
      constructor
      · intro hall
        have hts := fun t ht => hall t (List.mem_cons_of_mem _ ht)
        exact List.forall_mem_cons.mpr ⟨(hlast hts).mp (hall _ List.mem_cons_self), ih.mp hts⟩
      · intro hall
        have hts := ih.mpr fun t ht => hall t (List.mem_cons_of_mem _ ht)
        exact List.forall_mem_cons.mpr ⟨(hlast hts).mpr (hall _ List.mem_cons_self), hts⟩

/-- Node 1 is inserted after node 0, and then node 0 after node 1: the chain is closed. -/
theorem links_acyclic_closed :
    ∃ ts s, Run (step threeNodes) (init (Fin 1) fun _ => ⟨null 8, null 8⟩) ts s ∧
      s.calls 0 = some ⟨1, 0, .returned (.ok 0x10#8)⟩ ∧
      ¬ ∀ t ∈ ts, Acyclic (Precedes threeNodes t.post) := by
  obtain ⟨ts, s, hr, hc, t, ht, hins, hg⟩ := Run.of_exec (step threeNodes)
    (init (Fin 1) fun _ => ⟨null 8, null 8⟩)
    [.start 0 0 1, .exchange 0 false, .exchange 0 false, .load 0, .drop 0, .drop 0,
      .start 0 1 0, .exchange 0 false, .exchange 0 false, .poll 0 false, .exchange 0 false,
      .load 0, .drop 0, .drop 0]
    (fun ts s => s.calls 0 = some ⟨1, 0, .returned (.ok 0x10#8)⟩ ∧
      ∃ t ∈ ts, takesEffect t = some ⟨0, 1, 0, .ok 0x10#8⟩ ∧
        ⟨1, 0x10#8⟩ ∈ t.pre.guards 0) (by decide)
  refine ⟨ts, s, hr, hc, fun hall => ?_⟩
  have hinj : Function.Injective threeNodes.addr := by
    unfold Function.Injective
    decide
  refine (links_acyclic_iff hinj (fun _ => rfl) hr).mp hall t ht 1 0 ⟨0, hins⟩ (.single ?_)
  exact .held 0 ⟨1, 0x10#8⟩ hg rfl rfl

end AtomicSync.Sequential
