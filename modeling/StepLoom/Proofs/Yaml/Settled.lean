import StepLoom.Proofs.Yaml.Composed
import Mathlib.Data.List.Perm.Subperm

/-!
# Every node is looked into

The reader of a document meets nodes level by level. When all nodes are in order (`Nodes.InOrder`)
it settles every node that it meets: a scalar when it is met, a collection when its turn comes.
`Ready` is what holds from turn to turn. Each collection waits once at most, so as many turns as
there are nodes are enough (`lookIntoAll_settles`).
-/

namespace StepLoom

namespace Yaml

namespace Nodes

/-- The node has the number. -/
def Has (nodes : Nodes) (n : Nat) (a : Node) : Prop := nodes[n]? = some a

/-- The node is a scalar. -/
def IsLeaf (nodes : Nodes) (n : Nat) : Prop := ∃ tag text, nodes.Has n (.scalar tag text)

/-- The node has a tag that fits and parts that exist; a scalar can be read. -/
def Fits (nodes : Nodes) : Node → Prop
  | .scalar tag text => ∃ s, StandsFor tag text s
  | .seq tag items => tag = .seq ∧ ∀ k ∈ items, k < nodes.size
  | .map tag pairs => tag = .map ∧ ∀ p ∈ pairs, nodes.IsLeaf p.1 ∧ p.2 < nodes.size

/-- Every node fits. -/
def InOrder (nodes : Nodes) : Prop := ∀ n a, nodes.Has n a → nodes.Fits a

/-- The scalar that a node is read as. -/
def scalarAt (nodes : Nodes) (n : Nat) : Scalar :=
  match nodes.node n with
  | .scalar tag text => (Literal.read 0 tag text).toOption.getD .null
  | _ => .null

/-- What a node is read as in the end. -/
def settled (nodes : Nodes) (n : Nat) : Part :=
  match nodes.node n with
  | .scalar .. => .scalar (nodes.scalarAt n)
  | .seq _ items => .list items
  | .map _ pairs => .map (pairs.map fun (k, v) => (nodes.scalarAt k, v))

/-- The nodes that a node has as its parts. -/
def partsOf (nodes : Nodes) (n : Nat) : List Nat :=
  match nodes.node n with
  | .scalar .. => []
  | .seq _ items => items
  | .map _ pairs => pairs.flatMap fun (k, v) => [k, v]

variable {nodes : Nodes} {n : Nat} {a : Node}

theorem Has.node_eq (h : nodes.Has n a) : nodes.node n = a := by
  rw [node, Array.getD_eq_getD_getElem?, h]
  rfl

theorem exists_node (h : n < nodes.size) : ∃ a, nodes.Has n a := ⟨nodes[n], by simp [Has, h]⟩

theorem Has.lt (h : nodes.Has n a) : n < nodes.size := by
  obtain ⟨h, -⟩ := Array.getElem?_eq_some_iff.mp h
  exact h

end Nodes

namespace Reader

variable {nodes : Nodes} {n k : Nat} {r r' : Reader} {done busy : List Nat}

/-- What holds while the nodes are read. The collections `done` have been looked into, and `busy`
are those that are looked into at the moment. -/
structure Ready (nodes : Nodes) (done busy : List Nat) (r : Reader) : Prop where
  nodes_eq : r.nodes = nodes
  size : r.parts.size = nodes.size
  leaf : ∀ n, nodes.IsLeaf n → r.part n ≠ .unmet → r.part n = nodes.settled n
  waits : ∀ n < nodes.size, ¬nodes.IsLeaf n → r.part n ≠ .unmet → n ∈ done ++ (busy ++ r.queue)
  nodup : (done ++ (busy ++ r.queue)).Nodup
  known : ∀ n ∈ done ++ (busy ++ r.queue), n < nodes.size ∧ ¬nodes.IsLeaf n ∧ r.part n ≠ .unmet
  finished : ∀ n ∈ done, r.part n = nodes.settled n ∧ ∀ k ∈ nodes.partsOf n, r.part k ≠ .unmet

/-- Nodes that have been met stay as they are. -/
def Keeps (r r' : Reader) : Prop := ∀ n, r.part n ≠ .unmet → r'.part n = r.part n

theorem Keeps.refl (r : Reader) : Keeps r r := fun _ _ => rfl

theorem Keeps.trans {r'' : Reader} (h : Keeps r r') (h' : Keeps r' r'') : Keeps r r'' := by
  intro n hn
  rw [h' n (by rwa [h n hn]), h n hn]

theorem Keeps.met (h : Keeps r r') (hn : r.part n ≠ .unmet) : r'.part n ≠ .unmet := by rwa [h n hn]

theorem part_setIfInBounds (p : Part) (h : n < r.parts.size) :
    ({ r with parts := r.parts.setIfInBounds n p } : Reader).part k =
      if k = n then p else r.part k := by
  simp only [part, Array.getD_eq_getD_getElem?, Array.getElem?_setIfInBounds]
  by_cases hk : k = n
  · subst hk
    simp [h]
  · simp [hk, Ne.symm hk]

/-! ## Meeting nodes -/

theorem Ready.lt_of_leaf (hleaf : nodes.IsLeaf n) : n < nodes.size := by
  obtain ⟨tag, text, hnode⟩ := hleaf
  exact hnode.lt

/-- A scalar is read when it is met. -/
theorem Ready.setLeaf (h : Ready nodes done busy r) (hleaf : nodes.IsLeaf n)
    (hn : r.part n = .unmet) :
    Ready nodes done busy { r with parts := r.parts.setIfInBounds n (nodes.settled n) } := by
  have hlt : n < r.parts.size := by
    rw [h.size]
    exact Ready.lt_of_leaf hleaf
  have hpart : ∀ k,
      ({ r with parts := r.parts.setIfInBounds n (nodes.settled n) } : Reader).part k =
        if k = n then nodes.settled n else r.part k := fun k => part_setIfInBounds _ hlt
  have hsettled : nodes.settled n ≠ .unmet := by
    obtain ⟨tag, text, hnode⟩ := hleaf
    simp [Nodes.settled, hnode.node_eq]
  refine ⟨h.nodes_eq, by simp [h.size], ?_, ?_, h.nodup, ?_, ?_⟩
  · intro k hk hmet
    rw [hpart] at hmet ⊢
    by_cases heq : k = n
    · rw [if_pos heq, heq]
    · rw [if_neg heq] at hmet ⊢
      exact h.leaf k hk hmet
  · intro k hk hnot hmet
    have heq : k ≠ n := by
      rintro rfl
      exact hnot hleaf
    rw [hpart, if_neg heq] at hmet
    exact h.waits k hk hnot hmet
  · intro k hk
    obtain ⟨hsize, hnot, hmet⟩ := h.known k hk
    refine ⟨hsize, hnot, ?_⟩
    rw [hpart]
    split_ifs
    · exact hsettled
    · exact hmet
  · intro k hk
    obtain ⟨hdone, hparts⟩ := h.finished k hk
    have hne : k ≠ n := by
      rintro rfl
      exact (h.known k (List.mem_append_left _ hk)).2.1 hleaf
    refine ⟨?_, ?_⟩
    · rw [hpart, if_neg hne, hdone]
    · intro j hj
      rw [hpart]
      split_ifs
      · exact hsettled
      · exact hparts j hj

/-- A collection waits when it is met. -/
theorem Ready.enqueue (h : Ready nodes done busy r) (hlt : n < nodes.size) (hnot : ¬nodes.IsLeaf n)
    (hn : r.part n = .unmet) :
    Ready nodes done busy { r with parts := r.parts.setIfInBounds n .met, queue :=
    r.queue ++ [n] } := by
  have hpart : ∀ k, ({ r with parts := r.parts.setIfInBounds n .met, queue :=
    r.queue ++ [n] } : Reader).part k =
      if k = n then .met else r.part k := fun k => part_setIfInBounds _ (by rwa [h.size])
  have hnew : n ∉ done ++ (busy ++ r.queue) := fun hmem => (h.known n hmem).2.2 hn
  have hassoc : done ++ (busy ++ (r.queue ++ [n])) = (done ++ (busy ++ r.queue)) ++ [n] := by simp
  refine ⟨h.nodes_eq, by simp [h.size], ?_, ?_, ?_, ?_, ?_⟩
  · intro k hk hmet
    have heq : k ≠ n := by
      rintro rfl
      exact hnot hk
    rw [hpart, if_neg heq] at hmet ⊢
    exact h.leaf k hk hmet
  · intro k hk hleaf hmet
    rw [hassoc]
    by_cases heq : k = n
    · simp [heq]
    · rw [hpart, if_neg heq] at hmet
      exact List.mem_append_left _ (h.waits k hk hleaf hmet)
  · rw [hassoc]
    refine List.nodup_append.mpr ⟨h.nodup, by simp, ?_⟩
    intro a ha b hb heq
    rw [List.mem_singleton] at hb
    exact hnew (hb ▸ heq ▸ ha)
  · intro k hk
    rw [hassoc, List.mem_append, List.mem_singleton] at hk
    rw [hpart]
    obtain hk | rfl := hk
    · obtain ⟨hsize, hleaf, hmet⟩ := h.known k hk
      refine ⟨hsize, hleaf, ?_⟩
      split_ifs
      · exact nofun
      · exact hmet
    · exact ⟨hlt, hnot, by simp⟩
  · intro k hk
    obtain ⟨hdone, hparts⟩ := h.finished k hk
    have hne : k ≠ n := by
      rintro rfl
      exact hnew (List.mem_append_left _ hk)
    refine ⟨?_, ?_⟩
    · rw [hpart, if_neg hne, hdone]
    · intro j hj
      rw [hpart]
      split_ifs
      · exact nofun
      · exact hparts j hj

theorem run_setPart (p : Part) :
    (setPart n p).run r = .ok ((), { r with parts := r.parts.setIfInBounds n p }) := rfl

theorem run_liftM_ok {α : Type} (a : α) :
    (liftM (.ok a : Except Fault α) : Step α).run r = .ok (a, r) := rfl

theorem isCollectionTag_of (h : nodes.InOrder) (hlt : n < nodes.size) (hnot : ¬nodes.IsLeaf n) :
    isScalarTag (nodes.tagOf n) = false ∧ isCollectionTag (nodes.tagOf n) := by
  obtain ⟨a, ha⟩ := Nodes.exists_node hlt
  rw [Nodes.tagOf, ha.node_eq]
  cases a with
  | scalar tag text => exact absurd ⟨tag, text, ha⟩ hnot
  | seq tag items =>
    obtain ⟨rfl, -⟩ := h n _ ha
    exact ⟨rfl, rfl⟩
  | map tag pairs =>
    obtain ⟨rfl, -⟩ := h n _ ha
    exact ⟨rfl, rfl⟩

theorem settled_leaf {tag : Tag} {text : String} (ha : nodes.Has n (.scalar tag text)) :
    nodes.settled n = .scalar (nodes.scalarAt n) := by
  rw [Nodes.settled, ha.node_eq]

theorem scalarAt_eq {tag : Tag} {text : String} {s : Scalar} (ha : nodes.Has n (.scalar tag text))
    (h : StandsFor tag text s) : nodes.scalarAt n = s := by
  rw [Nodes.scalarAt, ha.node_eq]
  simp [h.reads 0, Except.toOption]

/-- A scalar can be read. -/
theorem scalarOf_leaf (h : nodes.InOrder) (hr : r.nodes = nodes) {tag : Tag} {text : String}
    (ha : nodes.Has n (.scalar tag text)) :
    isScalarTag (nodes.tagOf n) ∧ r.scalarOf n (nodes.tagOf n) = .ok (nodes.scalarAt n) := by
  obtain ⟨s, hs⟩ := h n _ ha
  have htag : nodes.tagOf n = tag := by rw [Nodes.tagOf, ha.node_eq, Node.tag]
  have htext : textOf nodes (nodes.size + 1) n = .ok text := by rw [textOf, ha.node_eq]
  have hread : r.scalarOf n tag = Literal.read (r.first + n) tag text := by
    rw [scalarOf, hr, htext, ha.node_eq]
    simp only [bind, Except.bind]
  rw [htag, hread, hs.reads, scalarAt_eq ha hs]
  exact ⟨hs.scalar, rfl⟩

/-- **A node is met.** -/
theorem run_meet (h : nodes.InOrder) (hr : Ready nodes done busy r) (hn : n < nodes.size) :
    ∃ r', (meet n).run r = .ok ((), r') ∧ Ready nodes done busy r' ∧ Keeps r r' ∧
    r'.part n ≠ .unmet := by
  obtain rfl := hr.nodes_eq
  have hget : (get : Step Reader).run r = .ok (r, r) := rfl
  rw [meet, run_bind_ok hget]
  by_cases hunmet : r.part n = .unmet
  · rw [hunmet]
    dsimp only
    have hkeeps : ∀ p q, Keeps r { r with parts := r.parts.setIfInBounds n p, queue := q } := by
      intro p q k hk
      have hne : k ≠ n := by
        rintro rfl
        exact hk hunmet
      refine (part_setIfInBounds p (by rwa [hr.size])).trans ?_
      rw [if_neg hne]
    have hset : ∀ p q,
        ({ r with parts := r.parts.setIfInBounds n p, queue := q } : Reader).part n = p := by
      intro p q
      refine (part_setIfInBounds p (by rwa [hr.size])).trans ?_
      rw [if_pos rfl]
    by_cases hleaf : r.nodes.IsLeaf n
    · obtain ⟨tag, text, ha⟩ := hleaf
      obtain ⟨htag, hscalar⟩ := scalarOf_leaf h rfl ha
      have hready := hr.setLeaf ⟨tag, text, ha⟩ hunmet
      rw [settled_leaf ha] at hready
      refine ⟨_, ?_, hready, hkeeps _ r.queue, by rw [hset _ r.queue]; exact nofun⟩
      rw [if_pos htag, hscalar, run_bind_ok (run_liftM_ok _), run_setPart]
    · obtain ⟨hscalar, hcollection⟩ := isCollectionTag_of h hn hleaf
      rw [hscalar, if_neg (by decide), if_pos hcollection]
      refine ⟨_, ?_, hr.enqueue hn hleaf hunmet, hkeeps _ _, by rw [hset]; exact nofun⟩
      rw [run_bind_ok (run_setPart _)]
      rfl
  · refine ⟨r, ?_, hr, Keeps.refl r, hunmet⟩
    cases hpart : r.part n <;> first | rfl | exact absurd hpart hunmet

theorem run_meetAll (h : nodes.InOrder) (hr : Ready nodes done busy r) {ns : List Nat}
    (hns : ∀ n ∈ ns, n < nodes.size) :
    ∃ r', (meetAll ns).run r = .ok ((), r') ∧ Ready nodes done busy r' ∧ Keeps r r' ∧
      ∀ n ∈ ns, r'.part n ≠ .unmet := by
  induction ns generalizing r with
  | nil => exact ⟨r, rfl, hr, Keeps.refl r, List.forall_mem_nil _⟩
  | cons n rest ih =>
    rw [List.forall_mem_cons] at hns
    obtain ⟨r', hrun, hr', hkeeps, hmet⟩ := run_meet h hr hns.1
    obtain ⟨r'', hrun', hr'', hkeeps', hmet'⟩ := ih hr' hns.2
    refine ⟨r'', ?_, hr'', hkeeps.trans hkeeps', List.forall_mem_cons.mpr ⟨hkeeps'.met hmet, hmet'⟩⟩
    rw [meetAll, run_bind_ok hrun, hrun']

theorem run_key (h : nodes.InOrder) (hr : Ready nodes done busy r) (hleaf : nodes.IsLeaf n) :
    ∃ r', (key n).run r = .ok (nodes.scalarAt n, r') ∧ Ready nodes done busy r' ∧ Keeps r r' ∧
      r'.part n ≠ .unmet := by
  obtain ⟨r', hrun, hr', hkeeps, hmet⟩ := run_meet h hr (Ready.lt_of_leaf hleaf)
  have hget : (get : Step Reader).run r' = .ok (r', r') := rfl
  have hpart := hr'.leaf n hleaf hmet
  obtain ⟨tag, text, ha⟩ := hleaf
  rw [settled_leaf ha] at hpart
  refine ⟨r', ?_, hr', hkeeps, hmet⟩
  rw [key, run_bind_ok hrun, run_bind_ok hget, hpart]
  rfl

theorem run_fieldsOf (h : nodes.InOrder) (hr : Ready nodes done busy r) {pairs : List (Nat × Nat)}
    (hpairs : ∀ p ∈ pairs, nodes.IsLeaf p.1 ∧ p.2 < nodes.size) :
    ∃ r', (fieldsOf pairs).run r = .ok (pairs.map fun (k, v) => (nodes.scalarAt k, v), r') ∧
      Ready nodes done busy r' ∧ Keeps r r' ∧
      ∀ n ∈ pairs.flatMap fun (k, v) => [k, v], r'.part n ≠ .unmet := by
  induction pairs generalizing r with
  | nil => exact ⟨r, rfl, hr, Keeps.refl r, List.forall_mem_nil _⟩
  | cons p rest ih =>
    obtain ⟨k, v⟩ := p
    obtain ⟨⟨hleaf, hv⟩, hrest⟩ := List.forall_mem_cons.mp hpairs
    obtain ⟨r₁, hkey, hr₁, hkeeps₁, hmet₁⟩ := run_key h hr hleaf
    obtain ⟨r₂, hmeet, hr₂, hkeeps₂, hmet₂⟩ := run_meet h hr₁ hv
    obtain ⟨r₃, hfields, hr₃, hkeeps₃, hmet₃⟩ := ih hr₂ hrest
    refine ⟨r₃, ?_, hr₃, (hkeeps₁.trans hkeeps₂).trans hkeeps₃, ?_⟩
    · rw [fieldsOf, run_bind_ok hkey, run_bind_ok hmeet, run_bind_ok hfields]
      rfl
    · rw [List.flatMap_cons]
      refine List.forall_mem_append.mpr ⟨?_, hmet₃⟩
      simp [hkeeps₃.met (hkeeps₂.met hmet₁), hkeeps₃.met hmet₂]

/-! ## Nothing is merged -/

theorem tag_of_leaf (h : nodes.InOrder) (hleaf : nodes.IsLeaf n) :
    nodes.tagOf n ≠ .default ∧ nodes.tagOf n ≠ .merge := by
  obtain ⟨tag, text, ha⟩ := hleaf
  obtain ⟨s, hs⟩ := h n _ ha
  have hscalar := hs.scalar
  rw [Nodes.tagOf, ha.node_eq, Node.tag]
  constructor
  · rintro rfl
    exact absurd hscalar (by decide)
  · rintro rfl
    exact absurd hscalar (by decide)

theorem run_settleKeys (h : nodes.InOrder) {pairs : List (Nat × Nat)}
    (hpairs : ∀ p ∈ pairs, nodes.IsLeaf p.1 ∧ p.2 < nodes.size) :
    (Nodes.settleKeys pairs).run nodes = .ok ((), nodes) := by
  induction pairs with
  | nil => rfl
  | cons p rest ih =>
    obtain ⟨⟨hleaf, -⟩, hrest⟩ := List.forall_mem_cons.mp hpairs
    have hget : (get : Nodes.Step Nodes).run nodes = .ok (nodes, nodes) := rfl
    rw [Nodes.settleKeys, run_bind_ok hget, if_neg (tag_of_leaf h hleaf).1]
    exact ih hrest

/-- A mapping without merge keys stays as it is. -/
theorem run_merge (h : nodes.InOrder) {tag : Tag} {pairs : List (Nat × Nat)}
    (ha : nodes.Has n (.map tag pairs)) (count : Nat) :
    (Nodes.merge count n).run nodes = .ok (pairs, nodes) := by
  obtain ⟨-, hpairs⟩ := h n _ ha
  have hpairsOf : (Nodes.pairsOf n).run nodes = .ok (pairs, nodes) := by
    have hsome : nodes.pairs? n = some pairs := by rw [Nodes.pairs?, ha.node_eq]
    have hget : (get : Nodes.Step Nodes).run nodes = .ok (nodes, nodes) := rfl
    rw [Nodes.pairsOf, run_bind_ok hget, hsome]
    rfl
  have hnone : pairs.find? (fun (key, _) => nodes.tagOf key == .merge) = none := by
    rw [List.find?_eq_none]
    intro p hp
    simpa using (tag_of_leaf h (hpairs p hp).1).2
  have hwithin : (Nodes.mergeWithin (count + 1) n).run nodes = .ok ((), nodes) := by
    have hget : (get : Nodes.Step Nodes).run nodes = .ok (nodes, nodes) := rfl
    rw [Nodes.mergeWithin, run_bind_ok hpairsOf, run_bind_ok (run_settleKeys h hpairs),
      run_bind_ok hget]
    simp only [hnone]
    rfl
  rw [Nodes.merge, run_bind_ok hwithin, hpairsOf]

theorem run_mergedFields (h : nodes.InOrder) (hr : Ready nodes done busy r) {tag : Tag}
    {pairs : List (Nat × Nat)} (ha : nodes.Has n (.map tag pairs)) :
    ∃ r', (mergedFields n).run r = .ok (pairs.map fun (k, v) => (nodes.scalarAt k, v), r') ∧
      Ready nodes done busy r' ∧ Keeps r r' ∧
      ∀ n ∈ pairs.flatMap fun (k, v) => [k, v], r'.part n ≠ .unmet := by
  obtain rfl := hr.nodes_eq
  have hget : (get : Step Reader).run r = .ok (r, r) := rfl
  have hmerge := run_merge h ha r.merges
  have hsame :
      (modify fun s : Reader => { s with nodes := r.nodes } : Step Unit).run r = .ok ((), r) := rfl
  obtain ⟨r', hfields, hrest⟩ := run_fieldsOf h hr (h n _ ha).2
  refine ⟨r', ?_, hrest⟩
  rw [mergedFields, run_bind_ok hget, run_bind_ok hget, hmerge, run_bind_ok (run_liftM_ok _)]
  dsimp only
  rw [run_bind_ok hsame, hfields]

/-! ## Turns -/

/-- The end of a turn. -/
theorem Ready.finish (hr : Ready nodes done [n] r)
    (hparts : ∀ k ∈ nodes.partsOf n, r.part k ≠ .unmet) :
    Ready nodes (done ++ [n]) [] { r with parts := r.parts.setIfInBounds n (nodes.settled n) } := by
  obtain ⟨hlt, hnot, -⟩ := hr.known n (by simp)
  have hpart : ∀ k,
      ({ r with parts := r.parts.setIfInBounds n (nodes.settled n) } : Reader).part k =
        if k = n then nodes.settled n else r.part k :=
    fun k => part_setIfInBounds _ (by rwa [hr.size])
  have hsettled : nodes.settled n ≠ .unmet := by
    obtain ⟨a, ha⟩ := Nodes.exists_node hlt
    rw [Nodes.settled, ha.node_eq]
    cases a <;> exact nofun
  have hmet : ∀ k, r.part k ≠ .unmet →
      ({ r with parts := r.parts.setIfInBounds n (nodes.settled n) } : Reader).part k ≠ .unmet := by
    intro k hk
    rw [hpart]
    split_ifs
    · exact hsettled
    · exact hk
  have hassoc : done ++ [n] ++ ([] ++ r.queue) = done ++ ([n] ++ r.queue) := by simp
  refine ⟨hr.nodes_eq, by simp [hr.size], ?_, ?_, ?_, ?_, ?_⟩
  · intro k hk hmetk
    have hne : k ≠ n := by
      rintro rfl
      exact hnot hk
    rw [hpart, if_neg hne] at hmetk ⊢
    exact hr.leaf k hk hmetk
  · intro k hk hleaf hmetk
    rw [hassoc]
    by_cases heq : k = n
    · simp [heq]
    · rw [hpart, if_neg heq] at hmetk
      exact hr.waits k hk hleaf hmetk
  · rw [hassoc]
    exact hr.nodup
  · intro k hk
    rw [hassoc] at hk
    obtain ⟨hsize, hleaf, hmetk⟩ := hr.known k hk
    exact ⟨hsize, hleaf, hmet k hmetk⟩
  · intro k hk
    rw [hpart]
    by_cases heq : k = n
    · subst heq
      exact ⟨if_pos rfl, fun j hj => hmet j (hparts j hj)⟩
    · have hk : k ∈ done := by simpa [heq] using hk
      obtain ⟨hdone, hpartsk⟩ := hr.finished k hk
      rw [if_neg heq]
      exact ⟨hdone, fun j hj => hmet j (hpartsk j hj)⟩

/-- When its parts have been met, a node is settled. -/
theorem run_setPart_settled {p : Part} (hr : Ready nodes done [n] r) (hp : nodes.settled n = p)
    (hparts : ∀ k ∈ nodes.partsOf n, r.part k ≠ .unmet) :
    ∃ r', (setPart n p).run r = .ok ((), r') ∧ Ready nodes (done ++ [n]) [] r' ∧
      ∀ k, r.part k ≠ .unmet → r'.part k ≠ .unmet := by
  subst hp
  obtain ⟨hlt, -, -⟩ := hr.known n (by simp)
  refine ⟨_, run_setPart _, hr.finish hparts, fun k hk => ?_⟩
  rw [part_setIfInBounds (r := r) (k := k) (nodes.settled n) (by rwa [hr.size])]
  split_ifs
  · rw [Nodes.settled]
    cases nodes.node n <;> exact nofun
  · exact hk

/-- **A collection is looked into.** -/
theorem run_lookInto (h : nodes.InOrder) (hr : Ready nodes done [n] r) :
    ∃ r', (lookInto n).run r = .ok ((), r') ∧ Ready nodes (done ++ [n]) [] r' ∧
      ∀ k, r.part k ≠ .unmet → r'.part k ≠ .unmet := by
  obtain ⟨hlt, hnot, -⟩ := hr.known n (by simp)
  obtain ⟨a, ha⟩ := Nodes.exists_node hlt
  have hget : (get : Step Reader).run r = .ok (r, r) := rfl
  rw [lookInto, run_bind_ok hget, hr.nodes_eq, ha.node_eq]
  cases a with
  | scalar tag text => exact absurd ⟨tag, text, ha⟩ hnot
  | seq tag items =>
    obtain ⟨rfl, hitems⟩ := h n _ ha
    obtain ⟨r', hrun, hr', hkeeps, hall⟩ := run_meetAll h hr hitems
    have hsettled : nodes.settled n = .list items := by rw [Nodes.settled, ha.node_eq]
    have hparts : nodes.partsOf n = items := by rw [Nodes.partsOf, ha.node_eq]
    obtain ⟨r'', hset, hready, hkept⟩ := run_setPart_settled hr' hsettled (by rwa [hparts])
    refine ⟨r'', ?_, hready, fun k hk => hkept k (hkeeps.met hk)⟩
    dsimp only
    rw [run_bind_ok hrun, hset]
  | map tag pairs =>
    obtain ⟨rfl, -⟩ := h n _ ha
    obtain ⟨r', hrun, hr', hkeeps, hall⟩ := run_mergedFields h hr ha
    have hsettled : nodes.settled n = .map (pairs.map fun (k, v) => (nodes.scalarAt k, v)) := by
      rw [Nodes.settled, ha.node_eq]
    have hparts : nodes.partsOf n = pairs.flatMap fun (k, v) => [k, v] := by
      rw [Nodes.partsOf, ha.node_eq]
    obtain ⟨r'', hset, hready, hkept⟩ := run_setPart_settled hr' hsettled (by rwa [hparts])
    refine ⟨r'', ?_, hready, fun k hk => hkept k (hkeeps.met hk)⟩
    dsimp only
    rw [run_bind_ok hrun, hset]

/-- Beginning a turn. -/
theorem Ready.take {rest : List Nat} (hr : Ready nodes done [] r) (hqueue : r.queue = n :: rest) :
    Ready nodes done [n] { r with queue := rest } := by
  have hsame : done ++ ([n] ++ rest) = done ++ ([] ++ r.queue) := by simp [hqueue]
  refine ⟨hr.nodes_eq, hr.size, hr.leaf, ?_, ?_, ?_, hr.finished⟩
  · intro k
    rw [hsame]
    exact hr.waits k
  · rw [hsame]
    exact hr.nodup
  · intro k
    rw [hsame]
    exact hr.known k

/-- There are no more turns than nodes. -/
theorem Ready.length_le (hr : Ready nodes done busy r) :
    (done ++ (busy ++ r.queue)).length ≤ nodes.size := by
  have hsub : done ++ (busy ++ r.queue) ⊆ List.range nodes.size := by
    intro k hk
    exact List.mem_range.mpr (hr.known k hk).1
  have hle := (List.subperm_of_subset hr.nodup hsub).length_le
  rwa [List.length_range] at hle

/-- **All collections are looked into** that have been met or come to be met. -/
theorem lookIntoAll_settles (h : nodes.InOrder) (hr : Ready nodes done [] r) {fuel : Nat}
    (hfuel : nodes.size ≤ fuel + done.length) :
    ∃ r' done', (lookIntoAll fuel).run r = .ok ((), r') ∧ Ready nodes done' [] r' ∧ r'.queue = [] ∧
      ∀ k, r.part k ≠ .unmet → r'.part k ≠ .unmet := by
  induction fuel generalizing r done with
  | zero =>
    have hle := hr.length_le
    simp only [List.length_append, List.length_nil] at hle
    exact ⟨r, done, rfl, hr, List.length_eq_zero_iff.mp (by omega), fun _ hk => hk⟩
  | succ fuel ih =>
    have hget : (get : Step Reader).run r = .ok (r, r) := rfl
    rw [lookIntoAll, run_bind_ok hget]
    cases hqueue : r.queue with
    | nil => exact ⟨r, done, rfl, hr, hqueue, fun _ hk => hk⟩
    | cons n rest =>
      have hrest : (modify fun r : Reader => { r with queue := rest } : Step Unit).run r =
          .ok ((), { r with queue := rest }) := rfl
      obtain ⟨r₁, hlook, hr₁, hmet₁⟩ := run_lookInto h (hr.take hqueue)
      obtain ⟨r₂, done₂, hall, hr₂, hempty, hmet₂⟩ := ih hr₁ (by simp; omega)
      refine ⟨r₂, done₂, ?_, hr₂, hempty, fun k hk => hmet₂ k (hmet₁ k hk)⟩
      dsimp only
      rw [run_bind_ok hrest, run_bind_ok hlook, hall]

/-- In the end every node that has been met is settled, and its parts have been met. -/
theorem Ready.settled (hr : Ready nodes done [] r) (hqueue : r.queue = []) (hn : n < nodes.size)
    (hmet : r.part n ≠ .unmet) :
    r.part n = nodes.settled n ∧ ∀ k ∈ nodes.partsOf n, r.part k ≠ .unmet := by
  by_cases hleaf : nodes.IsLeaf n
  · refine ⟨hr.leaf n hleaf hmet, ?_⟩
    obtain ⟨tag, text, ha⟩ := hleaf
    simp [Nodes.partsOf, ha.node_eq]
  · have hdone := hr.waits n hn hleaf hmet
    rw [hqueue, List.append_nil, List.append_nil] at hdone
    exact hr.finished n hdone

/-- Nothing has been met at the beginning. -/
theorem ready_start (nodes : Array Node) (root : Option Nat) (first : Nat) :
    Ready nodes [] [] (.start ⟨nodes, root⟩ first) := by
  have hunmet : ∀ n, (Reader.start ⟨nodes, root⟩ first).part n = .unmet := by
    intro n
    simp only [part, Reader.start, Array.getD_eq_getD_getElem?, Array.getElem?_replicate]
    split_ifs <;> rfl
  refine ⟨rfl, by simp [Reader.start], ?_, ?_, List.nodup_nil, ?_, ?_⟩
  · intro n _ hmet
    exact absurd (hunmet n) hmet
  · intro n _ _ hmet
    exact absurd (hunmet n) hmet
  · intro n hn
    simp [Reader.start] at hn
  · exact List.forall_mem_nil _

end Reader

end Yaml

end StepLoom
