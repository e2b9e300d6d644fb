import StepLoom.Graph
import StepLoom.Proofs.Distinct
import Mathlib.Data.List.Nodup
import Mathlib.Logic.Relation

/-!
# The nodes of a graph

A graph is a list of nodes, looked up by their ids. This file says what each way to change a graph
does to what is looked up, and what it means for a graph to be *well formed*: ids are unique, no
node is named twice among the edges of another, and every edge is recorded at both ends.

Most proofs look at a node without the list of those that wait for it (`Graph.look`). That list only
matters for the order of the nodes, and well-formedness recovers it from the other end of the edges.
-/

namespace StepLoom

/-- A node without the list of those that wait for it. -/
def Node.bare (n : Node) : Node := { n with after := [] }

namespace Graph

variable {g : Graph}

/-- The ids of the nodes, in the order in which the nodes were added. -/
def ids (g : Graph) : List String := g.nodes.map (·.id)

/-- The node under an id, without those that wait for it. -/
def look (g : Graph) (x : String) : Option Node := (g.find? x).map Node.bare

/-- `x` waits for `y`. -/
def Waits (g : Graph) (x y : String) : Prop := ∃ n, g.find? x = some n ∧ y ∈ n.before

/-- `x` is recorded at `y` as waiting for it. -/
def Frees (g : Graph) (y x : String) : Prop := ∃ n, g.find? y = some n ∧ x ∈ n.after

/-- Ids are unique, and edges are recorded once and at both ends. -/
structure WellFormed (g : Graph) : Prop where
  ids_nodup : g.ids.Nodup
  linked : ∀ x y, g.Waits x y ↔ g.Frees y x
  before_nodup : ∀ n ∈ g.nodes, n.before.Nodup
  after_nodup : ∀ n ∈ g.nodes, n.after.Nodup

/-! ## Looking up -/

theorem id_of_find? {x : String} {n : Node} (h : g.find? x = some n) : n.id = x := by
  simpa using List.find?_some h

theorem mem_of_find? {x : String} {n : Node} (h : g.find? x = some n) : n ∈ g.nodes :=
  List.mem_of_find?_eq_some h

theorem has_iff {x : String} : g.has x ↔ ∃ n, g.find? x = some n := Option.isSome_iff_exists

theorem has_iff_look {x : String} : g.has x ↔ ∃ n, g.look x = some n := by
  rw [has_iff]
  constructor
  · rintro ⟨n, hn⟩
    exact ⟨n.bare, by rw [look, hn]; rfl⟩
  · rintro ⟨n, hn⟩
    obtain ⟨m, hm, -⟩ := Option.map_eq_some_iff.mp hn
    exact ⟨m, hm⟩

theorem not_has_iff {x : String} : ¬ g.has x ↔ g.find? x = none := by
  rw [has, Option.not_isSome_iff_eq_none]

theorem look_eq_none {x : String} (h : ¬ g.has x) : g.look x = none := by
  rw [look, not_has_iff.mp h, Option.map_none]

theorem look_of_find? {x : String} {n : Node} (h : g.find? x = some n) :
    g.look x = some n.bare := by
  rw [look, h, Option.map_some]

theorem has_iff_mem_ids {x : String} : g.has x ↔ x ∈ g.ids := by
  rw [has, find?, List.find?_isSome, ids, List.mem_map]
  simp

theorem waits_iff_look {x y : String} : g.Waits x y ↔ ∃ n, g.look x = some n ∧ y ∈ n.before := by
  constructor
  · rintro ⟨n, hn, hy⟩
    exact ⟨n.bare, by rw [look, hn]; rfl, hy⟩
  · rintro ⟨n, hn, hy⟩
    obtain ⟨m, hm, rfl⟩ := Option.map_eq_some_iff.mp hn
    exact ⟨m, hm, hy⟩

theorem Waits.has {x y : String} (h : g.Waits x y) : g.has x :=
  has_iff.mpr ⟨h.choose, h.choose_spec.1⟩

/-- What a node waits for is in the graph. -/
theorem WellFormed.has_of_waits (hg : g.WellFormed) {x y : String} (h : g.Waits x y) : g.has y := by
  obtain ⟨n, hn, -⟩ := (hg.linked x y).mp h
  exact has_iff.mpr ⟨n, hn⟩

theorem WellFormed.find?_of_mem (hg : g.WellFormed) {n : Node} (h : n ∈ g.nodes) :
    g.find? n.id = some n := by
  obtain ⟨m, hm⟩ := has_iff.mp (has_iff_mem_ids.mpr (List.mem_map_of_mem h))
  rw [hm, List.inj_on_of_nodup_map hg.ids_nodup (mem_of_find? hm) h (id_of_find? hm)]

theorem wellFormed_empty : WellFormed {} where
  ids_nodup := List.nodup_nil
  linked x y := by simp [Waits, Frees, find?]
  before_nodup n h := by simp at h
  after_nodup n h := by simp at h

/-! ## Changing a node -/

@[simp] theorem find?_update {x y : String} {f : Node → Node} (hf : ∀ n, (f n).id = n.id) :
    (g.update x f).find? y = (g.find? y).map fun n => if y = x then f n else n := by
  unfold find? update
  rw [List.find?_map]
  have hp : ((fun n : Node => n.id == y) ∘ fun n => if n.id = x then f n else n) =
      fun n => n.id == y := by
    funext n
    simp only [Function.comp]
    split_ifs
    · rw [hf]
    · rfl
  rw [hp]
  cases h : g.nodes.find? fun n => n.id == y with
  | none => rfl
  | some n =>
    have hn : n.id = y := by simpa using List.find?_some h
    simp [hn]

theorem find?_map {x : String} {f : Node → Node} (hf : ∀ n, (f n).id = n.id) :
    find? ⟨g.nodes.map f⟩ x = (g.find? x).map f := by
  have hid : ((fun n : Node => n.id == x) ∘ f) = fun n => n.id == x := by
    funext n
    rw [Function.comp, hf]
  rw [find?, List.find?_map, hid, find?]

theorem ids_update {x : String} {f : Node → Node} (hf : ∀ n, (f n).id = n.id) :
    (g.update x f).ids = g.ids := by
  unfold ids update
  rw [List.map_map]
  refine List.map_congr_left fun n _ => ?_
  simp only [Function.comp]
  split_ifs
  · exact hf n
  · rfl

theorem has_update {x y : String} {f : Node → Node} (hf : ∀ n, (f n).id = n.id) :
    (g.update x f).has y = g.has y := by
  rw [has, find?_update hf, Option.isSome_map, has]

/-- Replacing the content of one node is a change of the contents of all. -/
theorem update_content {x : String} {content : Value} :
    g.update x (fun n => { n with content }) =
      ⟨g.nodes.map fun n => { n with content := if n.id = x then content else n.content }⟩ := by
  rw [update]
  congr 2
  funext n
  split_ifs <;> rfl

theorem mem_update {x : String} {f : Node → Node} {m : Node} (h : m ∈ (g.update x f).nodes) :
    ∃ n ∈ g.nodes, m = if n.id = x then f n else n := by
  obtain ⟨n, hn, rfl⟩ := List.mem_map.mp h
  exact ⟨n, hn, rfl⟩

/-- A change of a node that leaves its id and its edges alone. -/
structure Inner (f : Node → Node) : Prop where
  id : ∀ n, (f n).id = n.id
  before : ∀ n, (f n).before = n.before
  after : ∀ n, (f n).after = n.after

theorem waits_update_inner {x a b : String} {f : Node → Node} (hf : Inner f) :
    (g.update x f).Waits a b ↔ g.Waits a b := by
  unfold Waits
  rw [find?_update hf.id]
  cases g.find? a with
  | none => simp
  | some n => by_cases h : a = x <;> simp [h, hf.before]

theorem frees_update_inner {x a b : String} {f : Node → Node} (hf : Inner f) :
    (g.update x f).Frees a b ↔ g.Frees a b := by
  unfold Frees
  rw [find?_update hf.id]
  cases g.find? a with
  | none => simp
  | some n => by_cases h : a = x <;> simp [h, hf.after]

theorem WellFormed.update_inner (hg : g.WellFormed) {x : String} {f : Node → Node} (hf : Inner f) :
    (g.update x f).WellFormed where
  ids_nodup := by rw [ids_update hf.id]; exact hg.ids_nodup
  linked a b := by rw [waits_update_inner hf, frees_update_inner hf, hg.linked]
  before_nodup n h := by
    obtain ⟨m, hm, rfl⟩ := mem_update h
    split_ifs
    · rw [hf.before]; exact hg.before_nodup m hm
    · exact hg.before_nodup m hm
  after_nodup n h := by
    obtain ⟨m, hm, rfl⟩ := mem_update h
    split_ifs
    · rw [hf.after]; exact hg.after_nodup m hm
    · exact hg.after_nodup m hm

theorem look_update {x y : String} {f : Node → Node} (hf : ∀ n, (f n).id = n.id)
    (hb : ∀ n, (f n).bare = f n.bare) :
    (g.update x f).look y = (g.look y).map fun n => if y = x then f n else n := by
  rw [look, look, find?_update hf, Option.map_map, Option.map_map]
  congr 1
  funext n
  simp only [Function.comp]
  split_ifs
  · exact hb n
  · rfl

/-! ## Adding an edge -/

/-- The graph with an edge from `x` to what it waits for, `y`. -/
def link (x y : String) (g : Graph) : Graph :=
  (g.update x fun n => { n with before := addOnce y n.before }).update y
    fun n => { n with after := addOnce x n.after }

theorem find?_link {x y z : String} : (g.link x y).find? z = (g.find? z).map fun n =>
    { n with
      before := if z = x then addOnce y n.before else n.before
      after := if z = y then addOnce x n.after else n.after } := by
  rw [link, find?_update (by intro; rfl), find?_update (by intro; rfl), Option.map_map]
  congr 1
  funext n
  simp only [Function.comp]
  split_ifs <;> rfl

@[simp] theorem look_link {x y z : String} : (g.link x y).look z = (g.look z).map fun n =>
    if z = x then { n with before := addOnce y n.before } else n := by
  rw [look, look, find?_link, Option.map_map, Option.map_map]
  congr 1
  funext n
  simp only [Function.comp, Node.bare]
  split_ifs <;> rfl

@[simp] theorem ids_link {x y : String} : (g.link x y).ids = g.ids := by
  rw [link, ids_update (by intro; rfl), ids_update (by intro; rfl)]

@[simp] theorem has_link {x y z : String} : (g.link x y).has z = g.has z := by
  rw [has, find?_link, Option.isSome_map, has]

theorem waits_link {x y a b : String} (hx : g.has x) :
    (g.link x y).Waits a b ↔ g.Waits a b ∨ a = x ∧ b = y := by
  unfold Waits
  rw [find?_link]
  obtain ⟨m, hm⟩ := has_iff.mp hx
  cases h : g.find? a with
  | none =>
    have hne : a ≠ x := fun e => by simp [e, hm] at h
    simp [hne]
  | some n => by_cases hax : a = x <;> simp [hax]

theorem frees_link {x y a b : String} (hy : g.has y) :
    (g.link x y).Frees a b ↔ g.Frees a b ∨ a = y ∧ b = x := by
  unfold Frees
  rw [find?_link]
  obtain ⟨m, hm⟩ := has_iff.mp hy
  cases h : g.find? a with
  | none =>
    have hne : a ≠ y := fun e => by simp [e, hm] at h
    simp [hne]
  | some n => by_cases hay : a = y <;> simp [hay]

theorem WellFormed.link (hg : g.WellFormed) {x y : String} (hx : g.has x) (hy : g.has y) :
    (g.link x y).WellFormed where
  ids_nodup := by rw [ids_link]; exact hg.ids_nodup
  linked a b := by
    rw [waits_link hx, frees_link hy, hg.linked]
    tauto
  before_nodup n h := by
    obtain ⟨m, hm, rfl⟩ := mem_update h
    obtain ⟨k, hk, rfl⟩ := mem_update hm
    have hn := hg.before_nodup k hk
    split_ifs <;> first | exact nodup_addOnce hn | exact hn
  after_nodup n h := by
    obtain ⟨m, hm, rfl⟩ := mem_update h
    obtain ⟨k, hk, rfl⟩ := mem_update hm
    have hn := hg.after_nodup k hk
    split_ifs <;> first | exact nodup_addOnce hn | exact hn

/-- The graph with an edge from `x` to each of some nodes. -/
def linkAll (x : String) (ys : List String) (g : Graph) : Graph :=
  ys.foldl (fun g y => g.link x y) g

@[simp] theorem linkAll_nil {x : String} : g.linkAll x [] = g := rfl

@[simp] theorem linkAll_cons {x y : String} {ys : List String} :
    g.linkAll x (y :: ys) = (g.link x y).linkAll x ys := rfl

@[simp] theorem has_linkAll {x z : String} {ys : List String} :
    (g.linkAll x ys).has z = g.has z := by
  induction ys generalizing g with
  | nil => rfl
  | cons y ys ih => rw [linkAll_cons, ih, has_link]

theorem look_linkAll {x z : String} {ys : List String} :
    (g.linkAll x ys).look z = (g.look z).map fun n =>
      if z = x then { n with before := addAll n.before ys } else n := by
  induction ys generalizing g with
  | nil =>
    rw [linkAll_nil]
    cases g.look z <;> simp
  | cons y ys ih =>
    rw [linkAll_cons, ih, look_link, Option.map_map]
    congr 1
    funext n
    simp only [Function.comp, addAll_cons]
    split_ifs <;> rfl

theorem WellFormed.linkAll {x : String} {ys : List String} (hg : g.WellFormed) (hx : g.has x)
    (hys : ∀ y ∈ ys, g.has y) : (g.linkAll x ys).WellFormed := by
  induction ys generalizing g with
  | nil => exact hg
  | cons y ys ih =>
    refine ih (hg.link hx (hys y (by simp))) (by simpa using hx) fun z hz => ?_
    simpa using hys z (List.mem_cons_of_mem y hz)

/-! ## Adding a node -/

/-- The graph with one more node, which has no edges yet. -/
def insert (n : Node) (g : Graph) : Graph := ⟨g.nodes ++ [n]⟩

theorem find?_insert {n : Node} {x : String} (h : ¬ g.has n.id) :
    (g.insert n).find? x = if x = n.id then some n else g.find? x := by
  rw [find?, insert, List.find?_append]
  change (g.find? x).or _ = _
  by_cases hx : x = n.id
  · subst hx
    simp [not_has_iff.mp h]
  · rw [if_neg hx, List.find?_cons_of_neg (by simpa using Ne.symm hx)]
    simp

theorem look_insert {n : Node} {x : String} (h : ¬ g.has n.id) :
    (g.insert n).look x = if x = n.id then some n.bare else g.look x := by
  rw [look, find?_insert h]
  split_ifs <;> rfl

theorem has_insert {n : Node} {x : String} (h : ¬ g.has n.id) :
    (g.insert n).has x ↔ g.has x ∨ x = n.id := by
  rw [has, find?_insert h]
  by_cases hx : x = n.id <;> simp [hx, has]

theorem WellFormed.insert (hg : g.WellFormed) {n : Node} (h : ¬ g.has n.id) (hb : n.before = [])
    (ha : n.after = []) : (g.insert n).WellFormed where
  ids_nodup := by
    rw [ids, Graph.insert, List.map_append, List.map_singleton]
    refine List.nodup_append.mpr ⟨hg.ids_nodup, by simp, fun x hx y hy => ?_⟩
    rintro rfl
    rw [List.mem_singleton] at hy
    exact h (has_iff_mem_ids.mpr (hy ▸ hx))
  linked a b := by
    have hw : (g.insert n).Waits a b ↔ g.Waits a b := by
      unfold Waits
      rw [find?_insert h]
      by_cases e : a = n.id
      · simp [e, hb, not_has_iff.mp h]
      · simp [e]
    have hf : (g.insert n).Frees b a ↔ g.Frees b a := by
      unfold Frees
      rw [find?_insert h]
      by_cases e : b = n.id
      · simp [e, ha, not_has_iff.mp h]
      · simp [e]
    rw [hw, hf, hg.linked]
  before_nodup m hm := by
    rcases List.mem_append.mp hm with hm | hm
    · exact hg.before_nodup m hm
    · rw [List.mem_singleton.mp hm, hb]; exact List.nodup_nil
  after_nodup m hm := by
    rcases List.mem_append.mp hm with hm | hm
    · exact hg.after_nodup m hm
    · rw [List.mem_singleton.mp hm, ha]; exact List.nodup_nil

end Graph

end StepLoom
