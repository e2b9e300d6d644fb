import StepLoom.Graph.Order
import StepLoom.Proofs.Graph.Nodes
import Mathlib.Data.Fintype.Card
import Mathlib.Data.Fintype.EquivFin
import Mathlib.Data.Fintype.Sets
import Mathlib.Order.WellFounded

/-!
# The order of the nodes

**Theorem (`order_ok`).** An order lists every node of a well-formed graph once, each after all that
it waits for.

**Theorem (`order_error_iff`).** There is no order exactly when some node waits for itself in one or
more steps, and a cycle is then the only thing that is reported.

The sweep keeps the graph of the edges that are not yet used (`Sweeping`): they are the edges whose
target is not placed, and a node is placed or ready exactly when none of them starts at it. While
the edges of one node are used up, those to the remaining dependents are there as well
(`Releasing`).
-/

namespace StepLoom

namespace Graph

open Relation

variable {g : Graph} {x y z : String}

/-! ## Orders -/

/-- Each node of the list comes after all that it waits for; what is `done` came before. -/
def InOrder (g : Graph) : (done : List String) → List String → Prop
  | _, [] => True
  | done, x :: rest => (∀ y, g.Waits x y → y ∈ done) ∧ InOrder g (x :: done) rest

theorem inOrder_snoc {done xs : List String} : g.InOrder done (xs ++ [x]) ↔
    g.InOrder done xs ∧ ∀ y, g.Waits x y → y ∈ done ∨ y ∈ xs := by
  induction xs generalizing done with
  | nil => simp [InOrder]
  | cons a xs ih =>
    rw [List.cons_append, InOrder, InOrder, ih, and_assoc]
    refine and_congr_right fun _ => and_congr_right fun _ => forall_congr' fun y => ?_
    simp only [List.mem_cons]
    tauto

/-- Of two nodes in order, the one that is waited for comes first. -/
theorem InOrder.sublist {done xs : List String} (h : g.InOrder done xs) (hx : x ∈ xs)
    (hw : g.Waits x y) : y ∈ done ∨ [y, x].Sublist xs := by
  induction xs generalizing done with
  | nil => cases hx
  | cons a xs ih =>
    rcases List.mem_cons.mp hx with rfl | hx'
    · exact Or.inl (h.1 y hw)
    · rcases ih h.2 hx' with hy | hy
      · rcases List.mem_cons.mp hy with rfl | hy
        · exact Or.inr (List.cons_sublist_cons.mpr (List.singleton_sublist.mpr hx'))
        · exact Or.inl hy
      · exact Or.inr (hy.cons a)

theorem idxOf_lt_of_sublist {xs : List String} (hnd : xs.Nodup) (h : [y, x].Sublist xs) :
    xs.idxOf y < xs.idxOf x := by
  induction xs with
  | nil => cases h
  | cons a xs ih =>
    obtain ⟨ha, hnd⟩ := List.nodup_cons.mp hnd
    have hne : ∀ {b}, b ∈ xs → a ≠ b := fun hb he => ha (he ▸ hb)
    cases h with
    | cons _ h =>
      have hy : a ≠ y := hne (h.subset (by simp))
      have hx : a ≠ x := hne (h.subset (by simp))
      rw [List.idxOf_cons_ne _ hy, List.idxOf_cons_ne _ hx]
      exact Nat.succ_lt_succ (ih hnd h)
    | cons_cons _ h =>
      rw [List.idxOf_cons_self, List.idxOf_cons_ne _ (hne (List.singleton_sublist.mp h))]
      exact Nat.succ_pos _

/-- What a node waits for, at once or through others, stands in front of it. -/
theorem InOrder.idxOf_lt {xs : List String} (h : g.InOrder [] xs) (hnd : xs.Nodup) (hx : x ∈ xs)
    (hw : TransGen g.Waits x y) : y ∈ xs ∧ xs.idxOf y < xs.idxOf x := by
  have hlt : ∀ {a b}, a ∈ xs → g.Waits a b → b ∈ xs ∧ xs.idxOf b < xs.idxOf a := by
    intro a b ha hab
    have hsub := (h.sublist ha hab).resolve_left (by simp)
    exact ⟨hsub.subset (by simp), idxOf_lt_of_sublist hnd hsub⟩
  induction hw with
  | single hw => exact hlt hx hw
  | tail _ hw ih =>
    obtain ⟨hmem, hidx⟩ := hlt ih.1 hw
    exact ⟨hmem, hidx.trans ih.2⟩

/-- Among nodes in order nothing waits for itself. -/
theorem InOrder.acyclic {xs : List String} (h : g.InOrder [] xs) (hnd : xs.Nodup) (hx : x ∈ xs) :
    ¬ TransGen g.Waits x x :=
  fun hcycle => Nat.lt_irrefl _ (h.idxOf_lt hnd hx hcycle).2

/-- Where every node of a nonempty part of the graph waits for another one, there is a cycle in this
part. -/
theorem WellFormed.exists_cycle (hg : g.WellFormed) {p : String → Prop} (hx : g.has x) (hp : p x)
    (h : ∀ a, g.has a → p a → ∃ b, g.Waits a b ∧ p b) :
    ∃ a, g.has a ∧ p a ∧ TransGen g.Waits a a := by
  by_contra hno
  push Not at hno
  let R : {a : {a // a ∈ g.ids} // p a} → {a : {a // a ∈ g.ids} // p a} → Prop :=
    fun a b => TransGen g.Waits b a
  have : IsTrans _ R := ⟨fun a b c hab hbc => TransGen.trans hbc hab⟩
  have : Std.Irrefl R := ⟨fun a ha => hno a (has_iff_mem_ids.mpr a.1.2) a.2 ha⟩
  have hwf : WellFounded R := Finite.wellFounded_of_trans_of_irrefl R
  obtain ⟨m, -, hmin⟩ := hwf.has_min Set.univ ⟨⟨⟨x, has_iff_mem_ids.mp hx⟩, hp⟩, trivial⟩
  obtain ⟨b, hwait, hb⟩ := h m (has_iff_mem_ids.mpr m.1.2) m.2
  exact hmin ⟨⟨b, has_iff_mem_ids.mp (hg.has_of_waits hwait)⟩, hb⟩ trivial (TransGen.single hwait)

/-! ## Using an edge up -/

/-- The graph without the edge from `x` to `y`. -/
def unlink (x y : String) (g : Graph) : Graph :=
  (g.update y fun n => { n with after := n.after.erase x }).update x
    fun n => { n with before := n.before.erase y }

theorem find?_unlink : (g.unlink x y).find? z = (g.find? z).map fun n =>
    { n with
      before := if z = x then n.before.erase y else n.before
      after := if z = y then n.after.erase x else n.after } := by
  rw [unlink, find?_update (by intro; rfl), find?_update (by intro; rfl), Option.map_map]
  congr 1
  funext n
  simp only [Function.comp]
  split_ifs <;> rfl

theorem ids_unlink : (g.unlink x y).ids = g.ids := by
  rw [unlink, ids_update (by intro; rfl), ids_update (by intro; rfl)]

theorem waits_unlink (hg : g.WellFormed) {a b : String} :
    (g.unlink x y).Waits a b ↔ g.Waits a b ∧ ¬ (a = x ∧ b = y) := by
  unfold Waits
  rw [find?_unlink]
  cases h : g.find? a with
  | none => simp
  | some n =>
    have hnd := hg.before_nodup n (mem_of_find? h)
    by_cases hax : a = x <;> simp [hax, hnd.mem_erase_iff, and_comm]

theorem frees_unlink (hg : g.WellFormed) {a b : String} :
    (g.unlink x y).Frees b a ↔ g.Frees b a ∧ ¬ (a = x ∧ b = y) := by
  unfold Frees
  rw [find?_unlink]
  cases h : g.find? b with
  | none => simp
  | some n =>
    have hnd := hg.after_nodup n (mem_of_find? h)
    by_cases hby : b = y <;> simp [hby, hnd.mem_erase_iff, and_comm]

theorem WellFormed.unlink (hg : g.WellFormed) : (g.unlink x y).WellFormed where
  ids_nodup := by rw [ids_unlink]; exact hg.ids_nodup
  linked a b := by rw [waits_unlink hg, frees_unlink hg, hg.linked]
  before_nodup n h := by
    obtain ⟨m, hm, rfl⟩ := mem_update h
    obtain ⟨k, hk, rfl⟩ := mem_update hm
    have hn := hg.before_nodup k hk
    split_ifs <;> first | exact hn.erase _ | exact hn
  after_nodup n h := by
    obtain ⟨m, hm, rfl⟩ := mem_update h
    obtain ⟨k, hk, rfl⟩ := mem_update hm
    have hn := hg.after_nodup k hk
    split_ifs <;> first | exact hn.erase _ | exact hn

/-! ## The sweep -/

/-- The sweep between two nodes. -/
structure Sweeping (g : Graph) (s : Sweep) : Prop where
  wf : s.rest.WellFormed
  ids : s.rest.ids = g.ids
  waits : ∀ x y, s.rest.Waits x y ↔ g.Waits x y ∧ y ∉ s.placed
  nodup : (s.placed ++ s.ready).Nodup
  free : ∀ x, x ∈ s.placed ++ s.ready ↔ g.has x ∧ ∀ y, ¬ s.rest.Waits x y
  ordered : g.InOrder [] s.placed

/-- The sweep while `id` is placed: the edges from `left` to it are not used yet. -/
structure Releasing (g : Graph) (id : String) (left : List String) (s : Sweep) : Prop where
  wf : s.rest.WellFormed
  ids : s.rest.ids = g.ids
  left_nodup : left.Nodup
  left_waits : ∀ x ∈ left, g.Waits x id
  waits : ∀ x y, s.rest.Waits x y ↔ g.Waits x y ∧ (y ∉ s.placed ∨ y = id ∧ x ∈ left)
  nodup : (s.placed ++ s.ready).Nodup
  free : ∀ x, x ∈ s.placed ++ s.ready ↔ g.has x ∧ ∀ y, ¬ s.rest.Waits x y
  ordered : g.InOrder [] s.placed

theorem sweeping_start (hg : g.WellFormed) : Sweeping g (Sweep.start g) where
  wf := hg
  ids := rfl
  waits x y := by simp [Sweep.start]
  nodup := (hg.ids_nodup.sublist ((List.filter_sublist).map _))
  free x := by
    rw [Sweep.start, List.nil_append, List.mem_map]
    constructor
    · rintro ⟨n, hn, rfl⟩
      rw [List.mem_filter, List.isEmpty_iff] at hn
      have hfind := hg.find?_of_mem hn.1
      refine ⟨has_iff.mpr ⟨n, hfind⟩, ?_⟩
      rintro y ⟨m, hm, hy⟩
      obtain rfl := Option.some.inj (hfind.symm.trans hm)
      simp [hn.2] at hy
    · rintro ⟨hx, hfree⟩
      obtain ⟨n, hn⟩ := has_iff.mp hx
      refine ⟨n, List.mem_filter.mpr ⟨mem_of_find? hn, ?_⟩, id_of_find? hn⟩
      rw [List.isEmpty_iff, List.eq_nil_iff_forall_not_mem]
      exact fun y hy => hfree y ⟨n, hn, hy⟩
  ordered := trivial

/-- Taking a ready node. -/
theorem Sweeping.take {s : Sweep} {id : String} {ready : List String} (h : Sweeping g s)
    (hready : s.ready = id :: ready) : ∃ n, s.rest.find? id = some n ∧
      Releasing g id n.after { s with ready, placed := s.placed ++ [id] } := by
  have hid : id ∈ s.placed ++ s.ready := by simp [hready]
  obtain ⟨hhas, hfree⟩ := (h.free id).mp hid
  have hhas' : s.rest.has id := by rw [has_iff_mem_ids, h.ids, ← has_iff_mem_ids]; exact hhas
  obtain ⟨n, hn⟩ := has_iff.mp hhas'
  have hnot : id ∉ s.placed := by
    have hnd := h.nodup
    rw [hready] at hnd
    exact fun hmem => List.disjoint_of_nodup_append hnd hmem (by simp)
  have hleft : ∀ x, x ∈ n.after ↔ g.Waits x id := by
    intro x
    have hw := h.waits x id
    rw [h.wf.linked, show s.rest.Frees id x ↔ x ∈ n.after by simp [Frees, hn]] at hw
    rw [hw]
    simp [hnot]
  have happend : s.placed ++ [id] ++ ready = s.placed ++ s.ready := by simp [hready]
  refine ⟨n, hn, h.wf, h.ids, h.wf.after_nodup n (mem_of_find? hn), fun x hx => (hleft x).mp hx,
    fun x y => ?_, by rw [happend]; exact h.nodup, fun x => by rw [happend]; exact h.free x, ?_⟩
  · rw [h.waits, hleft]
    refine and_congr_right fun hw => ?_
    rw [List.mem_append, List.mem_singleton]
    constructor
    · intro hy
      by_cases he : y = id
      · exact Or.inr ⟨he, he ▸ hw⟩
      · exact Or.inl (not_or.mpr ⟨hy, he⟩)
    · rintro (hy | ⟨rfl, -⟩)
      · exact fun hmem => hy (Or.inl hmem)
      · exact hnot
  · rw [inOrder_snoc]
    refine ⟨h.ordered, fun y hy => Or.inr ?_⟩
    by_contra hyp
    exact hfree y ((h.waits id y).mpr ⟨hy, hyp⟩)

/-- When all edges to the placed node are used, the sweep is between two nodes. -/
theorem Releasing.done {s : Sweep} {id : String} (h : Releasing g id [] s) : Sweeping g s where
  wf := h.wf
  ids := h.ids
  waits x y := by simp [h.waits]
  nodup := h.nodup
  free := h.free
  ordered := h.ordered

/-- Without the edge, the dependent no longer waits for the placed node. -/
theorem Releasing.waits_unlink {s : Sweep} {id d x y : String} {left : List String}
    (h : Releasing g id (d :: left) s) (hid : id ∈ s.placed) : (s.rest.unlink d id).Waits x y ↔
      g.Waits x y ∧ (y ∉ s.placed ∨ y = id ∧ x ∈ left) := by
  have hd : d ∉ left := (List.nodup_cons.mp h.left_nodup).1
  rw [Graph.waits_unlink h.wf, h.waits, and_assoc]
  refine and_congr_right fun _ => ?_
  by_cases hy : y = id
  · subst hy
    by_cases hx : x = d
    · subst hx
      simp [hid, hd]
    · simp [hid, hx]
  · simp [hy]

/-- A dependent becomes ready if it waits for nothing more. -/
theorem isEmpty_erase_iff {d : String} {n : Node} (hg : g.WellFormed) (hn : g.find? d = some n)
    (id : String) :
    (n.before.erase id).isEmpty ↔ ∀ y, ¬ (g.unlink d id).Waits d y := by
  have hnodup := hg.before_nodup n (mem_of_find? hn)
  rw [List.isEmpty_iff, List.eq_nil_iff_forall_not_mem]
  refine forall_congr' fun y => not_congr ?_
  rw [waits_unlink hg, hnodup.mem_erase_iff]
  simp [Waits, hn, and_comm]

/-- Using up one edge to the placed node. -/
theorem Releasing.release {s : Sweep} {id d : String} {left : List String}
    (h : Releasing g id (d :: left) s) (hid : id ∈ s.placed) : ∃ s', s.release id d = .ok s' ∧
      Releasing g id left s' ∧ s'.placed = s.placed := by
  have hwait : s.rest.Waits d id :=
    (h.waits d id).mpr ⟨h.left_waits d (by simp), Or.inr ⟨rfl, by simp⟩⟩
  obtain ⟨n, hn, hmem⟩ := hwait
  have hempty := isEmpty_erase_iff h.wf hn id
  have hnotfree : d ∉ s.placed ++ s.ready := fun hmem' => ((h.free d).mp hmem').2 id ⟨n, hn, hmem⟩
  have hsame : ∀ x, x ≠ d →
      ((∀ y, ¬ (s.rest.unlink d id).Waits x y) ↔ ∀ y, ¬ s.rest.Waits x y) := by
    intro x hx
    refine forall_congr' fun y => not_congr ?_
    rw [Graph.waits_unlink h.wf]
    simp [hx]
  have hhas : g.has d := by
    rw [has_iff_mem_ids, ← h.ids, ← has_iff_mem_ids]
    exact has_iff.mpr ⟨n, hn⟩
  refine ⟨{ s with
    rest := s.rest.unlink d id
    ready := if (n.before.erase id).isEmpty then s.ready ++ [d] else s.ready }, ?_, ?_, rfl⟩
  · rw [Sweep.release, hn]
    simp only [hmem, if_true]
    rfl
  · refine ⟨h.wf.unlink, ids_unlink.trans h.ids, (List.nodup_cons.mp h.left_nodup).2,
      fun x hx => h.left_waits x (List.mem_cons_of_mem d hx), fun x y => h.waits_unlink hid, ?_,
      fun x => ?_, h.ordered⟩
    · dsimp only
      split_ifs
      · rw [← List.append_assoc]
        refine List.nodup_append.mpr ⟨h.nodup, by simp, fun a ha b hb => ?_⟩
        rw [List.mem_singleton] at hb
        exact fun he => hnotfree (by rwa [← hb, ← he])
      · exact h.nodup
    · dsimp only
      by_cases hx : x = d
      · subst hx
        split_ifs with he
        · exact iff_of_true (by simp) ⟨hhas, hempty.mp he⟩
        · exact iff_of_false hnotfree fun hfree => he (hempty.mpr hfree.2)
      · rw [hsame x hx, ← h.free]
        split_ifs <;> simp [hx]

theorem Releasing.releaseAll {s : Sweep} {id : String} {left : List String}
    (h : Releasing g id left s) (hid : id ∈ s.placed) :
    ∃ s', s.releaseAll id left = .ok s' ∧ Sweeping g s' ∧ s'.placed = s.placed := by
  induction left generalizing s with
  | nil => exact ⟨s, rfl, h.done, rfl⟩
  | cons d left ih =>
    obtain ⟨s₁, hok, h₁, hp₁⟩ := h.release hid
    obtain ⟨s₂, hok₂, h₂, hp₂⟩ := ih h₁ (hp₁ ▸ hid)
    refine ⟨s₂, ?_, h₂, hp₂.trans hp₁⟩
    rw [Sweep.releaseAll, hok]
    exact hok₂

theorem Sweeping.length_le {s : Sweep} (h : Sweeping g s) :
    (s.placed ++ s.ready).length ≤ g.nodes.length := by
  have hsub : (s.placed ++ s.ready) ⊆ g.ids :=
    fun x hx => has_iff_mem_ids.mp ((h.free x).mp hx).1
  have hlen : g.ids.length = g.nodes.length := List.length_map _
  exact hlen ▸ (h.nodup.subperm hsub).length_le

/-- The sweep goes on until nothing is ready. -/
theorem Sweeping.run {s : Sweep} {fuel : Nat} (h : Sweeping g s)
    (hfuel : g.nodes.length ≤ s.placed.length + fuel) :
    ∃ s', s.run fuel = .ok s' ∧ Sweeping g s' ∧ s'.ready = [] := by
  induction fuel generalizing s with
  | zero =>
    have hle := h.length_le
    rw [List.length_append] at hle
    exact ⟨s, rfl, h, List.length_eq_zero_iff.mp (by omega)⟩
  | succ fuel ih =>
    cases hready : s.ready with
    | nil => exact ⟨s, by rw [Sweep.run, hready], h, hready⟩
    | cons id ready =>
      obtain ⟨n, hn, htake⟩ := h.take hready
      obtain ⟨s₁, hok, h₁, hp₁⟩ := htake.releaseAll (by simp)
      obtain ⟨s₂, hok₂, h₂, hr₂⟩ := ih h₁ (by rw [hp₁, List.length_append]; simp; omega)
      refine ⟨s₂, ?_, h₂, hr₂⟩
      rw [Sweep.run, hready]
      simp only [hn, hok]
      exact hok₂

/-- When nothing is ready, a node that is not placed waits for another one that is not. -/
theorem Sweeping.exists_unplaced {s : Sweep} (h : Sweeping g s) (hready : s.ready = [])
    (hx : g.has x) (hp : x ∉ s.placed) : ∃ y, g.Waits x y ∧ y ∉ s.placed := by
  by_contra hno
  push Not at hno
  apply hp
  have hfree := h.free x
  rw [hready, List.append_nil] at hfree
  refine hfree.mpr ⟨hx, fun y hy => ?_⟩
  obtain ⟨hw, hy'⟩ := (h.waits x y).mp hy
  exact hy' (hno y hw)

theorem edges_isEmpty_iff : g.edges.isEmpty ↔ ∀ n ∈ g.nodes, n.after = [] := by
  rw [List.isEmpty_iff, edges, List.flatMap_eq_nil_iff]
  simp

/-- No edge is left when no node waits. -/
theorem WellFormed.edges_isEmpty (hg : g.WellFormed) : g.edges.isEmpty ↔ ∀ x y, ¬ g.Waits x y := by
  rw [edges_isEmpty_iff]
  constructor
  · intro h x y hw
    obtain ⟨n, hn, hx⟩ := (hg.linked x y).mp hw
    rw [h n (mem_of_find? hn)] at hx
    cases hx
  · intro h n hn
    rw [List.eq_nil_iff_forall_not_mem]
    exact fun x hx => h x n.id ((hg.linked x n.id).mpr ⟨n, hg.find?_of_mem hn, hx⟩)

/-- **An order is complete and right, and it is missing only if there is a cycle.** -/
theorem order_cases (hg : g.WellFormed) :
    (∃ xs, g.order = .ok xs ∧ xs.Nodup ∧ (∀ x, x ∈ xs ↔ g.has x) ∧ g.InOrder [] xs) ∨
      ∃ edges, g.order = .error (.cycle edges) ∧ ∃ x, g.has x ∧ TransGen g.Waits x x := by
  have hfuel : g.nodes.length ≤ (Sweep.start g).placed.length + g.nodes.length := by simp
  obtain ⟨s, hok, h, hready⟩ := (sweeping_start hg).run hfuel
  have hfree := h.free
  have hnd := h.nodup
  rw [hready, List.append_nil] at hnd
  simp only [hready, List.append_nil] at hfree
  have horder : g.order = if s.rest.edges.isEmpty then .ok s.placed
      else .error (.cycle s.rest.edges) := by
    rw [order, hok]
    rfl
  by_cases hedges : s.rest.edges.isEmpty
  · have hnone := h.wf.edges_isEmpty.mp hedges
    refine Or.inl ⟨s.placed, by rw [horder, if_pos hedges], hnd, fun x => ?_, h.ordered⟩
    rw [hfree]
    exact and_iff_left (hnone x)
  · refine Or.inr ⟨_, by rw [horder, if_neg hedges], ?_⟩
    rw [h.wf.edges_isEmpty] at hedges
    push Not at hedges
    obtain ⟨x, y, hxy⟩ := hedges
    have hx : g.has x := ((h.waits x y).mp hxy).1.has
    obtain ⟨a, ha, -, hcycle⟩ := hg.exists_cycle hx (fun hp => ((hfree x).mp hp).2 y hxy)
      fun a => h.exists_unplaced hready
    exact ⟨a, ha, hcycle⟩

theorem order_ok (hg : g.WellFormed) {xs : List String} (h : g.order = .ok xs) :
    xs.Nodup ∧ (∀ x, x ∈ xs ↔ g.has x) ∧ g.InOrder [] xs := by
  rcases order_cases hg with ⟨ys, hys, hrest⟩ | ⟨edges, he, -⟩
  · obtain rfl := Except.ok.inj (hys.symm.trans h)
    exact hrest
  · cases he.symm.trans h

/-- **There is no order exactly if some node waits for itself.** -/
theorem order_error_iff (hg : g.WellFormed) :
    (∃ edges, g.order = .error (.cycle edges)) ↔ ∃ x, TransGen g.Waits x x := by
  rcases order_cases hg with ⟨xs, hxs, hnd, hmem, hord⟩ | ⟨edges, he, x, -, hcycle⟩
  · refine iff_of_false (fun ⟨e, he⟩ => ?_) fun ⟨x, hcycle⟩ => ?_
    · cases hxs.symm.trans he
    · have hx : g.has x := by
        obtain ⟨b, hb, -⟩ := TransGen.head'_iff.mp hcycle
        exact hb.has
      exact hord.acyclic hnd ((hmem x).mpr hx) hcycle
  · exact iff_of_true ⟨edges, he⟩ ⟨x, hcycle⟩

end Graph

end StepLoom
