import StepLoom.Proofs.Graph.Ordering
import StepLoom.Proofs.SideBySide
import Mathlib.Data.List.Nodup

/-!
# What an ordering leaves over

When no node is ready any more, the edges that are left are the report of a cycle. A node is *stuck*
if it lies on a cycle or waits, at once or through others, for a node on one (`Graph.Stuck`).

**Theorem (`order_exact`).** A graph without a cycle gets an order of all its nodes, each after what
it waits for. Otherwise the report lists the edges from stuck nodes to those that wait for them,
each once and in the order in which they stand in the graph. Nothing else can happen.

Edges are only ever taken away, so what is left is a part of the list of all edges (`links`), in the
same order. The sweep knows which edges these are: those from nodes that are not placed. And a node
is not placed exactly if it is stuck.
-/

namespace StepLoom

namespace Graph

open Relation

variable {g g' : Graph} {x y : String}

/-- The node lies on a cycle or waits for a node on one. -/
def Stuck (g : Graph) (x : String) : Prop := ∃ y, ReflTransGen g.Waits x y ∧ TransGen g.Waits y y

/-- All edges, each from the node that is waited for to the one that waits. -/
def links (g : Graph) : List (String × String) :=
  g.nodes.flatMap fun n => n.after.map fun dependent => (n.id, dependent)

/-- An edge as it is reported. -/
def linkText (e : String × String) : String := e.1 ++ ":" ++ e.2

theorem edges_eq : g.edges = g.links.map linkText := by
  simp [edges, links, linkText, List.map_flatMap, Function.comp_def]

theorem WellFormed.mem_links (hg : g.WellFormed) : (x, y) ∈ g.links ↔ g.Waits y x := by
  rw [hg.linked, links, List.mem_flatMap]
  constructor
  · intro ⟨n, hn, he⟩
    obtain ⟨d, hd, he⟩ := List.mem_map.mp he
    obtain ⟨rfl, rfl⟩ := Prod.mk.inj he
    exact ⟨n, hg.find?_of_mem hn, hd⟩
  · intro ⟨n, hn, hy⟩
    refine ⟨n, mem_of_find? hn, List.mem_map.mpr ⟨y, hy, ?_⟩⟩
    rw [id_of_find? hn]

theorem WellFormed.nodup_links (hg : g.WellFormed) : g.links.Nodup := by
  refine List.nodup_flatMap.mpr ⟨fun n hn => ?_, ?_⟩
  · exact (hg.after_nodup n hn).map fun a b h => (Prod.mk.inj h).2
  · refine (List.pairwise_map.mp hg.ids_nodup).imp fun {m n} hne => ?_
    intro e hm hn
    obtain ⟨d, -, rfl⟩ := List.mem_map.mp hm
    obtain ⟨d', -, he⟩ := List.mem_map.mp hn
    exact hne (Prod.mk.inj he).1.symm

/-! ## Taking edges away -/

theorem links_update {f : Node → Node} (hid : ∀ n, (f n).id = n.id)
    (hafter : ∀ n, (f n).after.Sublist n.after) : (g.update x f).links.Sublist g.links := by
  obtain ⟨nodes⟩ := g
  unfold links update
  induction nodes with
  | nil => simp
  | cons n nodes ih =>
    simp only [List.map_cons, List.flatMap_cons]
    refine List.Sublist.append ?_ ih
    by_cases hn : n.id = x
    · rw [if_pos hn, hid]
      exact (hafter n).map _
    · rw [if_neg hn]

theorem links_unlink : (g.unlink x y).links.Sublist g.links := by
  unfold unlink
  refine List.Sublist.trans (links_update ?_ ?_) (links_update ?_ ?_)
  · intro n; rfl
  · intro n; exact List.Sublist.refl n.after
  · intro n; rfl
  · intro n; exact List.erase_sublist

/-- Using up an edge takes it away, and what it led to may become ready. -/
theorem Sweep.release_cases {s s' : Sweep} (h : s.release x y = .ok s') :
    s'.rest = s.rest.unlink y x ∧ s'.placed = s.placed ∧
      (s'.ready = s.ready ∨ s'.ready = s.ready ++ [y]) := by
  unfold Sweep.release at h
  cases hd : s.rest.find? y with
  | none => simp [hd] at h
  | some d =>
    by_cases hx : x ∈ d.before
    · simp only [hd, if_pos hx, Except.ok.injEq] at h
      subst h
      refine ⟨rfl, rfl, ?_⟩
      dsimp only
      split_ifs <;> simp
    · simp [hd, hx] at h

theorem Sweep.release_links {s s' : Sweep} (h : s.release x y = .ok s') :
    s'.rest.links.Sublist s.rest.links := by
  rw [(Sweep.release_cases h).1]
  exact links_unlink

theorem Sweep.releaseAll_links {s s' : Sweep} {left : List String}
    (h : s.releaseAll x left = .ok s') : s'.rest.links.Sublist s.rest.links := by
  induction left generalizing s with
  | nil =>
    obtain rfl := Except.ok.inj h
    exact List.Sublist.refl _
  | cons d left ih =>
    rw [Sweep.releaseAll] at h
    obtain ⟨s₁, hd, h⟩ := bind_eq_ok.mp h
    exact (ih h).trans (Sweep.release_links hd)

theorem Sweep.run_links {s s' : Sweep} {fuel : Nat} (h : s.run fuel = .ok s') :
    s'.rest.links.Sublist s.rest.links := by
  induction fuel generalizing s with
  | zero =>
    obtain rfl := Except.ok.inj h
    exact List.Sublist.refl _
  | succ fuel ih =>
    rw [Sweep.run] at h
    cases hready : s.ready with
    | nil =>
      rw [hready] at h
      obtain rfl := Except.ok.inj h
      exact List.Sublist.refl _
    | cons id ready =>
      simp only [hready] at h
      obtain ⟨s₁, hs, h⟩ := bind_eq_ok.mp h
      have hrelease := Sweep.releaseAll_links hs
      exact (ih h).trans hrelease

/-- A part of a list without repetitions is known by its members. -/
theorem eq_filter_of_sublist {α : Type} {xs ys : List α} {p : α → Bool} (h : xs.Sublist ys)
    (hnd : ys.Nodup) (hp : ∀ a ∈ ys, a ∈ xs ↔ p a) : xs = ys.filter p := by
  induction h with
  | slnil => rfl
  | @cons xs ys a h ih =>
    obtain ⟨ha, hnd⟩ := List.nodup_cons.mp hnd
    have hnot : ¬ p a := fun hpa => ha (h.subset ((hp a (by simp)).mpr hpa))
    rw [List.filter_cons_of_neg hnot]
    exact ih hnd fun b hb => hp b (List.mem_cons_of_mem a hb)
  | @cons_cons xs ys a h ih =>
    obtain ⟨ha, hnd⟩ := List.nodup_cons.mp hnd
    rw [List.filter_cons_of_pos ((hp a (by simp)).mp (by simp))]
    congr 1
    refine ih hnd fun b hb => ?_
    rw [← hp b (List.mem_cons_of_mem a hb), List.mem_cons]
    exact ⟨Or.inr, fun hb' => hb'.resolve_left fun he => ha (he ▸ hb)⟩

/-! ## Stuck nodes -/

/-- What placed nodes wait for is placed. -/
theorem InOrder.closed {xs : List String} (h : g.InOrder [] xs) (hx : x ∈ xs)
    (hw : ReflTransGen g.Waits x y) : y ∈ xs := by
  induction hw with
  | refl => exact hx
  | tail _ hw ih => exact ((h.sublist ih hw).resolve_left (by simp)).subset (by simp)

/-- When nothing is ready, the nodes that are not placed are the stuck ones. -/
theorem Sweeping.not_placed_iff {s : Sweep} (hg : g.WellFormed) (h : Sweeping g s)
    (hready : s.ready = []) (hx : g.has x) : x ∉ s.placed ↔ g.Stuck x := by
  have hnd := h.nodup
  rw [hready, List.append_nil] at hnd
  constructor
  · intro hp
    -- The nodes that `x` waits for and that are not placed wait for each other.
    obtain ⟨a, -, ⟨-, hxa⟩, hcycle⟩ := hg.exists_cycle
      (p := fun a => a ∉ s.placed ∧ ReflTransGen g.Waits x a) hx ⟨hp, .refl⟩ (by
        intro a ha ⟨hp, hxa⟩
        obtain ⟨b, hab, hb⟩ := h.exists_unplaced hready ha hp
        exact ⟨b, hab, hb, hxa.tail hab⟩)
    exact ⟨a, hxa, hcycle⟩
  · intro ⟨y, hxy, hcycle⟩ hp
    exact h.ordered.acyclic hnd (h.ordered.closed hp hxy) hcycle

open Classical in
/-- When nothing is ready, the edges that are left are those from stuck nodes. -/
theorem Sweeping.links_left {s : Sweep} (hg : g.WellFormed) (h : Sweeping g s)
    (hready : s.ready = []) (hsub : s.rest.links.Sublist g.links) :
    s.rest.links = g.links.filter fun e => g.Stuck e.1 := by
  apply eq_filter_of_sublist hsub hg.nodup_links
  intro (a, b) hab
  have hw := hg.mem_links.mp hab
  rw [h.wf.mem_links, h.waits, h.not_placed_iff hg hready (hg.has_of_waits hw)]
  simp [hw]

open Classical in
/-- **Either all nodes are put in order, or the edges from stuck nodes are reported.** -/
theorem order_exact (hg : g.WellFormed) :
    (¬ (∃ x, TransGen g.Waits x x) → ∃ xs, g.order = .ok xs ∧ xs.Nodup ∧ (∀ x, x ∈ xs ↔ g.has x) ∧
      ∀ x y, g.Waits x y → xs.idxOf y < xs.idxOf x) ∧
    ((∃ x, TransGen g.Waits x x) →
      g.order = .error (.cycle ((g.links.filter fun e => g.Stuck e.1).map linkText))) ∧
    g.links.Nodup ∧ ∀ x y, (x, y) ∈ g.links ↔ g.Waits y x := by
  refine ⟨fun hno => ?_, fun hcycle => ?_, hg.nodup_links, fun x y => hg.mem_links⟩
  · rcases order_cases hg with ⟨xs, hxs, hnd, hmem, hord⟩ | ⟨edges, -, x, -, hx⟩
    · refine ⟨xs, hxs, hnd, hmem, fun x y hw => ?_⟩
      exact (hord.idxOf_lt hnd ((hmem x).mpr hw.has) (.single hw)).2
    · exact absurd ⟨x, hx⟩ hno
  · have hfuel : g.nodes.length ≤ (Sweep.start g).placed.length + g.nodes.length := by simp
    obtain ⟨s, hok, h, hready⟩ := (sweeping_start hg).run hfuel
    obtain ⟨edges, he⟩ := (order_error_iff hg).mpr hcycle
    have hleft := h.links_left hg hready (Sweep.run_links hok)
    rw [order, hok] at he ⊢
    change (if s.rest.edges.isEmpty then Except.ok s.placed
      else Except.error (Fault.cycle s.rest.edges)) = _ at he ⊢
    by_cases hempty : s.rest.edges.isEmpty
    · rw [if_pos hempty] at he
      cases he
    · rw [if_neg hempty, edges_eq, hleft]

/-- Two nodes that wait for each other, one that waits for them, and one that waits for nothing. -/
def knotted : Graph :=
  (((((({} : Graph).insert ⟨"lib", .setup, .null, none, [], []⟩).insert
    ⟨"app", .setup, .null, none, [], []⟩).insert ⟨"docs", .setup, .null, none, [], []⟩).insert
    ⟨"core", .setup, .null, none, [], []⟩).linkAll "lib" ["app", "core"]).linkAll "app" ["lib"]
    |>.link "docs" "app"

theorem knotted_wellFormed : knotted.WellFormed := by
  refine WellFormed.link (WellFormed.linkAll (WellFormed.linkAll ?_ ?_ ?_) ?_ ?_) ?_ ?_
  · refine WellFormed.insert (WellFormed.insert (WellFormed.insert (WellFormed.insert
      wellFormed_empty ?_ rfl rfl) ?_ rfl rfl) ?_ rfl rfl) ?_ rfl rfl
    all_goals decide
  all_goals decide

theorem knotted_cycle : TransGen knotted.Waits "app" "app" := by
  refine .head (b := "lib") ?_ (.single ?_)
  · exact ⟨_, rfl, by decide⟩
  · exact ⟨_, rfl, by decide⟩

/-- The edge from the free node to the cycle is used up, those in the cycle and behind it are
left. -/
theorem order_exact_knotted : knotted.WellFormed ∧
    (∃ edges, knotted.order = .error (.cycle edges) ∧ "lib:app" ∈ edges ∧ "app:docs" ∈ edges) ∧
    knotted.order = .error (.cycle ["lib:app", "app:lib", "app:docs"]) := by
  classical
  obtain ⟨-, hcycle, -, hlinks⟩ := order_exact knotted_wellFormed
  have hstuck : knotted.Stuck "app" := ⟨"app", .refl, knotted_cycle⟩
  have happ : knotted.Waits "app" "lib" := ⟨_, rfl, by decide⟩
  have hlib : knotted.Waits "lib" "app" := ⟨_, rfl, by decide⟩
  have hdocs : knotted.Waits "docs" "app" := ⟨_, rfl, by decide⟩
  have hstuck' : knotted.Stuck "lib" := ⟨"app", .single hlib, knotted_cycle⟩
  refine ⟨knotted_wellFormed, ⟨_, hcycle ⟨_, knotted_cycle⟩, ?_, ?_⟩, by decide⟩
  · refine List.mem_map.mpr ⟨("lib", "app"), List.mem_filter.mpr ⟨(hlinks _ _).mpr happ, ?_⟩, rfl⟩
    simpa using hstuck'
  · refine List.mem_map.mpr ⟨("app", "docs"), List.mem_filter.mpr ⟨(hlinks _ _).mpr hdocs, ?_⟩, rfl⟩
    simpa using hstuck

end Graph

end StepLoom
