import StepLoom.Proofs.Graph.Run

/-!
# Pushing conditions down

`pushDown` goes through a node and everything that it waits for. This file shows that the walk ends
within its bound and reaches exactly the nodes that it should, and says what it does to each of
them.

**Theorem (`pushDown_spec`).** On a well-formed graph the walk succeeds. A node that the start
*flows* to is changed as `Node.touched` says, and every other node is left as it is.

With path checks nothing flows through the checkout, and a conditional node flows to the new path
checks, too, because it waits for them from now on.

The proof keeps the usual invariant of a worklist: what has been seen flows only to what has been
seen or is on the stack. The bound suffices because each node is visited once, so at most its edges
and the new path checks are ever put on the stack.
-/

namespace StepLoom

open Relation

/-- What a visit makes of a node. Without path checks the node loses its conditions. With path
checks the checkout and unconditional nodes stay as they are. -/
def Node.touched (pathIds : List String) (n : Node) : Node :=
  if pathIds = [] then { n with pathDeps := none }
  else if n.id = Graph.checkoutId then n
  else match n.pathDeps with
    | none => n
    | some deps =>
      { n with pathDeps := some (addAll deps pathIds), before := addAll n.before pathIds }

/-- Where a walk goes on from a node. -/
def Node.onward (pathIds : List String) (n : Node) : List String :=
  if pathIds ≠ [] ∧ n.id = Graph.checkoutId then [] else (n.touched pathIds).before

theorem Node.mem_before_touched {pathIds : List String} {n : Node} {y : String}
    (h : y ∈ (n.touched pathIds).before) : y ∈ n.before ∨ y ∈ pathIds := by
  unfold Node.touched at h
  split_ifs at h
  · exact Or.inl h
  · exact Or.inl h
  · cases hd : n.pathDeps with
    | none => exact Or.inl (by simpa [hd] using h)
    | some deps => exact mem_addAll.mp (by simpa [hd] using h)

theorem Node.length_onward_le (pathIds : List String) (n : Node) :
    (n.onward pathIds).length ≤ n.before.length + pathIds.length := by
  unfold Node.onward Node.touched
  split_ifs
  · simp
  · simp
  · simp
  · cases n.pathDeps with
    | none => simp
    | some deps => exact length_addAll_le n.before pathIds

namespace Graph

variable {g g₀ : Graph} {pathIds : List String}

/-- The walk goes on from `x` to `y`. -/
def Flows (g : Graph) (pathIds : List String) (x y : String) : Prop :=
  ∃ n, g.look x = some n ∧ y ∈ n.onward pathIds

theorem id_of_look {x : String} {n : Node} (h : g.look x = some n) : n.id = x := by
  obtain ⟨m, hm, rfl⟩ := Option.map_eq_some_iff.mp h
  simpa [Node.bare] using id_of_find? hm

theorem Flows.has (hg : g.WellFormed) (hp : ∀ p ∈ pathIds, g.has p) {x y : String}
    (h : g.Flows pathIds x y) : g.has y := by
  obtain ⟨n, hn, hy⟩ := h
  unfold Node.onward at hy
  split_ifs at hy
  · simp at hy
  · rcases Node.mem_before_touched hy with hy | hy
    · exact hg.has_of_waits (waits_iff_look.mpr ⟨n, hn, hy⟩)
    · exact hp y hy

/-! ## One visit -/

theorem exec_conditionOn {x : String} (hg : g.WellFormed) (hx : g.has x)
    (hp : ∀ p ∈ pathIds, g.has p) : ∃ g', exec (conditionOn x pathIds) g = (.ok (), g') ∧
      g'.WellFormed ∧ g'.ids = g.ids ∧ ∀ z, g'.look z = (g.look z).map fun n =>
        if z = x then { n with
          pathDeps := n.pathDeps.map (addAll · pathIds)
          before := addAll n.before pathIds }
        else n := by
  induction pathIds generalizing g with
  | nil =>
    refine ⟨g, rfl, hg, rfl, fun z => ?_⟩
    cases g.look z with
    | none => rfl
    | some n => cases n.pathDeps <;> simp
  | cons p rest ih =>
    set f : Node → Node := fun n => { n with pathDeps := n.pathDeps.map (addOnce p) } with hf
    have hin : Inner f := ⟨fun _ => rfl, fun _ => rfl, fun _ => rfl⟩
    have hx₁ : (g.update x f).has x := by rw [has_update hin.id]; exact hx
    have hp₁ : (g.update x f).has p := by rw [has_update hin.id]; exact hp p (by simp)
    have hwf := (hg.update_inner (x := x) hin).link hx₁ hp₁
    obtain ⟨g', hex, hwf', hids, hlook⟩ := ih hwf (by simpa using hx₁) fun q hq => by
      rw [has_link, has_update hin.id]
      exact hp q (List.mem_cons_of_mem p hq)
    refine ⟨g', ?_, hwf', ?_, fun z => ?_⟩
    · rw [conditionOn, exec_bind_ok (exec_modify _), exec_bind_ok (exec_addEdge hx₁ hp₁), hex]
    · rw [hids, ids_link, ids_update hin.id]
    · rw [hlook, look_link, look_update hin.id (fun _ => rfl), Option.map_map, Option.map_map]
      congr 1
      funext n
      simp only [Function.comp, hf]
      split_ifs
      · cases n.pathDeps <;> rfl
      · rfl

/-- What is done to the node at `x` decides what is done to the graph. -/
theorem look_map_congr {x z : String} {n : Node} {e f : Node → Node} (hx : g.look x = some n)
    (h : e n = f n) : ((g.look z).map fun m => if z = x then e m else m) =
      (g.look z).map fun m => if z = x then f m else m := by
  cases hz : g.look z with
  | none => rfl
  | some k =>
    simp only [Option.map_some, Option.some.injEq]
    split_ifs with hzx
    · subst hzx
      obtain rfl := Option.some.inj (hx.symm.trans hz)
      exact h
    · rfl

theorem look_map_self {x z : String} {n : Node} {f : Node → Node} (hx : g.look x = some n)
    (h : f n = n) : ((g.look z).map fun m => if z = x then f m else m) = g.look z := by
  rw [look_map_congr (f := id) hx h]
  cases g.look z <;> simp

/-- One visit changes its node as `Node.touched` says and goes on to the `Node.onward` nodes. -/
theorem exec_revisit {x : String} {n : Node} (hg : g.WellFormed) (hx : g.look x = some n)
    (hp : ∀ p ∈ pathIds, g.has p) :
    ∃ g', exec (revisit pathIds x) g = (.ok (n.onward pathIds), g') ∧
      g'.WellFormed ∧ g'.ids = g.ids ∧
      ∀ z, g'.look z = (g.look z).map fun n => if z = x then n.touched pathIds else n := by
  obtain ⟨m, hm, rfl⟩ := Option.map_eq_some_iff.mp hx
  have hid : m.bare.id = x := id_of_look hx
  rw [revisit, exec_bind_ok (exec_node hm)]
  by_cases hnil : pathIds = []
  · subst hnil
    have hin : Inner fun n : Node => { n with pathDeps := none } :=
      ⟨fun _ => rfl, fun _ => rfl, fun _ => rfl⟩
    refine ⟨g.update x fun n => { n with pathDeps := none }, rfl, hg.update_inner hin,
      ids_update hin.id, fun z => ?_⟩
    rw [look_update hin.id fun _ => rfl]
    rfl
  have hemp : ¬ pathIds.isEmpty := by simpa [List.isEmpty_iff] using hnil
  rw [if_neg hemp]
  by_cases hco : x = checkoutId
  · have ht : m.bare.touched pathIds = m.bare := by
      rw [Node.touched, if_neg hnil, if_pos (hid.trans hco)]
    refine ⟨g, ?_, hg, rfl, fun z => (look_map_self hx ht).symm⟩
    rw [if_pos hco, Node.onward, if_pos ⟨hnil, hid.trans hco⟩]
    rfl
  have honward : m.bare.onward pathIds = (m.bare.touched pathIds).before := by
    rw [Node.onward, if_neg fun h => hco (hid ▸ h.2)]
  rw [if_neg hco, honward]
  cases hd : m.pathDeps with
  | none =>
    have ht : m.bare.touched pathIds = m.bare := by
      rw [Node.touched, if_neg hnil, if_neg (hid ▸ hco), show m.bare.pathDeps = none from hd]
    refine ⟨g, ?_, hg, rfl, fun z => (look_map_self hx ht).symm⟩
    rw [ht]
    change exec (node x >>= fun n => pure n.before) g = _
    rw [exec_bind_ok (exec_node hm)]
    rfl
  | some deps =>
    have ht : m.bare.touched pathIds = { m.bare with
        pathDeps := m.bare.pathDeps.map (addAll · pathIds)
        before := addAll m.bare.before pathIds } := by
      rw [Node.touched, if_neg hnil, if_neg (hid ▸ hco), show m.bare.pathDeps = some deps from hd]
      rfl
    obtain ⟨g', hex, hwf, hids, hlook⟩ := exec_conditionOn hg (has_iff.mpr ⟨m, hm⟩) hp
    have htouched : ∀ z, g'.look z =
        (g.look z).map fun n => if z = x then n.touched pathIds else n := fun z =>
      (hlook z).trans (look_map_congr (f := Node.touched pathIds) hx ht.symm)
    refine ⟨g', ?_, hwf, hids, htouched⟩
    have hx' : g'.look x = some (m.bare.touched pathIds) := by
      rw [htouched, hx, Option.map_some, if_pos rfl]
    obtain ⟨k, hk, hkb⟩ := Option.map_eq_some_iff.mp hx'
    change exec (conditionOn x pathIds >>= fun _ => node x >>= fun n => pure n.before) g = _
    rw [exec_bind_ok hex, exec_bind_ok (exec_node hk), ← hkb]
    rfl

/-! ## The whole walk -/

/-- What the walk from `x` makes of a graph. -/
structure PushedDown (x : String) (pathIds : List String) (g g' : Graph) : Prop where
  wellFormed : g'.WellFormed
  ids : g'.ids = g.ids
  reached : ∀ z, ReflTransGen (g.Flows pathIds) x z →
    g'.look z = (g.look z).map (·.touched pathIds)
  others : ∀ z, ¬ ReflTransGen (g.Flows pathIds) x z → g'.look z = g.look z

/-- How much a walk through some nodes can still put on its stack. -/
def pending (pathIds seen : List String) (ns : List Node) : Nat :=
  ((ns.filter fun n => n.id ∉ seen).map fun n => n.before.length + pathIds.length).foldr (· + ·) 0

theorem pending_nil (g : Graph) (pathIds : List String) :
    pending pathIds [] g.nodes + 1 = walkBound g pathIds := by
  unfold pending walkBound
  simp only [List.not_mem_nil, not_false_eq_true, decide_true, List.filter_true]
  induction g.nodes with
  | nil => rfl
  | cons n rest ih =>
    simp only [List.map_cons, List.foldr_cons]
    omega

theorem pending_cons_node (pathIds seen : List String) (n : Node) (ns : List Node) :
    pending pathIds seen (n :: ns) =
      (if n.id ∈ seen then 0 else n.before.length + pathIds.length) + pending pathIds seen ns := by
  unfold pending
  by_cases h : n.id ∈ seen <;> simp [h]

theorem pending_cons_le (pathIds seen : List String) (x : String) (ns : List Node) :
    pending pathIds (x :: seen) ns ≤ pending pathIds seen ns := by
  induction ns with
  | nil => simp [pending]
  | cons n ns ih =>
    rw [pending_cons_node, pending_cons_node]
    by_cases h₁ : n.id ∈ seen <;> by_cases h₂ : n.id = x <;> simp [h₁, h₂] <;> omega

/-- Seeing a node takes its share out of what is pending. -/
theorem pending_visit (pathIds : List String) {m : Node} {seen : List String} {ns : List Node}
    (hm : m ∈ ns) (hs : m.id ∉ seen) :
    pending pathIds (m.id :: seen) ns + (m.before.length + pathIds.length) ≤
      pending pathIds seen ns := by
  induction ns with
  | nil => simp at hm
  | cons n ns ih =>
    rw [pending_cons_node, pending_cons_node]
    rcases List.mem_cons.mp hm with rfl | hm
    · have := pending_cons_le pathIds seen m.id ns
      simp [hs]
      omega
    · have := ih hm
      by_cases h₁ : n.id ∈ seen <;> by_cases h₂ : n.id = m.id <;> simp [h₁, h₂] <;> omega

/-- The state of the walk from `x`: the graph so far, the stack and what has been seen. -/
structure Walking (g₀ : Graph) (x : String) (pathIds : List String) (g : Graph)
    (stack seen : List String) : Prop where
  wellFormed : g.WellFormed
  ids : g.ids = g₀.ids
  look : ∀ z, g.look z = (g₀.look z).map fun n => if z ∈ seen then n.touched pathIds else n
  start : x ∈ seen ∨ x ∈ stack
  reached : ∀ z, z ∈ seen ∨ z ∈ stack → ReflTransGen (g₀.Flows pathIds) x z
  closed : ∀ y ∈ seen, ∀ z, g₀.Flows pathIds y z → z ∈ seen ∨ z ∈ stack

theorem has_of_ids {g' : Graph} (h : g'.ids = g.ids) {x : String} : g'.has x ↔ g.has x := by
  rw [has_iff_mem_ids, has_iff_mem_ids, h]

/-- When the stack is empty, what has been seen is what the start flows to. -/
theorem Walking.mem_seen {x z : String} {seen : List String} (h : Walking g₀ x pathIds g [] seen) :
    z ∈ seen ↔ ReflTransGen (g₀.Flows pathIds) x z := by
  refine ⟨fun hz => h.reached z (Or.inl hz), fun hz => ?_⟩
  induction hz with
  | refl => simpa using h.start
  | tail _ hflow ih => simpa using h.closed _ ih _ hflow

theorem Walking.done {x : String} {seen : List String} (h : Walking g₀ x pathIds g [] seen) :
    PushedDown x pathIds g₀ g := by
  refine ⟨h.wellFormed, h.ids, fun z hz => ?_, fun z hz => ?_⟩
  · rw [h.look]
    simp [h.mem_seen.mpr hz]
  · rw [h.look]
    cases g₀.look z <;> simp [mt h.mem_seen.mp hz]

theorem has_of_reached {x z : String} (hg : g.WellFormed) (hx : g.has x)
    (hp : ∀ p ∈ pathIds, g.has p) (h : ReflTransGen (g.Flows pathIds) x z) : g.has z := by
  rcases h.cases_tail with rfl | ⟨y, -, hyz⟩
  · exact hx
  · exact hyz.has hg hp

/-- A node on top of the stack that has been seen already is dropped. -/
theorem Walking.drop {x y : String} {stack seen : List String}
    (h : Walking g₀ x pathIds g (y :: stack) seen) (hy : y ∈ seen) :
    Walking g₀ x pathIds g stack seen := by
  have hsub : ∀ z, z ∈ seen ∨ z ∈ y :: stack → z ∈ seen ∨ z ∈ stack := by
    intro z hz
    rcases hz with hz | hz
    · exact Or.inl hz
    · rcases List.mem_cons.mp hz with rfl | hz
      · exact Or.inl hy
      · exact Or.inr hz
  exact {
    wellFormed := h.wellFormed
    ids := h.ids
    look := h.look
    start := hsub x h.start
    reached := fun z hz => h.reached z (hz.imp_right (List.mem_cons_of_mem y))
    closed := fun w hw z hz => hsub z (h.closed w hw z hz) }

/-- A node that has not been seen is visited, and the walk goes on from it. -/
theorem Walking.visit {x y : String} {n : Node} {g' : Graph} {stack seen : List String}
    (h : Walking g₀ x pathIds g (y :: stack) seen) (hy : y ∉ seen) (hn : g₀.look y = some n)
    (hwf : g'.WellFormed) (hids : g'.ids = g.ids)
    (hlook : ∀ z, g'.look z = (g.look z).map fun n => if z = y then n.touched pathIds else n) :
    Walking g₀ x pathIds g' (n.onward pathIds ++ stack) (y :: seen) := by
  have hreach := h.reached y (Or.inr (by simp))
  refine ⟨hwf, hids.trans h.ids, fun z => ?_, ?_, fun z hz => ?_, fun w hw z hz => ?_⟩
  · rw [hlook, h.look, Option.map_map]
    congr 1
    funext k
    simp only [Function.comp, List.mem_cons]
    by_cases hzy : z = y
    · subst hzy
      simp [hy]
    · simp [hzy]
  · rcases h.start with hs | hs
    · exact Or.inl (List.mem_cons_of_mem y hs)
    · rcases List.mem_cons.mp hs with rfl | hs
      · exact Or.inl (by simp)
      · exact Or.inr (List.mem_append_right _ hs)
  · rcases hz with hz | hz
    · rcases List.mem_cons.mp hz with rfl | hz
      · exact hreach
      · exact h.reached z (Or.inl hz)
    · rcases List.mem_append.mp hz with hz | hz
      · exact hreach.tail ⟨n, hn, hz⟩
      · exact h.reached z (Or.inr (List.mem_cons_of_mem y hz))
  · rcases List.mem_cons.mp hw with rfl | hw
    · obtain ⟨k, hk, hzk⟩ := hz
      obtain rfl : n = k := Option.some.inj (hn.symm.trans hk)
      exact Or.inr (List.mem_append_left _ hzk)
    · rcases h.closed w hw z hz with hs | hs
      · exact Or.inl (List.mem_cons_of_mem y hs)
      · rcases List.mem_cons.mp hs with rfl | hs
        · exact Or.inl (by simp)
        · exact Or.inr (List.mem_append_right _ hs)

/-- The walk ends, and more fuel than it needs makes no difference. Whatever each visit maintains
holds at the end. -/
theorem pushDownFrom_spec {x : String} (h₀ : g₀.WellFormed) (hx : g₀.has x)
    (hp : ∀ p ∈ pathIds, g₀.has p) {I : Graph → List String → Prop}
    (hvisit : ∀ {g g' seen y n next}, g.WellFormed → (∀ p ∈ pathIds, g.has p) →
      g.look y = some n → g₀.look y = some n → exec (revisit pathIds y) g = (.ok next, g') →
      I g seen → I g' (y :: seen))
    {k : Nat} {stack seen : List String} (h : Walking g₀ x pathIds g stack seen) (hI : I g seen)
    (hk : stack.length + pending pathIds seen g₀.nodes ≤ k) :
    ∃ g' seen', (∀ fuel, k ≤ fuel →
        exec (pushDownFrom pathIds fuel stack seen) g = (.ok (), g')) ∧
      Walking g₀ x pathIds g' [] seen' ∧ I g' seen' := by
  induction k generalizing g stack seen with
  | zero =>
    obtain rfl : stack = [] := List.length_eq_zero_iff.mp (by omega)
    exact ⟨g, seen, fun fuel _ => by cases fuel <;> rfl, h, hI⟩
  | succ k ih =>
    cases stack with
    | nil => exact ⟨g, seen, fun fuel _ => by cases fuel <;> rfl, h, hI⟩
    | cons y stack =>
      rw [List.length_cons] at hk
      by_cases hy : y ∈ seen
      · obtain ⟨g', seen', hex, hdone⟩ := ih (h.drop hy) hI (by omega)
        refine ⟨g', seen', fun fuel hfuel => ?_, hdone⟩
        obtain ⟨fuel, rfl⟩ := Nat.exists_eq_add_of_le' (Nat.le_of_add_left_le hfuel)
        rw [pushDownFrom, if_pos hy]
        exact hex fuel (by omega)
      · -- What has not been seen is still as it was before the walk.
        have hhas := has_of_reached h₀ hx hp (h.reached y (Or.inr (by simp)))
        obtain ⟨m, hm⟩ := has_iff.mp hhas
        have hm₀ : g₀.look y = some m.bare := by rw [look, hm]; rfl
        have hmg : g.look y = some m.bare := by rw [h.look, hm₀]; simp [hy]
        have hpg : ∀ p ∈ pathIds, g.has p := fun p hpp => (has_of_ids h.ids).mpr (hp p hpp)
        obtain ⟨g₁, hex₁, hwf, hids, hlook⟩ := exec_revisit h.wellFormed hmg hpg
        have hlen := Node.length_onward_le pathIds m.bare
        have hid : m.id = y := id_of_find? hm
        have hpend := pending_visit pathIds (mem_of_find? hm) (hid ▸ hy)
        rw [hid] at hpend
        change (m.bare.onward pathIds).length ≤ m.before.length + pathIds.length at hlen
        obtain ⟨g', seen', hex, hdone⟩ := ih (h.visit hy hm₀ hwf hids hlook)
          (hvisit h.wellFormed hpg hmg hm₀ hex₁ hI) (by rw [List.length_append]; omega)
        refine ⟨g', seen', fun fuel hfuel => ?_, hdone⟩
        obtain ⟨fuel, rfl⟩ := Nat.exists_eq_add_of_le' (Nat.le_of_add_left_le hfuel)
        rw [pushDownFrom, if_neg hy, exec_bind_ok hex₁]
        exact hex fuel (by omega)

/-- A walk starts with one node on its stack. -/
theorem walking_start {x : String} (hg : g.WellFormed) : Walking g x pathIds g [x] [] := by
  refine ⟨hg, rfl, fun z => ?_, Or.inr (by simp), ?_, by simp⟩
  · cases g.look z <;> simp
  · rintro z (hz | hz)
    · simp at hz
    · rw [List.mem_singleton.mp hz]

/-- **The walk ends, and changes exactly the nodes that its start flows to.** -/
theorem pushDown_spec {x : String} (hg : g.WellFormed) (hx : g.has x)
    (hp : ∀ p ∈ pathIds, g.has p) :
    ∃ g', exec (pushDown x pathIds) g = (.ok (), g') ∧ PushedDown x pathIds g g' := by
  have hbound := pending_nil g pathIds
  obtain ⟨g', seen, hex, hdone, -⟩ := pushDownFrom_spec hg hx hp (I := fun _ _ => True)
    (fun _ _ _ _ _ _ => trivial) (walking_start hg) trivial (k := walkBound g pathIds)
    (by rw [List.length_singleton]; omega)
  refine ⟨g', ?_, hdone.done⟩
  rw [pushDown, exec_bind_ok exec_get]
  exact hex _ (Nat.le_refl _)

end Graph

end StepLoom
