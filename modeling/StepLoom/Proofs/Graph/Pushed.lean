import StepLoom.Proofs.Graph.Building

/-!
# What pushing conditions down comes to

`pushDown` goes through the graph and changes it on the way: with path checks it adds edges to the
very relation that it follows. This file says what is different at the end, in terms of the graph
before.

**Theorem (`pushDown_exact`).** On every graph on the way to a job's graph, cyclic ones included,
the walk ends, and its bound never cuts it short. Without path checks it takes the conditions of all
nodes that the start waits for, directly or through others, and changes nothing else. With path
checks the nodes that it comes to without going on from the checkout gain them if they are
conditional and not the checkout itself, and the path checks record who waits for them now; the rest
of the graph is as it was.

The edges that the walk adds lead to path checks, and from there only to the checkout, where nothing
is changed. So the walk may as well follow the edges that there were. What waits for a node
(`afters`) is kept along with what has been seen, because a graph without these lists (`Graph.look`)
does not tell their order.
-/

namespace StepLoom

open Relation

/-- A visit with path checks changes the node: it is conditional, and not the checkout. -/
def Node.Gains (n : Node) : Prop := n.id ≠ Graph.checkoutId ∧ n.pathDeps.isSome

instance (n : Node) : Decidable n.Gains := inferInstanceAs (Decidable (_ ∧ _))

namespace Graph

variable {g g' g₀ : Graph} {x y z : String} {ids : List String} {n : Node}

theorem touched_of_gains (hne : ids ≠ []) {l : List String} (hl : n.pathDeps = some l)
    (hco : n.id ≠ checkoutId) : n.touched ids =
      { n with pathDeps := some (addAll l ids), before := addAll n.before ids } := by
  rw [Node.touched, if_neg hne, if_neg hco, hl]

theorem touched_of_not_gains (hne : ids ≠ []) (h : ¬ n.Gains) : n.touched ids = n := by
  rcases touched_cases ids n with ⟨-, hnil⟩ | ⟨ht, -⟩ | ⟨l, hl, -, hco, -⟩
  · exact absurd hnil hne
  · exact ht
  · exact absurd ⟨hco, by simp [hl]⟩ h

/-! ## Those that wait for a node -/

/-- What waits for a node, in the order in which it was recorded. -/
def afters (g : Graph) (z : String) : Option (List String) := (g.find? z).map (·.after)

/-- What is looked up under an id, from the two parts of a node. -/
theorem find?_of_look {l : List String} (hn : g.look z = some n.bare) (hl : g.afters z = some l) :
    g.find? z = some { n with after := l } := by
  obtain ⟨m, hm, hbare⟩ := Option.map_eq_some_iff.mp hn
  rw [afters, hm] at hl
  obtain rfl := Option.some.inj hl
  have hparts : { m.bare with after := m.after } = { n.bare with after := m.after } := by rw [hbare]
  rw [hm]
  exact congrArg some hparts

theorem afters_of_find? (hn : g.find? z = some n) : g.afters z = some n.after := by
  rw [afters, hn, Option.map_some]

theorem afters_update_inner {f : Node → Node} (hf : Inner f) :
    (g.update x f).afters z = g.afters z := by
  rw [afters, find?_update hf.id, Option.map_map, afters]
  congr 1
  funext n
  simp only [Function.comp]
  split_ifs
  · exact hf.after n
  · rfl

theorem afters_link : (g.link x y).afters z =
    (g.afters z).map fun l => if z = y then addOnce x l else l := by
  rw [afters, find?_link, Option.map_map, afters, Option.map_map]
  rfl

theorem afters_conditionOn (hx : g.has x) (hids : ∀ p ∈ ids, g.has p)
    (h : exec (conditionOn x ids) g = (.ok (), g')) :
    g'.afters z = (g.afters z).map fun l => if z ∈ ids then addOnce x l else l := by
  induction ids generalizing g with
  | nil =>
    obtain rfl : g = g' := (Prod.mk.inj h).2
    simp
  | cons p rest ih =>
    set f : Node → Node := fun n => { n with pathDeps := n.pathDeps.map (addOnce p) } with hf
    have hin : Inner f := ⟨fun _ => rfl, fun _ => rfl, fun _ => rfl⟩
    have hx₁ : (g.update x f).has x := by rw [has_update hin.id]; exact hx
    have hp₁ : (g.update x f).has p := by rw [has_update hin.id]; exact hids p (by simp)
    rw [conditionOn, exec_bind_ok (exec_modify _), exec_bind_ok (exec_addEdge hx₁ hp₁)] at h
    have hrest := ih (by simpa using hx₁) (fun q hq => by
      rw [has_link, has_update hin.id]
      exact hids q (List.mem_cons_of_mem p hq)) h
    rw [hrest, afters_link, afters_update_inner hin, Option.map_map]
    congr 1
    funext l
    simp only [Function.comp, List.mem_cons]
    by_cases hzp : z = p
    · subst hzp
      by_cases hz : z ∈ rest
      · simp [hz, addOnce_of_mem]
      · simp [hz]
    · simp [hzp]

/-- A visit is recorded at the path checks if it changes its node. -/
theorem afters_revisit (hg : g.WellFormed) (hids : ∀ p ∈ ids, g.has p) (hn : g.look x = some n)
    {next : List String} (h : exec (revisit ids x) g = (.ok next, g')) :
    g'.afters z = (g.afters z).map fun l => if n.Gains ∧ z ∈ ids then addOnce x l else l := by
  obtain ⟨m, hm, rfl⟩ := Option.map_eq_some_iff.mp hn
  have hx : g.has x := has_iff.mpr ⟨m, hm⟩
  have hid : m.id = x := id_of_find? hm
  have hsame : ∀ {p : Prop} [Decidable p], ¬ p →
      g.afters z = (g.afters z).map fun l => if p then addOnce x l else l := fun hp => by
    simp [hp]
  rw [revisit, exec_bind_ok (exec_node hm)] at h
  split_ifs at h with hnil hco hdeps
  · obtain rfl := List.isEmpty_iff.mp hnil
    have hin : Inner fun n : Node => { n with pathDeps := none } :=
      ⟨fun _ => rfl, fun _ => rfl, fun _ => rfl⟩
    rw [exec_bind_ok (exec_modify _)] at h
    obtain rfl := (Prod.mk.inj h).2
    rw [afters_update_inner hin]
    exact hsame (by simp)
  · obtain rfl := (Prod.mk.inj h).2
    exact hsame fun hgains => hgains.1.1 (hid.trans hco)
  · obtain ⟨g₁, hex, -, hsome, -⟩ := exec_conditionOn hg hx hids
    obtain ⟨k, hk⟩ := has_iff.mp ((has_of_ids hsome).mpr hx)
    rw [exec_bind_ok hex, exec_bind_ok (exec_node hk)] at h
    obtain rfl := (Prod.mk.inj h).2
    have hgains : m.bare.Gains := ⟨fun h => hco (hid.symm.trans h), hdeps⟩
    rw [afters_conditionOn hx hids hex]
    simp [hgains]
  · rw [exec_bind_ok (exec_node hm)] at h
    obtain rfl := (Prod.mk.inj h).2
    exact hsame fun hgains => hdeps hgains.1.2

/-! ## The whole walk -/

/-- A visit with path checks changes the node under the id. -/
def gains (g : Graph) (y : String) : Bool := (g.look y).any fun n => decide n.Gains

theorem gains_iff : g.gains y ↔ y ≠ checkoutId ∧ ∃ n, g.find? y = some n ∧ n.pathDeps ≠ none := by
  rw [gains, look, Option.any_map]
  cases hn : g.find? y with
  | none => simp
  | some n =>
    obtain rfl := id_of_find? hn
    simp [Node.Gains, Node.bare, Option.isSome_iff_ne_none]

/-- The nodes that a walk with path checks has changed, in the order in which it has seen them. -/
def gained (g : Graph) (seen : List String) : List String := seen.reverse.filter g.gains

theorem mem_gained {seen : List String} : y ∈ g.gained seen ↔ y ∈ seen ∧ g.gains y := by
  simp [gained]

/-- Of the walk so far, the path checks have recorded the nodes that it has changed. -/
def Recorded (g₀ : Graph) (ids : List String) (g : Graph) (seen : List String) : Prop :=
  ∀ z, g.afters z = (g₀.afters z).map fun l => if z ∈ ids then addAll l (g₀.gained seen) else l

theorem Recorded.visit {seen next : List String} (h : Recorded g₀ ids g seen) (hg : g.WellFormed)
    (hids : ∀ p ∈ ids, g.has p) (hn : g.look y = some n) (hn₀ : g₀.look y = some n)
    (hex : exec (revisit ids y) g = (.ok next, g')) : Recorded g₀ ids g' (y :: seen) := by
  intro z
  rw [afters_revisit hg hids hn hex, h z, Option.map_map]
  congr 1
  funext l
  have hgained : g₀.gained (y :: seen) = g₀.gained seen ++ if n.Gains then [y] else [] := by
    rw [gained, List.reverse_cons, List.filter_append, gained, List.filter_singleton, gains, hn₀]
    simp
  by_cases hz : z ∈ ids
  · by_cases hgains : n.Gains <;> simp [hz, hgains, hgained, addAll]
  · simp [hz]

theorem touched_bare : n.bare.touched ids = (n.touched ids).bare := by
  obtain ⟨id, kind, content, pathDeps, before, after⟩ := n
  unfold Node.touched Node.bare
  split_ifs
  · rfl
  · rfl
  · cases pathDeps <;> rfl

/-- What the walk makes of each node, and in which order it has seen them. -/
theorem pushDown_recorded (hg : g.WellFormed) (hx : g.has x) (hids : ∀ p ∈ ids, g.has p) :
    ∃ g' seen, (∀ fuel, walkBound g ids ≤ fuel →
        exec (pushDownFrom ids fuel [x] []) g = (.ok (), g')) ∧
      g'.ids = g.ids ∧ (∀ z, z ∈ seen ↔ ReflTransGen (g.Flows ids) x z) ∧
      ∀ {z n}, g.find? z = some n → g'.find? z = some
        { if z ∈ seen then n.touched ids else n with
          after := if z ∈ ids then addAll n.after (g.gained seen) else n.after } := by
  have hbound := pending_nil g ids
  have hstart : Recorded g ids g [] := fun z => by
    cases g.afters z <;> simp [gained]
  obtain ⟨g', seen, hex, hwalk, hrecorded⟩ := pushDownFrom_spec hg hx hids (I := Recorded g ids)
    (fun hg hids hn hn₀ hex h => h.visit hg hids hn hn₀ hex) (walking_start hg) hstart
    (k := walkBound g ids) (by rw [List.length_singleton]; omega)
  refine ⟨g', seen, hex, hwalk.ids, fun z => hwalk.mem_seen, fun {z n} hn => ?_⟩
  have hlook : g'.look z = some (if z ∈ seen then n.touched ids else n).bare := by
    rw [hwalk.look, look_of_find? hn, Option.map_some, touched_bare]
    split_ifs <;> rfl
  have hafters := hrecorded z
  rw [afters_of_find? hn, Option.map_some] at hafters
  exact find?_of_look hlook hafters

/-! ## Following the edges that there were -/

/-- `y` is met on the way from `x`, if the way does not go on from the checkout. -/
def ComesTo (g : Graph) : String → String → Prop :=
  ReflTransGen fun a b => g.Waits a b ∧ a ≠ checkoutId

/-- Without path checks the walk follows all edges. -/
theorem flows_nil : g.Flows [] = g.Waits := by
  funext a b
  have honward : ∀ n : Node, n.onward [] = n.before := fun n => by simp [Node.onward, Node.touched]
  simp only [Flows, honward, waits_iff_look]

theorem ComesTo.flows (h : g.ComesTo x y) : ReflTransGen (g.Flows ids) x y := by
  induction h with
  | refl => exact .refl
  | @tail a b _ hab ih =>
    obtain ⟨n, hn, hb⟩ := waits_iff_look.mp hab.1
    refine ih.tail ⟨n, hn, ?_⟩
    rw [Node.onward, if_neg fun hco => hab.2 ((id_of_look hn).symm.trans hco.2)]
    exact subset_before_touched n hb

/-- The edges that the walk adds are of no use to it: path checks lead to nothing but the
checkout. -/
theorem Underway.comesTo_or (hg : g.Underway) (hids : HasChecks g ids) (hne : ids ≠ [])
    (h : ReflTransGen (g.Flows ids) x y) : g.ComesTo x y ∨ IsCheck y ∨ y = checkoutId := by
  induction h with
  | refl => exact Or.inl .refl
  | @tail a b _ hab ih =>
    obtain ⟨n, hn, hb⟩ := hab
    have hco : a ≠ checkoutId := fun hco => by
      rw [Node.onward, if_pos ⟨hne, (id_of_look hn).trans hco⟩] at hb
      cases hb
    rw [Node.onward, if_neg fun h => hco ((id_of_look hn).symm.trans h.2)] at hb
    rcases Node.mem_before_touched hb with hb | hb
    · rcases ih with ha | ha | ha
      · exact Or.inl (ha.tail ⟨waits_iff_look.mpr ⟨n, hn, hb⟩, hco⟩)
      · exact Or.inr (Or.inr ((hg.check ha hn).2 b hb))
      · exact absurd ha hco
    · exact Or.inr (Or.inl (hids b hb).2)

theorem Underway.not_gains_check (hg : g.Underway) (hx : IsCheck x) : ¬ g.gains x := by
  rw [gains_iff]
  rintro ⟨-, n, hn, hdeps⟩
  exact hdeps (hg.check hx (look_of_find? hn)).1

/-- So the nodes that it changes are those to be met along the edges of the graph before. -/
theorem Underway.flows_iff (hg : g.Underway) (hids : HasChecks g ids) (hne : ids ≠ [])
    (hy : g.gains y) : ReflTransGen (g.Flows ids) x y ↔ g.ComesTo x y := by
  refine ⟨fun h => ?_, ComesTo.flows⟩
  rcases hg.comesTo_or hids hne h with h | h | h
  · exact h
  · exact absurd hy (hg.not_gains_check h)
  · exact absurd h (gains_iff.mp hy).1

/-! ## The effect -/

/-- What a reference without path checks makes of a graph: the nodes that `x` waits for, and `x`
itself, lose their conditions. -/
structure Cleared (x : String) (g g' : Graph) : Prop where
  ids : g'.ids = g.ids
  reached : ∀ {y n}, ReflTransGen g.Waits x y → g.find? y = some n →
    g'.find? y = some { n with pathDeps := none }
  others : ∀ {y}, ¬ ReflTransGen g.Waits x y → g'.find? y = g.find? y

/-- What a reference with path checks makes of a graph: some nodes gain them, and the path checks
record these nodes in the given order. -/
structure Reconditioned (x : String) (pathIds order : List String) (g g' : Graph) : Prop where
  ids : g'.ids = g.ids
  mem_order : ∀ y, y ∈ order ↔ g.ComesTo x y ∧ y ≠ checkoutId ∧
    ∃ n, g.find? y = some n ∧ n.pathDeps ≠ none
  gained : ∀ {y n}, y ∈ order → g.find? y = some n → ∃ l, n.pathDeps = some l ∧
    g'.find? y = some { n with
      pathDeps := some (addAll l pathIds), before := addAll n.before pathIds }
  checks : ∀ {y n}, y ∈ pathIds → g.find? y = some n →
    g'.find? y = some { n with after := addAll n.after order }
  others : ∀ {y}, y ∉ order → y ∉ pathIds → g'.find? y = g.find? y

/-- **Pushing conditions down ends, and this is what it comes to.** The bound of the walk is no
limit to it: more fuel gives the same graph. -/
theorem pushDown_exact (hg : g.Underway) (hx : g.has x) (hids : HasChecks g ids) :
    ∃ g', exec (pushDown x ids) g = (.ok (), g') ∧
      (∀ fuel, walkBound g ids ≤ fuel → exec (pushDownFrom ids fuel [x] []) g = (.ok (), g')) ∧
      (ids = [] → Cleared x g g') ∧
      (ids ≠ [] → ∃ order, Reconditioned x ids order g g') := by
  obtain ⟨g', seen, hex, hsome, hseen, hfind⟩ :=
    pushDown_recorded hg.wf hx fun p hp => (hids p hp).1
  have hnone : ∀ y, ¬ g.has y → g'.find? y = g.find? y := fun y hy => by
    rw [not_has_iff.mp hy, not_has_iff.mp (mt (has_of_ids hsome).mp hy)]
  refine ⟨g', ?_, hex, ?_, fun hne => ⟨g.gained seen, hsome, fun y => ?_, ?_, ?_, ?_⟩⟩
  · rw [pushDown, exec_bind_ok exec_get]
    exact hex _ (Nat.le_refl _)
  · rintro rfl
    rw [flows_nil] at hseen
    refine ⟨hsome, fun {y n} hy hn => ?_, fun {y} hy => ?_⟩
    · rw [hfind hn, if_pos ((hseen y).mpr hy)]
      simp [Node.touched]
    · by_cases hhas : g.has y
      · obtain ⟨n, hn⟩ := has_iff.mp hhas
        rw [hfind hn, if_neg (mt (hseen y).mp hy), hn]
        simp
      · exact hnone y hhas
  · rw [mem_gained, hseen, ← gains_iff]
    exact and_congr_left fun hy => hg.flows_iff hids hne hy
  · intro y n hy hn
    obtain ⟨hmem, hgains⟩ := mem_gained.mp hy
    obtain ⟨hco, m, hm, hdeps⟩ := gains_iff.mp hgains
    obtain rfl := Option.some.inj (hn.symm.trans hm)
    obtain ⟨l, hl⟩ := Option.ne_none_iff_exists'.mp hdeps
    have hnot : y ∉ ids := fun hp => hg.not_gains_check (hids y hp).2 hgains
    refine ⟨l, hl, ?_⟩
    rw [hfind hn, if_pos hmem, if_neg hnot,
      touched_of_gains hne hl (fun h => hco ((id_of_find? hn).symm.trans h))]
  · intro y n hp hn
    have hdeps := (hg.check (hids y hp).2 (look_of_find? hn)).1
    have ht : n.touched ids = n := touched_of_none hdeps
    rw [hfind hn, if_pos hp, ht, ite_self]
  · intro y hy hp
    by_cases hhas : g.has y
    · obtain ⟨n, hn⟩ := has_iff.mp hhas
      rw [hfind hn, if_neg hp, hn]
      by_cases hmem : y ∈ seen
      · have hgains : ¬ n.Gains := fun h => hy (mem_gained.mpr ⟨hmem, by
          rw [gains, look_of_find? hn]
          exact decide_eq_true h⟩)
        rw [if_pos hmem, touched_of_not_gains hne hgains]
      · rw [if_neg hmem]
    · exact hnone y hhas

/-- Two setups that need each other, conditioned on a check for scripts, and a check for
documents. -/
def knot : Graph :=
  ({} : Graph)
    |>.addFresh (Check.nodeId ["*.js"]) .paths .null []
    |>.addFresh (Check.nodeId ["*.md"]) .paths .null []
    |>.addFresh (setupId "a") .setup .null [Check.nodeId ["*.js"]]
    |>.addFresh (setupId "b") .setup .null [Check.nodeId ["*.js"]]
    |>.link (setupId "b") (setupId "a")
    |>.link (setupId "a") (setupId "b")

theorem underway_knot : knot.Underway := by
  have hcheck : ∀ ps, Kind.paths = .paths ↔ IsCheck (Check.nodeId ps) := fun ps =>
    iff_of_true rfl ⟨ps, rfl⟩
  have hsetup : ∀ s, Kind.setup = .paths ↔ IsCheck (setupId s) := fun _ =>
    iff_of_false (by simp) not_isCheck_setupId
  have hscripts : ∀ {g : Graph}, g.has (Check.nodeId ["*.js"]) →
      HasChecks g [Check.nodeId ["*.js"]] := fun h p hp => by
    obtain rfl := List.mem_singleton.mp hp
    exact ⟨h, _, rfl⟩
  refine Underway.link ?_ (by decide) (by decide) fun h => absurd h not_isCheck_setupId
  refine Underway.link ?_ (by decide) (by decide) fun h => absurd h not_isCheck_setupId
  refine Underway.add ?_ (by decide) (hsetup _) (hscripts (by decide)) (by simp)
  refine Underway.add ?_ (by decide) (hsetup _) (hscripts (by decide)) (by simp)
  refine Underway.add ?_ (by decide) (hcheck _) hasChecks_nil fun _ => rfl
  exact Underway.add .empty (by decide) (hcheck _) hasChecks_nil fun _ => rfl

/-- Both setups of the cycle gain the second check, which records the one that is visited first
first. -/
theorem pushDown_exact_knot : knot.Underway ∧ knot.has (setupId "a") ∧
    HasChecks knot [Check.nodeId ["*.md"]] ∧
    ∃ g', exec (pushDown (setupId "a") [Check.nodeId ["*.md"]]) knot = (.ok (), g') ∧
      ∃ order, Reconditioned (setupId "a") [Check.nodeId ["*.md"]] order knot g' := by
  have hhas : knot.has (setupId "a") := by decide
  have hids : HasChecks knot [Check.nodeId ["*.md"]] := fun p hp => by
    obtain rfl := List.mem_singleton.mp hp
    exact ⟨by decide, _, rfl⟩
  obtain ⟨g', hex, -, -, hre⟩ := pushDown_exact underway_knot hhas hids
  exact ⟨underway_knot, hhas, hids, g', hex, hre (by simp)⟩

example : ((exec (pushDown (setupId "a") ["paths-*.md"]) knot).2.nodes.map fun n =>
    (n.id, n.pathDeps, n.after)) =
    [("paths-*.js", none, ["setup-a", "setup-b"]), ("paths-*.md", none, ["setup-a", "setup-b"]),
      ("setup-a", some ["paths-*.js", "paths-*.md"], ["setup-b"]),
      ("setup-b", some ["paths-*.js", "paths-*.md"], ["setup-a"])] := by decide

end Graph

end StepLoom
