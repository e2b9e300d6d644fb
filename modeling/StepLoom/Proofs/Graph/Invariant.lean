import StepLoom.Proofs.Graph.Walk
import StepLoom.Proofs.Needs

/-!
# What holds of a graph while it is built

`Sound` is the invariant of a graph under construction: it is well formed, the id of a node tells
what the node is, a setup waits only for setups that it needs and for path checks, a step only for
earlier steps, setups and path checks, a path check for nothing, and a node waits for every path
check that it is conditioned on.

`Grows` is what every step of the construction does: nodes stay, keep their edges, and stay
unconditional once they are.
-/

namespace StepLoom

namespace Graph

open Setup

variable {table : Value} {g g' : Graph} {pathIds : List String}

/-- The id belongs to a path check. -/
def IsCheck (x : String) : Prop := ∃ ps, x = Check.nodeId ps

theorem not_isCheck_setupId {s : String} : ¬ IsCheck (setupId s) :=
  fun ⟨_, h⟩ => setupId_ne_nodeId h

theorem not_isCheck_stepId {i : Nat} : ¬ IsCheck (stepId i) :=
  fun ⟨_, h⟩ => stepId_ne_nodeId h

/-- The invariant of a graph under construction. -/
structure Sound (table : Value) (g : Graph) : Prop where
  wf : g.WellFormed
  setup : ∀ {x n}, g.look x = some n → n.kind = .setup →
    ∃ s, x = setupId s ∧ definition? table s = some n.content ∧
      ∀ y ∈ n.before, (∃ t ∈ needs table s, y = setupId t) ∨ IsCheck y
  step : ∀ {x n}, g.look x = some n → n.kind = .step →
    ∃ i, x = stepId i ∧
      ∀ y ∈ n.before, (∃ j < i, y = stepId j) ∨ (∃ s, y = setupId s) ∨ IsCheck y
  check : ∀ {x n}, g.look x = some n → n.kind = .paths →
    ∃ ps, x = Check.nodeId ps ∧ n.content = .list ((Check.sortTexts ps).map .str) ∧
      n.pathDeps = none ∧ n.before = []
  deps : ∀ {x n l}, g.look x = some n → n.pathDeps = some l →
    l ≠ [] ∧ ∀ p ∈ l, p ∈ n.before ∧ IsCheck p

theorem sound_empty : Sound table {} where
  wf := wellFormed_empty
  setup h := by cases h
  step h := by cases h
  check h := by cases h
  deps h := by cases h

/-- The graph `g'` has all that `g` has. -/
def Grows (g g' : Graph) : Prop :=
  ∀ x n, g.look x = some n → ∃ n', g'.look x = some n' ∧ n.before ⊆ n'.before ∧
    (n.pathDeps = none → n'.pathDeps = none)

theorem Grows.refl (g : Graph) : Grows g g :=
  fun _ n h => ⟨n, h, List.Subset.refl _, id⟩

theorem Grows.trans {g₁ g₂ g₃ : Graph} (h : Grows g₁ g₂) (h' : Grows g₂ g₃) : Grows g₁ g₃ := by
  intro x n hn
  obtain ⟨n₂, hn₂, hb, hd⟩ := h x n hn
  obtain ⟨n₃, hn₃, hb', hd'⟩ := h' x n₂ hn₂
  exact ⟨n₃, hn₃, fun _ h => hb' (hb h), hd' ∘ hd⟩

theorem Grows.has (h : Grows g g') {x : String} (hx : g.has x) : g'.has x := by
  obtain ⟨n, hn⟩ := has_iff_look.mp hx
  obtain ⟨n', hn', -⟩ := h x n hn
  exact has_iff_look.mpr ⟨n', hn'⟩

theorem Grows.waits (h : Grows g g') {x y : String} (hw : g.Waits x y) : g'.Waits x y := by
  obtain ⟨n, hn, hy⟩ := waits_iff_look.mp hw
  obtain ⟨n', hn', hb, -⟩ := h x n hn
  exact waits_iff_look.mpr ⟨n', hn', hb hy⟩

/-! ## Kinds and ids -/

theorem Sound.kind_setup (h : Sound table g) {s : String} {n : Node}
    (hn : g.look (setupId s) = some n) : n.kind = .setup := by
  cases hk : n.kind with
  | setup => rfl
  | step =>
    obtain ⟨i, hi, -⟩ := h.step hn hk
    exact absurd hi setupId_ne_stepId
  | paths =>
    obtain ⟨ps, hps, -⟩ := h.check hn hk
    exact absurd hps setupId_ne_nodeId

theorem Sound.kind_check (h : Sound table g) {x : String} (hx : IsCheck x) {n : Node}
    (hn : g.look x = some n) : n.kind = .paths := by
  cases hk : n.kind with
  | paths => rfl
  | setup =>
    obtain ⟨s, rfl, -⟩ := h.setup hn hk
    exact absurd hx not_isCheck_setupId
  | step =>
    obtain ⟨i, rfl, -⟩ := h.step hn hk
    exact absurd hx not_isCheck_stepId

theorem Sound.kind_step (h : Sound table g) {i : Nat} {n : Node}
    (hn : g.look (stepId i) = some n) : n.kind = .step := by
  cases hk : n.kind with
  | step => rfl
  | setup =>
    obtain ⟨s, hs, -⟩ := h.setup hn hk
    exact absurd hs.symm setupId_ne_stepId
  | paths =>
    obtain ⟨ps, hps, -⟩ := h.check hn hk
    exact absurd hps stepId_ne_nodeId

/-- The setup that a node is, with what it waits for. -/
theorem Sound.of_setupId (h : Sound table g) {s : String} {n : Node}
    (hn : g.look (setupId s) = some n) : definition? table s = some n.content ∧
      ∀ y ∈ n.before, (∃ t ∈ needs table s, y = setupId t) ∨ IsCheck y := by
  obtain ⟨t, ht, hd, hb⟩ := h.setup hn (h.kind_setup hn)
  obtain rfl := setupId_inj.mp ht
  exact ⟨hd, hb⟩

/-! ## The steps of the construction -/

/-- What `touched` can come to. -/
theorem touched_cases (pathIds : List String) (n : Node) :
    (n.touched pathIds = { n with pathDeps := none } ∧ pathIds = []) ∨
    (n.touched pathIds = n ∧ pathIds ≠ [] ∧ (n.id = checkoutId ∨ n.pathDeps = none)) ∨
    (∃ l, n.pathDeps = some l ∧ pathIds ≠ [] ∧ n.id ≠ checkoutId ∧ n.touched pathIds =
      { n with pathDeps := some (addAll l pathIds), before := addAll n.before pathIds }) := by
  unfold Node.touched
  split_ifs with hnil hco
  · exact Or.inl ⟨rfl, hnil⟩
  · exact Or.inr (Or.inl ⟨rfl, hnil, Or.inl hco⟩)
  · cases hd : n.pathDeps with
    | none => exact Or.inr (Or.inl ⟨rfl, hnil, Or.inr rfl⟩)
    | some l => exact Or.inr (Or.inr ⟨l, rfl, hnil, hco, rfl⟩)

theorem touched_kind (n : Node) : (n.touched pathIds).kind = n.kind := by
  rcases touched_cases pathIds n with ⟨h, -⟩ | ⟨h, -⟩ | ⟨_, -, -, -, h⟩ <;> rw [h]

theorem touched_content (n : Node) : (n.touched pathIds).content = n.content := by
  rcases touched_cases pathIds n with ⟨h, -⟩ | ⟨h, -⟩ | ⟨_, -, -, -, h⟩ <;> rw [h]

theorem subset_before_touched (n : Node) : n.before ⊆ (n.touched pathIds).before := by
  intro y hy
  rcases touched_cases pathIds n with ⟨h, -⟩ | ⟨h, -⟩ | ⟨_, -, -, -, h⟩ <;> rw [h]
  · exact hy
  · exact hy
  · exact mem_addAll.mpr (Or.inl hy)

/-- A visit does not change an unconditional node. -/
theorem touched_of_none {n : Node} (h : n.pathDeps = none) : n.touched pathIds = n := by
  rcases touched_cases pathIds n with ⟨h', -⟩ | ⟨h', -⟩ | ⟨l, hl, -⟩
  · rw [h', ← h]
  · exact h'
  · simp [h] at hl

/-- After a walk every node is as before or touched. -/
theorem PushedDown.look_cases {x : String} (h : PushedDown x pathIds g g') {z : String} {n' : Node}
    (hn' : g'.look z = some n') :
    ∃ n, g.look z = some n ∧ (n' = n ∨ n' = n.touched pathIds) := by
  by_cases hz : Relation.ReflTransGen (g.Flows pathIds) x z
  · rw [h.reached z hz, Option.map_eq_some_iff] at hn'
    obtain ⟨n, hn, rfl⟩ := hn'
    exact ⟨n, hn, Or.inr rfl⟩
  · rw [h.others z hz] at hn'
    exact ⟨n', hn', Or.inl rfl⟩

theorem PushedDown.has {x : String} (h : PushedDown x pathIds g g') {z : String} :
    g'.has z ↔ g.has z := has_of_ids h.ids

theorem PushedDown.grows {x : String} (h : PushedDown x pathIds g g') : Grows g g' := by
  intro z n hn
  by_cases hz : Relation.ReflTransGen (g.Flows pathIds) x z
  · refine ⟨n.touched pathIds, by rw [h.reached z hz, hn]; rfl, subset_before_touched n,
      fun hnone => ?_⟩
    rw [touched_of_none hnone]
    exact hnone
  · exact ⟨n, by rw [h.others z hz, hn], List.Subset.refl _, id⟩

theorem PushedDown.sound {x : String} (h : PushedDown x pathIds g g') (hg : Sound table g)
    (hp : ∀ p ∈ pathIds, IsCheck p) : Sound table g' where
  wf := h.wellFormed
  setup hn' hk := by
    obtain ⟨n, hn, rfl | rfl⟩ := h.look_cases hn'
    · exact hg.setup hn hk
    · obtain ⟨s, hs, hd, hb⟩ := hg.setup hn (by rwa [touched_kind] at hk)
      refine ⟨s, hs, by rwa [touched_content], fun y hy => ?_⟩
      rcases Node.mem_before_touched hy with hy | hy
      · exact hb y hy
      · exact Or.inr (hp y hy)
  step hn' hk := by
    obtain ⟨n, hn, rfl | rfl⟩ := h.look_cases hn'
    · exact hg.step hn hk
    · obtain ⟨i, hi, hb⟩ := hg.step hn (by rwa [touched_kind] at hk)
      refine ⟨i, hi, fun y hy => ?_⟩
      rcases Node.mem_before_touched hy with hy | hy
      · exact hb y hy
      · exact Or.inr (Or.inr (hp y hy))
  check hn' hk := by
    obtain ⟨n, hn, rfl | rfl⟩ := h.look_cases hn'
    · exact hg.check hn hk
    · have hc := hg.check hn (by rwa [touched_kind] at hk)
      rwa [touched_of_none hc.choose_spec.2.2.1]
  deps {z n' l} hn' hl := by
    obtain ⟨n, hn, rfl | rfl⟩ := h.look_cases hn'
    · exact hg.deps hn hl
    · rcases touched_cases pathIds n with ⟨ht, -⟩ | ⟨ht, -⟩ | ⟨l₀, hl₀, hne, -, ht⟩
      · simp [ht] at hl
      · rw [ht] at hl ⊢
        exact hg.deps hn hl
      · rw [ht] at hl ⊢
        obtain rfl := Option.some.inj hl
        refine ⟨addAll_ne_nil hne, fun p hpl => ?_⟩
        rcases mem_addAll.mp hpl with hp₀ | hp₀
        · obtain ⟨-, hall⟩ := hg.deps hn hl₀
          exact ⟨mem_addAll.mpr (Or.inl (hall p hp₀).1), (hall p hp₀).2⟩
        · exact ⟨mem_addAll.mpr (Or.inr hp₀), hp p hp₀⟩

theorem grows_addFresh {x : String} {kind : Kind} {content : Value} (hx : ¬ g.has x) :
    Grows g (g.addFresh x kind content pathIds) := by
  intro z n hn
  have hz : z ≠ x := fun h => hx (h ▸ has_iff_look.mpr ⟨n, hn⟩)
  exact ⟨n, by rw [look_addFresh hx, if_neg hz, hn], List.Subset.refl _, id⟩

theorem conditions_eq_some {l : List String} (h : conditions pathIds = some l) :
    l = addAll [] pathIds ∧ pathIds ≠ [] := by
  unfold conditions at h
  split_ifs at h with hnil
  exact ⟨(Option.some.inj h).symm, hnil⟩

/-- A new node keeps the invariant if it is as its kind says. -/
theorem Sound.addFresh (hg : Sound table g) {x : String} {kind : Kind} {content : Value}
    (hx : ¬ g.has x) (hp : ∀ p ∈ pathIds, g.has p ∧ IsCheck p)
    (hsetup : kind = .setup → ∃ s, x = setupId s ∧ definition? table s = some content)
    (hstep : kind = .step → ∃ i, x = stepId i)
    (hcheck : kind = .paths → pathIds = [] ∧
      ∃ ps, x = Check.nodeId ps ∧ content = .list ((Check.sortTexts ps).map .str)) :
    Sound table (g.addFresh x kind content pathIds) where
  wf := hg.wf.addFresh hx fun p h => (hp p h).1
  setup {z n} hn hk := by
    rw [look_addFresh hx] at hn
    split_ifs at hn with hz
    · obtain rfl := Option.some.inj hn
      obtain ⟨s, hs, hd⟩ := hsetup hk
      exact ⟨s, hz.trans hs, hd, fun y hy => Or.inr (hp y (by simpa using hy)).2⟩
    · exact hg.setup hn hk
  step {z n} hn hk := by
    rw [look_addFresh hx] at hn
    split_ifs at hn with hz
    · obtain rfl := Option.some.inj hn
      obtain ⟨i, hi⟩ := hstep hk
      exact ⟨i, hz.trans hi, fun y hy => Or.inr (Or.inr (hp y (by simpa using hy)).2)⟩
    · exact hg.step hn hk
  check {z n} hn hk := by
    rw [look_addFresh hx] at hn
    split_ifs at hn with hz
    · obtain rfl := Option.some.inj hn
      obtain ⟨hnil, ps, hps, hc⟩ := hcheck hk
      exact ⟨ps, hz.trans hps, hc, by simp [hnil, conditions], by simp [hnil]⟩
    · exact hg.check hn hk
  deps {z n l} hn hl := by
    rw [look_addFresh hx] at hn
    split_ifs at hn
    · obtain rfl := Option.some.inj hn
      obtain ⟨rfl, hne⟩ := conditions_eq_some hl
      exact ⟨addAll_ne_nil hne, fun p h => ⟨h, (hp p (by simpa using h)).2⟩⟩
    · exact hg.deps hn hl

theorem grows_link {x y : String} : Grows g (g.link x y) := by
  intro z n hn
  rw [look_link, hn]
  refine ⟨_, rfl, ?_⟩
  split_ifs
  · exact ⟨fun w hw => mem_addOnce.mpr (Or.inl hw), id⟩
  · exact ⟨List.Subset.refl _, id⟩

/-- What `x` may wait for: a setup for a setup that it needs, a step for any setup, path check or
earlier step. -/
inductive MayWait (table : Value) : String → String → Prop
  | need {s t : String} (h : t ∈ needs table s) : MayWait table (setupId s) (setupId t)
  | setup (i : Nat) (s : String) : MayWait table (stepId i) (setupId s)
  | earlier {i j : Nat} (h : j < i) : MayWait table (stepId i) (stepId j)

theorem Sound.link (hg : Sound table g) {x y : String} (hx : g.has x) (hy : g.has y)
    (h : MayWait table x y) : Sound table (g.link x y) where
  wf := hg.wf.link hx hy
  setup {z n'} hn' hk := by
    rw [look_link, Option.map_eq_some_iff] at hn'
    obtain ⟨n, hn, rfl⟩ := hn'
    split_ifs at hk ⊢ with hz
    · obtain ⟨s, hs, hd, hb⟩ := hg.setup hn hk
      refine ⟨s, hs, hd, fun w hw => ?_⟩
      rcases mem_addOnce.mp hw with hw | rfl
      · exact hb w hw
      · subst hz
        cases h with
        | need ht => exact Or.inl ⟨_, setupId_inj.mp hs ▸ ht, rfl⟩
        | setup => exact absurd hs.symm setupId_ne_stepId
        | earlier => exact absurd hs.symm setupId_ne_stepId
    · exact hg.setup hn hk
  step {z n'} hn' hk := by
    rw [look_link, Option.map_eq_some_iff] at hn'
    obtain ⟨n, hn, rfl⟩ := hn'
    split_ifs at hk ⊢ with hz
    · obtain ⟨i, hi, hb⟩ := hg.step hn hk
      refine ⟨i, hi, fun w hw => ?_⟩
      rcases mem_addOnce.mp hw with hw | rfl
      · exact hb w hw
      · subst hz
        cases h with
        | need => exact absurd hi setupId_ne_stepId
        | setup => exact Or.inr (Or.inl ⟨_, rfl⟩)
        | earlier hj => exact Or.inl ⟨_, stepId_inj.mp hi ▸ hj, rfl⟩
    · exact hg.step hn hk
  check {z n'} hn' hk := by
    rw [look_link, Option.map_eq_some_iff] at hn'
    obtain ⟨n, hn, rfl⟩ := hn'
    split_ifs at hk ⊢ with hz
    · obtain ⟨ps, hps, -⟩ := hg.check hn hk
      subst hz
      cases h with
      | need => exact absurd hps setupId_ne_nodeId
      | setup => exact absurd hps stepId_ne_nodeId
      | earlier => exact absurd hps stepId_ne_nodeId
    · exact hg.check hn hk
  deps {z n' l} hn' hl := by
    rw [look_link, Option.map_eq_some_iff] at hn'
    obtain ⟨n, hn, rfl⟩ := hn'
    split_ifs at hl ⊢
    · obtain ⟨hne, hall⟩ := hg.deps hn hl
      exact ⟨hne, fun p hp => ⟨mem_addOnce.mpr (Or.inl (hall p hp).1), (hall p hp).2⟩⟩
    · exact hg.deps hn hl

end Graph

end StepLoom
