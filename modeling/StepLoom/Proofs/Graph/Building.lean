import StepLoom.Compile.Job
import StepLoom.Proofs.Graph.Changes
import StepLoom.Proofs.Graph.Invariant

/-!
# Graphs on the way

The graph of a job is built from the empty one by four changes: a node is added, an edge is added,
contents are replaced, conditions are pushed down from a node. `Underway` says that a graph comes
from such changes, each made as the construction makes it.

**Theorem (`underway_of_ofJob`).** The graph of a job is underway, and so are the graphs that its
construction passes through, whatever the job and the table hold: names that are not texts, names
that are not defined twice, setups that need each other, mappings that stand at several places.

**Maintained whether work fails or not.** Operations fail halfway: a setup is added, and the next
one that it needs is not defined. `Upholds` is about the graph that an operation leaves, with an
answer or with a fault. What the four changes maintain (`Maintained`) is upheld by every operation,
and `Upholds.bind` puts operations together. An edge is recorded at its two ends one after the
other, so all depends on edges being asked for between nodes that are there: each operation knows
the nodes that it was given or has just added, and no node is ever lost.
-/

namespace StepLoom

/-! ## Kinds -/

namespace Kind

/-- The ids of nodes of a kind. -/
def Names : Kind → String → Prop
  | step, x => ∃ i, x = Graph.stepId i
  | setup, x => ∃ s, x = Graph.setupId s
  | paths, x => Graph.IsCheck x

/-- What a node of a kind may wait for. -/
def Awaits : Kind → String → Prop
  | step, _ => True
  | setup, y => setup.Names y ∨ paths.Names y
  | paths, y => y = Graph.checkoutId

variable {k l : Kind} {x y : String}

/-- An id is that of one kind only. -/
theorem Names.unique (hk : k.Names x) (hl : l.Names x) : k = l := by
  cases k <;> cases l
  case step.step | setup.setup | paths.paths => rfl
  case step.setup =>
    obtain ⟨⟨i, rfl⟩, ⟨s, hs⟩⟩ := And.intro hk hl
    exact absurd hs.symm Graph.setupId_ne_stepId
  case setup.step =>
    obtain ⟨⟨s, rfl⟩, ⟨i, hi⟩⟩ := And.intro hk hl
    exact absurd hi Graph.setupId_ne_stepId
  case step.paths =>
    obtain ⟨i, rfl⟩ := hk
    exact absurd hl Graph.not_isCheck_stepId
  case paths.step =>
    obtain ⟨i, rfl⟩ := hl
    exact absurd hk Graph.not_isCheck_stepId
  case setup.paths =>
    obtain ⟨s, rfl⟩ := hk
    exact absurd hl Graph.not_isCheck_setupId
  case paths.setup =>
    obtain ⟨s, rfl⟩ := hl
    exact absurd hk Graph.not_isCheck_setupId

/-- The id tells whether a node is a path check. -/
theorem Names.paths_iff (hk : k.Names x) : k = paths ↔ Graph.IsCheck x := by
  constructor
  · rintro rfl
    exact hk
  · exact fun hx => hk.unique (l := paths) hx

theorem awaits_check (hk : k ≠ paths) (hy : Graph.IsCheck y) : k.Awaits y := by
  cases k with
  | step => trivial
  | setup => exact Or.inr hy
  | paths => exact absurd rfl hk

/-- Whatever is no path check may wait for setups. -/
theorem awaits_setup (hx : ¬ Graph.IsCheck x) (hk : k.Names x) (hy : setup.Names y) :
    k.Awaits y := by
  cases k with
  | step => trivial
  | setup => exact Or.inl hy
  | paths => exact absurd hk hx

/-- Whatever it is, a node may wait for the checkout. -/
theorem awaits_checkout (k : Kind) : k.Awaits Graph.checkoutId := by
  cases k with
  | step => trivial
  | setup => exact Or.inl ⟨Graph.checkoutSetup, rfl⟩
  | paths => rfl

end Kind

namespace Graph

/-- The ids are those of path checks in the graph. -/
def HasChecks (g : Graph) (ids : List String) : Prop := ∀ p ∈ ids, g.has p ∧ IsCheck p

/-- All nodes of one graph are in another one. -/
def Extends (g g' : Graph) : Prop := ∀ x, g.has x → g'.has x

/-- Graphs that the construction of a job's graph comes across. Path checks are added without
conditions, and the only thing that they ever wait for is the checkout. -/
inductive Underway : Graph → Prop
  | empty : Underway {}
  | add {g : Graph} {x : String} {kind : Kind} {content : Value} {ids : List String}
      (hg : Underway g) (hx : ¬ g.has x) (hkind : kind = .paths ↔ IsCheck x)
      (hids : HasChecks g ids) (hcheck : kind = .paths → ids = []) :
      Underway (g.addFresh x kind content ids)
  | link {g : Graph} {x y : String} (hg : Underway g) (hx : g.has x) (hy : g.has y)
      (hcheck : IsCheck x → y = checkoutId) : Underway (g.link x y)
  | refill {g : Graph} (hg : Underway g) (f : Node → Value) :
      Underway ⟨g.nodes.map fun n => { n with content := f n }⟩
  | push {g g' : Graph} {x : String} {ids : List String} (hg : Underway g) (hx : g.has x)
      (hids : HasChecks g ids) (h : exec (pushDown x ids) g = (.ok (), g')) : Underway g'

variable {α β : Type} {g g' : Graph} {x y : String} {ids : List String} {n : Node}

theorem HasChecks.extend (h : HasChecks g ids) (hg : Extends g g') : HasChecks g' ids :=
  fun p hp => ⟨hg p (h p hp).1, (h p hp).2⟩

theorem hasChecks_nil : HasChecks g [] := by simp [HasChecks]

theorem Extends.refl (g : Graph) : Extends g g := fun _ hx => hx

theorem Extends.trans {g₁ g₂ : Graph} (h : Extends g g₁) (h' : Extends g₁ g₂) : Extends g g₂ :=
  fun x hx => h' x (h x hx)

/-! ## What all graphs underway have in common -/

theorem WellFormed.map (hg : g.WellFormed) {f : Node → Node} (hf : Inner f) :
    WellFormed ⟨g.nodes.map f⟩ where
  ids_nodup := by
    have hids : ids ⟨g.nodes.map f⟩ = g.ids := by
      rw [Graph.ids, List.map_map, Graph.ids]
      exact List.map_congr_left fun n _ => hf.id n
    rw [hids]
    exact hg.ids_nodup
  linked a b := by
    have hwaits : Waits ⟨g.nodes.map f⟩ a b ↔ g.Waits a b := by
      unfold Waits
      rw [find?_map hf.id]
      cases g.find? a <;> simp [hf.before]
    have hfrees : Frees ⟨g.nodes.map f⟩ b a ↔ g.Frees b a := by
      unfold Frees
      rw [find?_map hf.id]
      cases g.find? b <;> simp [hf.after]
    rw [hwaits, hfrees, hg.linked]
  before_nodup n h := by
    obtain ⟨m, hm, rfl⟩ := List.mem_map.mp h
    rw [hf.before]
    exact hg.before_nodup m hm
  after_nodup n h := by
    obtain ⟨m, hm, rfl⟩ := List.mem_map.mp h
    rw [hf.after]
    exact hg.after_nodup m hm

theorem inner_content {f : Node → Value} : Inner fun n => { n with content := f n } :=
  ⟨fun _ => rfl, fun _ => rfl, fun _ => rfl⟩

/-- Other contents leave the rest of a node as it is. -/
theorem look_refill {f : Node → Value} {n' : Node}
    (hn' : look ⟨g.nodes.map fun n => { n with content := f n }⟩ x = some n') :
    ∃ n v, g.look x = some n ∧ n' = { n with content := v } := by
  rw [look, find?_map inner_content.id, Option.map_map, Option.map_eq_some_iff] at hn'
  obtain ⟨m, hm, rfl⟩ := hn'
  exact ⟨_, f m, look_of_find? hm, rfl⟩

/-- Pushing conditions down works on every well-formed graph. -/
theorem WellFormed.pushedDown (hg : g.WellFormed) (hx : g.has x) (hids : HasChecks g ids)
    (h : exec (pushDown x ids) g = (.ok (), g')) : PushedDown x ids g g' := by
  obtain ⟨g₁, hex, hpushed⟩ := pushDown_spec hg hx fun p hp => (hids p hp).1
  obtain rfl : g₁ = g' := (Prod.mk.inj (hex.symm.trans h)).2
  exact hpushed

theorem Underway.wf (h : g.Underway) : g.WellFormed := by
  induction h with
  | empty => exact wellFormed_empty
  | add _ hx _ hids _ ih => exact ih.addFresh hx fun p hp => (hids p hp).1
  | link _ hx hy _ ih => exact ih.link hx hy
  | refill _ f ih => exact ih.map inner_content
  | push _ hx hids h ih => exact (ih.pushedDown hx hids h).wellFormed

/-- **A path check always runs, and waits for the checkout at most.** -/
theorem Underway.check (h : g.Underway) (hx : IsCheck x) (hn : g.look x = some n) :
    n.pathDeps = none ∧ ∀ y ∈ n.before, y = checkoutId := by
  induction h generalizing x n with
  | empty => cases hn
  | add _ hy hkind _ hnil ih =>
    rw [look_addFresh hy] at hn
    split_ifs at hn with hxy
    · obtain rfl := Option.some.inj hn
      obtain rfl := hnil (hkind.mpr (hxy ▸ hx))
      exact ⟨rfl, by simp⟩
    · exact ih hx hn
  | link _ _ _ hcheck ih =>
    rw [look_link, Option.map_eq_some_iff] at hn
    obtain ⟨m, hm, rfl⟩ := hn
    obtain ⟨hdeps, hbefore⟩ := ih hx hm
    split_ifs with hxy
    · refine ⟨hdeps, fun y hy => ?_⟩
      rcases mem_addOnce.mp hy with hy | rfl
      · exact hbefore y hy
      · exact hcheck (hxy ▸ hx)
    · exact ⟨hdeps, hbefore⟩
  | refill _ f ih =>
    obtain ⟨m, v, hm, rfl⟩ := look_refill hn
    exact (ih hx hm :)
  | push hg hz hids h ih =>
    -- A walk does not change unconditional nodes.
    obtain ⟨m, hm, rfl | rfl⟩ := (hg.wf.pushedDown hz hids h).look_cases hn
    · exact ih hx hm
    · rw [touched_of_none (ih hx hm).1]
      exact ih hx hm

/-! ## Work on graphs of a kind -/

/-- Each of the four changes takes graphs with `I` to graphs with `I`. -/
structure Maintained (I : Graph → Prop) : Prop where
  wf {g : Graph} : I g → g.WellFormed
  add {g : Graph} {x : String} {kind : Kind} {ids : List String} (content : Value) : I g →
    ¬ g.has x → kind.Names x → HasChecks g ids → (kind = .paths → ids = []) →
      I (g.addFresh x kind content ids)
  link {g : Graph} {x y : String} : I g → g.has x → g.has y →
    (∀ k : Kind, k.Names x → k.Awaits y) → I (g.link x y)
  refill {g : Graph} (f : Node → Value) : I g →
    I ⟨g.nodes.map fun n => { n with content := f n }⟩
  push {g g' : Graph} {x : String} {ids : List String} : I g → g.has x → HasChecks g ids →
    exec (pushDown x ids) g = (.ok (), g') → I g'

/-- From a graph with `I` the work leaves one with `I` and with all the nodes, whether it fails or
not. Its answer satisfies `Q`. -/
def Upholds (I : Graph → Prop) (w : Build α) (g : Graph) (Q : α → Graph → Prop) : Prop :=
  I g → I (exec w g).2 ∧ Extends g (exec w g).2 ∧ ∀ a g', exec w g = (.ok a, g') → Q a g'

/-- Nothing is to be said of the answer. -/
abbrev Stays (I : Graph → Prop) (w : Build α) (g : Graph) : Prop := Upholds I w g fun _ _ => True

variable {I : Graph → Prop} {Q : α → Graph → Prop} {R : β → Graph → Prop}

theorem Upholds.bind {w : Build α} {f : α → Build β} (hw : Upholds I w g Q)
    (hf : ∀ a g', Q a g' → Extends g g' → Upholds I (f a) g' R) : Upholds I (w >>= f) g R := by
  intro hg
  obtain ⟨hI, hext, hanswer⟩ := hw hg
  rw [exec_bind]
  rcases hexec : exec w g with ⟨e | a, g₁⟩
  · rw [hexec] at hI hext
    exact ⟨hI, hext, fun b g' h => by cases (Prod.mk.inj h).1⟩
  · rw [hexec] at hI hext
    obtain ⟨hI', hext', hanswer'⟩ := hf a g₁ (hanswer a g₁ hexec) hext hI
    exact ⟨hI', hext.trans hext', hanswer'⟩

/-- Work that comes to a known graph. -/
theorem upholds_of_exec {w : Build α} {a : α} (he : exec w g = (.ok a, g'))
    (h : I g → I g' ∧ Extends g g' ∧ Q a g') : Upholds I w g Q := by
  intro hg
  obtain ⟨hI, hext, hq⟩ := h hg
  rw [he]
  refine ⟨hI, hext, fun b g₁ hb => ?_⟩
  obtain ⟨hab, rfl⟩ := Prod.mk.inj hb
  obtain rfl := Except.ok.inj hab
  exact hq

theorem upholds_pure {a : α} (h : Q a g) : Upholds I (pure a) g Q :=
  upholds_of_exec rfl fun hg => ⟨hg, .refl g, h⟩

/-- Work that only fails has no answers. -/
theorem upholds_throw (e : Fault) : Upholds I (throw e : Build α) g Q :=
  fun hg => ⟨hg, .refl g, fun a g' h => by cases (Prod.mk.inj h).1⟩

theorem upholds_get : Upholds I (get : Build Graph) g fun a g' => a = g ∧ g' = g :=
  upholds_of_exec rfl fun hg => ⟨hg, .refl g, rfl, rfl⟩

theorem upholds_liftM (v : Except Fault α) : Upholds I (liftM v) g fun a _ => v = .ok a := by
  cases v with
  | ok a => exact upholds_pure rfl
  | error e => exact upholds_throw e

/-- The nodes of the graph are there with the answer, too. -/
theorem Upholds.has {w : Build α} (h : Upholds I w g Q) (hx : g.has x) :
    Upholds I w g fun _ g' => g'.has x := by
  intro hg
  obtain ⟨hI, hext, -⟩ := h hg
  refine ⟨hI, hext, fun a g' hexec => ?_⟩
  rw [hexec] at hext
  exact hext x hx

theorem Upholds.discard {w : Build α} (h : Upholds I w g Q) : Stays I (discard w) g := by
  have hdiscard : Functor.discard w = w >>= fun _ => pure () := by
    rw [Functor.discard, map_const, Function.comp, map_eq_pure_bind]
  rw [hdiscard]
  exact h.bind fun _ _ _ _ => upholds_pure trivial

/-- The id is that of a setup in the graph. -/
def IsSetup (x : String) (g : Graph) : Prop := g.has x ∧ Kind.setup.Names x

section Operations

variable (hI : Maintained I)
include hI

/-! ## Nodes and edges -/

theorem stays_addEdge (hx : g.has x) (hy : g.has y) (hmay : ∀ k : Kind, k.Names x → k.Awaits y) :
    Stays I (addEdge x y) g :=
  upholds_of_exec (exec_addEdge hx hy) fun hg =>
    ⟨hI.link hg hx hy hmay, fun z hz => by simpa using hz, trivial⟩

theorem upholds_addNode {kind : Kind} {content : Value} (hname : kind.Names x)
    (hids : HasChecks g ids) (hcheck : kind = .paths → ids = []) :
    Upholds I (addNode x kind content ids) g fun _ g' => g'.has x := by
  by_cases hx : g.has x
  · exact upholds_of_exec (exec_addNode_old hx) fun hg => ⟨hg, .refl g, hx⟩
  · exact upholds_of_exec (exec_addNode_new hx fun p hp => (hids p hp).1) fun hg =>
      ⟨hI.add content hg hx hname hids hcheck, fun z hz => (has_addFresh hx).mpr (Or.inl hz),
        (has_addFresh hx).mpr (Or.inr rfl)⟩

/-- A path check is there once it is used. -/
theorem upholds_useCheck (patterns : List String) :
    Upholds I (useCheck patterns) g fun id g' => HasChecks g' [id] := by
  have hname : Kind.paths.Names (Check.nodeId (Check.sortTexts patterns)) := ⟨_, rfl⟩
  refine (upholds_addNode hI hname hasChecks_nil fun _ => rfl).bind fun _ g₁ hnode _ => ?_
  refine upholds_pure fun p hp => ?_
  rw [List.mem_singleton.mp hp]
  exact ⟨hnode, hname⟩

/-! ## Contents and conditions -/

/-- Other contents leave the nodes where they are. -/
theorem stays_refill {w : Build Unit} (f : Node → Value)
    (h : exec w g = (.ok (), ⟨g.nodes.map fun n => { n with content := f n }⟩)) : Stays I w g :=
  upholds_of_exec h fun hg => ⟨hI.refill f hg, fun x hx => by
    rw [has, find?_map inner_content.id, Option.isSome_map]
    exact hx, trivial⟩

theorem stays_replay (edits : List Edit) : Stays I (replay edits) g :=
  stays_refill hI (fun n => n.content.applyAll edits) rfl

theorem stays_refresh (isNew : Bool) (x : String) (content : Value) :
    Stays I (refresh isNew x content) g := by
  unfold refresh
  split_ifs
  · refine stays_refill hI (fun n => if n.id = x then content else n.content) ?_
    rw [exec_modify, update_content]
  · exact upholds_pure trivial

theorem stays_pushDown (hx : g.has x) (hids : HasChecks g ids) : Stays I (pushDown x ids) g := by
  intro hg
  obtain ⟨g', hexec, hpushed⟩ := pushDown_spec (hI.wf hg) hx fun p hp => (hids p hp).1
  exact upholds_of_exec hexec
    (fun hg => ⟨hI.push hg hx hids hexec, fun z hz => hpushed.has.mpr hz, trivial⟩) hg

/-! ## Setups -/

/-- Names are awaited one after another, up to one that fails. -/
theorem stays_awaitEach {add : Value → Build String} {names : List Value} (hx : ¬ IsCheck x)
    (hhas : g.has x) (hadd : ∀ name g', Extends g g' → Upholds I (add name) g' IsSetup) :
    Stays I (awaitEach x add names) g := by
  induction names generalizing g with
  | nil => exact upholds_pure trivial
  | cons name rest ih =>
    refine (hadd name g (.refl g)).bind fun y g₁ ⟨hy, hname⟩ h₁ => ?_
    have hmay : ∀ k : Kind, k.Names x → k.Awaits y := fun k hk => Kind.awaits_setup hx hk hname
    refine (stays_addEdge hI (h₁ x hhas) hy hmay).bind fun _ g₂ _ h₂ => ?_
    exact ih ((h₁.trans h₂) x hhas) fun name g' hg' => hadd name g' ((h₁.trans h₂).trans hg')

/-- **A reference upholds what the changes maintain**, whether its setup is known or new, and also
if one of the setups that it leads to is not defined. -/
theorem upholds_useSetupWithin {table : Value} {depth : Nat} {name : Value}
    (hids : HasChecks g ids) : Upholds I (useSetupWithin table depth name ids) g IsSetup := by
  induction depth generalizing g name ids with
  | zero => exact upholds_throw _
  | succ depth ih =>
    rw [useSetupWithin]
    refine (upholds_liftM _).bind fun text g₁ _ h₁ => ?_
    have hown : HasChecks g₁ (if name.equal (.str checkoutSetup) then [] else ids) := by
      split_ifs
      · exact hasChecks_nil
      · exact hids.extend h₁
    generalize (if name.equal (.str checkoutSetup) then [] else ids) = own at hown
    have hname : Kind.setup.Names (setupId text) := ⟨text, rfl⟩
    refine upholds_get.bind fun _ g₁ hget _ => ?_
    obtain ⟨rfl, rfl⟩ := hget
    split_ifs with hhas
    · refine (stays_pushDown hI hhas hown).bind fun _ g₂ _ h₂ => ?_
      exact upholds_pure ⟨h₂ _ hhas, hname⟩
    · refine (upholds_liftM _).bind fun found g₂ _ h₂ => ?_
      cases found with
      | none => exact upholds_throw _
      | some definition =>
        refine (upholds_addNode hI hname (hown.extend h₂) (by simp)).bind fun _ g₃ hnode h₃ => ?_
        have hown₃ := (hown.extend h₂).extend h₃
        cases definition.fields? with
        | none => exact upholds_pure ⟨hnode, hname⟩
        | some fields =>
          refine (upholds_liftM _).bind fun names g₄ _ h₄ => ?_
          have hawait : Stays I
              (awaitEach (setupId text) (fun n => useSetupWithin table depth n own) names) g₄ :=
            stays_awaitEach hI not_isCheck_setupId (h₄ _ hnode) fun _ _ hg' =>
              ih ((hown₃.extend h₄).extend hg')
          exact hawait.bind fun _ g₅ _ h₅ => upholds_pure ⟨h₅ _ (h₄ _ hnode), hname⟩

theorem stays_awaitSetups {table : Value} {setup : Option Value} (hx : ¬ IsCheck x)
    (hhas : g.has x) (hids : HasChecks g ids) : Stays I (awaitSetups table x setup ids) g :=
  (upholds_liftM _).bind fun _ _ _ h₁ => stays_awaitEach hI hx (h₁ x hhas) fun _ _ h₂ =>
    upholds_useSetupWithin hI ((hids.extend h₁).extend h₂)

theorem stays_useSetups {table : Value} {names : List Value} :
    Stays I (useSetups table names) g := by
  induction names generalizing g with
  | nil => exact upholds_pure trivial
  | cons name rest ih =>
    exact (upholds_useSetupWithin hI hasChecks_nil).discard.bind fun _ _ _ _ => ih

/-! ## Steps -/

/-- What is left to do for a step once its node is there. -/
theorem stays_finishStep {table : Value} {index : Nat} {isNew : Bool}
    {popped plain : Value × List Edit} {setup : Option Value} (hnode : g.has (stepId index))
    (hbefore : index = 0 ∨ g.has (stepId (index - 1))) (hids : HasChecks g ids) :
    Stays I (finishStep table index isNew popped plain setup ids) g := by
  refine (stays_refresh hI _ _ _).bind fun _ g₁ _ h₁ => (stays_replay hI _).bind fun _ g₂ _ h₂ => ?_
  have hext := h₁.trans h₂
  refine (stays_awaitSetups hI not_isCheck_stepId (hext _ hnode) (hids.extend hext)).bind
    fun _ g₃ _ h₃ => (stays_refresh hI _ _ _).bind fun _ g₄ _ h₄ => ?_
  refine (stays_replay hI _).bind fun _ g₅ _ h₅ => ?_
  have hext := (hext.trans h₃).trans (h₄.trans h₅)
  split_ifs with hindex
  · -- A step may wait for anything, so for the one before it, too.
    have hmay : ∀ k : Kind, k.Names (stepId index) → k.Awaits (stepId (index - 1)) := fun k hk => by
      obtain rfl := hk.unique (l := .step) ⟨index, rfl⟩
      trivial
    have hold := hbefore.resolve_left (Nat.ne_of_gt hindex)
    exact (stays_addEdge hI (hext _ hnode) (hext _ hold) hmay).bind
      fun _ _ _ _ => upholds_pure trivial
  · exact upholds_pure trivial

theorem upholds_enterStep {table content : Value} {index : Nat} {popped plain : Value × List Edit}
    {setup : Option Value} (hbefore : index = 0 ∨ g.has (stepId (index - 1)))
    (hids : HasChecks g ids) :
    Upholds I (enterStep table index content popped plain setup ids) g
      fun _ g' => g'.has (stepId index) := by
  have hname : Kind.step.Names (stepId index) := ⟨index, rfl⟩
  rw [enterStep_eq]
  refine upholds_get.bind fun _ g₁ hget _ => ?_
  obtain ⟨rfl, rfl⟩ := hget
  refine (upholds_addNode hI hname hids (by simp)).bind fun _ g₂ hnode h₂ => ?_
  exact (stays_finishStep hI hnode (hbefore.imp_right (h₂ _)) (hids.extend h₂)).has hnode

theorem upholds_usePaths {paths : Option Value} :
    Upholds I (usePaths paths) g fun ids g' => HasChecks g' ids := by
  refine (upholds_liftM _).bind fun patterns _ _ _ => ?_
  split_ifs
  · exact upholds_pure hasChecks_nil
  · refine (upholds_liftM _).bind fun texts _ _ _ => ?_
    exact (upholds_useCheck hI texts).bind fun id _ hid _ => upholds_pure hid

/-- **A step upholds what the changes maintain**, given the step before it. -/
theorem upholds_addStep {table step : Value} {index : Nat}
    (hbefore : index = 0 ∨ g.has (stepId (index - 1))) :
    Upholds I (addStep table index step) g fun _ g' => g'.has (stepId index) := by
  rw [addStep_eq]
  refine (upholds_liftM _).bind fun taken g₁ _ h₁ => ?_
  refine (upholds_usePaths hI).bind fun ids g₂ hids h₂ => ?_
  exact upholds_enterStep hI (hbefore.imp_right ((h₁.trans h₂) _)) hids

theorem upholds_addSteps {table : Value} {index : Nat} {steps : List Value} {log : List Edit}
    (hbefore : index = 0 ∨ g.has (stepId (index - 1))) :
    Upholds I (addSteps table index steps log) g
      fun _ g' => steps ≠ [] → g'.has (stepId index) := by
  induction steps generalizing g index log with
  | nil => exact upholds_pure fun h => absurd rfl h
  | cons step rest ih =>
    refine (upholds_addStep hI hbefore).bind fun _ g₁ hnode _ => ?_
    have hnext : index + 1 = 0 ∨ g₁.has (stepId (index + 1 - 1)) := Or.inr hnode
    exact (ih hnext).bind fun _ g₂ _ h₂ => upholds_pure fun _ => h₂ _ hnode

/-! ## Path checks and the checkout -/

theorem stays_awaitCheckoutFrom {nodes : List Node} (hnodes : ∀ n ∈ nodes, g.has n.id) :
    Stays I (awaitCheckoutFrom nodes) g := by
  induction nodes generalizing g with
  | nil => exact upholds_pure trivial
  | cons n rest ih =>
    obtain ⟨hn, hrest⟩ := List.forall_mem_cons.mp hnodes
    rw [awaitCheckoutFrom]
    split_ifs
    · refine upholds_get.bind fun _ g₁ hget _ => ?_
      obtain ⟨rfl, rfl⟩ := hget
      split_ifs with hmissing
      · exact (upholds_throw (Q := fun _ _ => False) _).bind fun _ _ hfalse _ => hfalse.elim
      · have hcheckout : g₁.has checkoutId := by simpa using hmissing
        refine (stays_addEdge hI hn hcheckout fun k _ => k.awaits_checkout).bind fun _ g₂ _ h₂ => ?_
        exact ih fun m hm => h₂ _ (hrest m hm)
    · exact ih hrest

theorem stays_awaitCheckout : Stays I awaitCheckout g := by
  refine upholds_get.bind fun _ g₁ hget _ => ?_
  obtain ⟨rfl, rfl⟩ := hget
  exact stays_awaitCheckoutFrom hI fun n hn => has_iff_mem_ids.mpr (List.mem_map_of_mem hn)

/-! ## Jobs -/

theorem stays_addJob {table job : Value} : Stays I (addJob table job) g := by
  unfold addJob
  refine (upholds_liftM _).bind fun field _ _ _ => ?_
  dsimp only
  cases hgiven : Value.given? field with
  | none =>
    refine (upholds_pure (Q := fun _ _ => True) trivial).bind fun _ _ _ _ => ?_
    refine (upholds_liftM _).bind fun _ _ _ _ => (stays_replay hI _).bind fun _ _ _ _ => ?_
    refine (upholds_liftM _).bind fun _ _ _ _ => (stays_useSetups hI).bind fun _ _ _ _ => ?_
    exact (stays_awaitCheckout hI).bind fun _ _ _ _ => upholds_pure trivial
  | some v =>
    refine (upholds_liftM _).bind fun steps g₁ hsteps _ => ?_
    -- Steps are given, so there is a first one for the job's own setups.
    have hne : steps ≠ [] := by
      refine Value.members_ne_nil ?_ hsteps
      simpa using (Option.filter_eq_some_iff.mp hgiven).2
    refine (upholds_addSteps hI (Or.inl rfl)).bind fun _ g₂ hfirst _ => ?_
    refine (upholds_liftM _).bind fun _ g₃ _ h₃ => (stays_replay hI _).bind fun _ g₄ _ h₄ => ?_
    have hfirst := (h₃.trans h₄) _ (hfirst hne)
    refine (stays_awaitSetups hI not_isCheck_stepId hfirst hasChecks_nil).bind fun _ _ _ _ => ?_
    exact (stays_awaitCheckout hI).bind fun _ _ _ _ => upholds_pure trivial

/-- **What the changes maintain holds of the graph of a job.** -/
theorem Maintained.of_ofJob (hempty : I {}) {table job : Value} {left : Value × List Edit}
    (h : ofJob table job = .ok (g, left)) : I g := by
  have hleft : I (exec (addJob table job) {}).2 := (stays_addJob hI hempty).1
  rw [ofJob] at h
  split at h
  · next hrun =>
    obtain ⟨rfl, -⟩ := Prod.mk.inj (Except.ok.inj h)
    rwa [show exec (addJob table job) {} = _ from hrun] at hleft
  · cases h

end Operations

theorem maintained_underway : Maintained Underway where
  wf := Underway.wf
  add _ hg hx hname hids hcheck := hg.add hx hname.paths_iff hids hcheck
  link hg hx hy hmay := hg.link hx hy fun hcheck => hmay .paths hcheck
  refill f hg := hg.refill f
  push := Underway.push

/-- **The graph of a job is underway.** -/
theorem underway_of_ofJob {table job : Value} {left : Value × List Edit}
    (h : ofJob table job = .ok (g, left)) : g.Underway := maintained_underway.of_ofJob .empty h

end Graph

end StepLoom
