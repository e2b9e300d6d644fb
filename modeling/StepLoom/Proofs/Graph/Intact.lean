import StepLoom.Proofs.Graph.Calls
import StepLoom.Proofs.Graph.Regular

/-!
# Graphs stay intact

What may be relied on in every graph that is built by calls: nodes are stored under their own ids,
edges lead to nodes and are recorded at both ends, conditions are path checks that a node waits for,
path checks wait for the checkout only and setups for setups and path checks only (`Intact`).

**Theorem (`built_intact`).** Whatever calls are made in turn, the graph is intact after each of
them, whether it returns or fails, as long as a call names nodes that are there: the node it starts
at, path checks, the step before the one it adds. Steps that are added from 0 upwards name no step
that is missing, also if their setups are not defined: whatever comes of its setups, a step whose
`paths` can be read has its node.

The proof is about `Regular` graphs, which are what the calls keep.
-/

namespace StepLoom

namespace Graph

variable {g g' : Graph} {x y : String} {k : Kind}

/-! ## Intact graphs -/

/-- The kind of a node, if there is one. -/
def kind? (g : Graph) (x : String) : Option Kind := (g.find? x).map (·.kind)

/-- The representation invariant of a graph. -/
structure Intact (g : Graph) : Prop where
  /-- Each node is what its own id leads to. -/
  stored : ∀ n ∈ g.nodes, g.find? n.id = some n
  /-- What nodes wait for, and what waits for them, are nodes, each recorded once. -/
  before : ∀ n ∈ g.nodes, n.before.Nodup ∧ ∀ y ∈ n.before, g.has y
  after : ∀ n ∈ g.nodes, n.after.Nodup ∧ ∀ y ∈ n.after, g.has y
  /-- An edge is recorded at both of its ends, or at none. -/
  linked : ∀ m ∈ g.nodes, ∀ n ∈ g.nodes, n.id ∈ m.before ↔ m.id ∈ n.after
  /-- Conditions are path checks, one at least, that the node waits for. -/
  deps : ∀ n ∈ g.nodes, ∀ l, n.pathDeps = some l →
    l ≠ [] ∧ l.Nodup ∧ ∀ p ∈ l, g.kind? p = some .paths ∧ p ∈ n.before
  check : ∀ n ∈ g.nodes, n.kind = .paths → n.pathDeps = none ∧ ∀ y ∈ n.before, y = checkoutId
  setup : ∀ n ∈ g.nodes, n.kind = .setup →
    ∀ y ∈ n.before, g.kind? y = some .setup ∨ g.kind? y = some .paths

theorem kind?_eq_some : g.kind? x = some k ↔ ∃ n, g.look x = some n ∧ n.kind = k := by
  rw [kind?, look]
  cases g.find? x with
  | none => simp
  | some n => simp [Node.bare]

theorem has_of_kind? (h : g.kind? x = some k) : g.has x := by
  obtain ⟨n, hn, -⟩ := kind?_eq_some.mp h
  exact has_iff_look.mpr ⟨n, hn⟩

/-- In a regular graph the id of a node tells its kind, and the kind its id. -/
theorem Regular.kind?_iff (hg : g.Regular) : g.kind? x = some k ↔ g.has x ∧ k.Names x := by
  rw [kind?_eq_some, has_iff_look]
  constructor
  · rintro ⟨n, hn, rfl⟩
    exact ⟨⟨n, hn⟩, hg.names hn⟩
  · rintro ⟨⟨n, hn⟩, hname⟩
    exact ⟨n, hn, hg.kind_eq hname hn⟩

theorem WellFormed.waits_iff (hg : g.WellFormed) {n : Node} (hn : n ∈ g.nodes) :
    g.Waits n.id y ↔ y ∈ n.before := by
  simp [Waits, hg.find?_of_mem hn]

theorem WellFormed.frees_iff (hg : g.WellFormed) {n : Node} (hn : n ∈ g.nodes) :
    g.Frees n.id y ↔ y ∈ n.after := by
  simp [Frees, hg.find?_of_mem hn]

/-- **Regular graphs are intact.** -/
theorem Regular.intact (hg : g.Regular) : g.Intact := by
  have hnode : ∀ n ∈ g.nodes, n.bare.Regular := fun n hn =>
    hg.node (look_of_find? (hg.wf.find?_of_mem hn))
  have hbefore : ∀ n ∈ g.nodes, ∀ y ∈ n.before, g.has y := fun n hn y hy =>
    hg.wf.has_of_waits ((hg.wf.waits_iff hn).mpr hy)
  exact {
    stored := fun n hn => hg.wf.find?_of_mem hn
    before := fun n hn => ⟨hg.wf.before_nodup n hn, hbefore n hn⟩
    after := fun n hn => ⟨hg.wf.after_nodup n hn, fun y hy =>
      Waits.has ((hg.wf.linked y n.id).mpr ((hg.wf.frees_iff hn).mpr hy))⟩
    linked := fun m hm n hn => by
      rw [← hg.wf.waits_iff hm, ← hg.wf.frees_iff hn, hg.wf.linked]
    deps := fun n hn l hl => by
      obtain ⟨-, hne, hnodup, hall⟩ := (hnode n hn).deps l hl
      refine ⟨hne, hnodup, fun p hp => ?_⟩
      obtain ⟨hpb, hcheck⟩ := hall p hp
      exact ⟨hg.kind?_iff.mpr ⟨hbefore n hn p hpb, hcheck⟩, hpb⟩
    check := fun n hn hk => by
      have hregular := hnode n hn
      refine ⟨?_, fun y hy => ?_⟩
      · cases hd : n.pathDeps with
        | none => rfl
        | some l => exact absurd hk (hregular.deps l hd).1
      · have hawaits := hregular.awaits y hy
        rwa [show n.bare.kind = .paths from hk] at hawaits
    setup := fun n hn hk y hy => by
      have hawaits := (hnode n hn).awaits y hy
      rw [show n.bare.kind = .setup from hk] at hawaits
      have hhas := hbefore n hn y hy
      exact hawaits.imp (fun h => hg.kind?_iff.mpr ⟨hhas, h⟩) fun h => hg.kind?_iff.mpr ⟨hhas, h⟩ }

/-- **The graph of a job is intact**, and so is what is left of one that fails. -/
theorem intact_addJob (table job : Value) : (exec (addJob table job) {}).2.Intact :=
  (regular_addJob table job).intact

/-! ## Calls that name what is there -/

namespace Call

/-- The ids that a call names are those of nodes, and path checks where path checks are meant. These
are the calls that build a graph from steps, setups and path checks; nodes and edges are not added
by hand. -/
def Fits (g : Graph) : Call → Prop
  | useCheck _ | awaitCheckout => True
  | useSetup _ _ pathIds => ∀ p ∈ pathIds, g.kind? p = some .paths
  | awaitSetups _ id _ pathIds => (g.kind? id = some .step ∨ g.kind? id = some .setup) ∧
      ∀ p ∈ pathIds, g.kind? p = some .paths
  | pushDown id pathIds => g.has id ∧ ∀ p ∈ pathIds, g.kind? p = some .paths
  | addStep _ index _ => index = 0 ∨ g.has (stepId (index - 1))
  | addNode .. | addEdge .. => False

instance : DecidablePred (Fits g)
  | useCheck _ | awaitCheckout => inferInstanceAs (Decidable True)
  | useSetup .. => inferInstanceAs (Decidable (∀ _ ∈ _, _))
  | awaitSetups .. => inferInstanceAs (Decidable (_ ∧ _))
  | pushDown .. => inferInstanceAs (Decidable (_ ∧ _))
  | addStep .. => inferInstanceAs (Decidable (_ ∨ _))
  | addNode .. | addEdge .. => inferInstanceAs (Decidable False)

/-- **A call that fits keeps graphs regular**, whether it returns or fails. -/
theorem Fits.regular {c : Call} (h : c.Fits g) (hg : g.Regular) : (c.result g).Regular := by
  have hchecks : ∀ {pathIds : List String}, (∀ p ∈ pathIds, g.kind? p = some .paths) →
      HasChecks g pathIds := fun hids p hp => hg.kind?_iff.mp (hids p hp)
  have hM := maintained_regular
  cases c with
  | useCheck patterns => exact ((upholds_useCheck hM patterns).discard hg).1
  | useSetup table name pathIds =>
    exact ((upholds_useSetupWithin hM (hchecks h)).discard hg).1
  | awaitSetups table id setup pathIds =>
    obtain ⟨hkind, hids⟩ := h
    have hhas : g.has id := hkind.elim has_of_kind? has_of_kind?
    have hnot : ¬ IsCheck id := by
      rcases hkind with hkind | hkind
      · obtain ⟨-, i, rfl⟩ := hg.kind?_iff.mp hkind
        exact not_isCheck_stepId
      · obtain ⟨-, s, rfl⟩ := hg.kind?_iff.mp hkind
        exact not_isCheck_setupId
    exact (stays_awaitSetups hM hnot hhas (hchecks hids) hg).1
  | pushDown id pathIds => exact (stays_pushDown hM h.1 (hchecks h.2) hg).1
  | addStep table index step => exact ((upholds_addStep hM h).discard hg).1
  | awaitCheckout => exact (stays_awaitCheckout hM hg).1
  | addNode | addEdge => exact h.elim

end Call

/-- The calls fit the graphs that they meet, when they are made in turn. -/
def InTurn (g : Graph) : List Call → Prop
  | [] => True
  | c :: rest => c.Fits g ∧ InTurn (c.result g) rest

instance decidableInTurn : (g : Graph) → (calls : List Call) → Decidable (InTurn g calls)
  | _, [] => isTrue trivial
  | g, c :: rest =>
    have := decidableInTurn (c.result g) rest
    inferInstanceAs (Decidable (c.Fits g ∧ InTurn (c.result g) rest))

/-- Calls made in turn keep graphs regular. -/
theorem InTurn.regular {calls : List Call} (h : InTurn g calls) (hg : g.Regular) :
    (calls.foldl Call.result g).Regular := by
  induction calls generalizing g with
  | nil => exact hg
  | cons c rest ih => exact ih h.2 (h.1.regular hg)

/-! ## Steps in order -/

section Placing

variable {α β : Type} {w : Build α} {f : α → Build β} {a : α}

/-- The work leaves a graph with the node, unless it has met a value that it cannot read. -/
def Places (x : String) (w : Build α) (g : Graph) : Prop :=
  (exec w g).2.has x ∨ ∃ e, (exec w g).1 = .error e ∧ (e = .illTyped ∨ e = .noMember)

/-- What leaves a graph with the node may follow work that fails only for what it cannot read. -/
theorem places_bind
    (hw : Ensures w g (fun _ _ => True) fun e => e = .illTyped ∨ e = .noMember)
    (hf : ∀ a g', Places x (f a) g') : Places x (w >>= f) g := by
  unfold Ensures at hw
  unfold Places at hf ⊢
  rw [exec_bind]
  rcases hexec : exec w g with ⟨e | a, g'⟩
  · rw [hexec] at hw
    exact Or.inr ⟨e, rfl, hw⟩
  · exact hf a g'

theorem Places.discard (h : Places x w g) : Places x (discard w) g := by
  unfold Places at h ⊢
  rw [exec_discard]
  rcases hexec : exec w g with ⟨e | a, g'⟩
  · rw [hexec] at h
    exact h.imp_right fun ⟨e', he, hread⟩ => ⟨e', by rw [Except.error.inj he], hread⟩
  · rw [hexec] at h
    exact h.imp_right fun ⟨e, he, _⟩ => by cases he

theorem exists_exec_useCheck (patterns : List String) (g : Graph) :
    ∃ id g', exec (useCheck patterns) g = (.ok id, g') := by
  rw [useCheck]
  by_cases hx : g.has (Check.nodeId (Check.sortTexts patterns))
  · rw [exec_bind_ok (exec_addNode_old hx)]
    exact ⟨_, _, rfl⟩
  · rw [exec_bind_ok (exec_addNode_new hx (by simp))]
    exact ⟨_, _, rfl⟩

theorem ensures_usePaths (paths : Option Value) (g : Graph) : Ensures (usePaths paths) g
    (fun _ _ => True) fun e => e = .illTyped ∨ e = .noMember := by
  have hlist : Ensures (liftM (Value.oneOrMany paths)) g (fun _ _ => True)
      fun e => e = .illTyped ∨ e = .noMember :=
    ensures_liftM (fun _ _ => trivial) fun e he => Or.inl (Value.oneOrMany_error he)
  refine hlist.bind fun patterns g₁ _ => ?_
  split_ifs
  · exact ensures_pure trivial
  · have htexts : Ensures (liftM (Value.strings patterns)) g₁ (fun _ _ => True)
        fun e => e = .illTyped ∨ e = .noMember :=
      ensures_liftM (fun _ _ => trivial) fun e he => Or.inl (Value.strings_error he)
    refine htexts.bind fun texts g₂ _ => ?_
    obtain ⟨id, g₃, hcheck⟩ := exists_exec_useCheck texts g₂
    exact ensures_bind_exec hcheck (ensures_pure trivial)

/-- **A step has its node after the call**, whatever comes of its setups. -/
theorem places_addStep (table : Value) (index : Nat) (step : Value) (g : Graph) :
    Places (stepId index) (addStep table index step) g := by
  rw [addStep_eq]
  refine places_bind (ensures_liftM (fun _ _ => trivial) fun e => Value.take_error)
    fun taken g₁ => ?_
  exact places_bind (ensures_usePaths _ g₁) fun ids g₂ => Or.inl has_of_enterStep

end Placing

/-- A step that is added, or fails for a setup that is not defined, is there from then on. -/
theorem has_of_addStep_call {earlier later : List Call} {table step : Value} {index : Nat}
    (hends : ∀ e, (exec (Call.addStep table index step).run (built earlier)).1 = .error e →
      ∃ name, e = .unknownSetup name) :
    (built (earlier ++ .addStep table index step :: later)).has (stepId index) := by
  have hplaces : Places (stepId index) (Call.addStep table index step).run (built earlier) :=
    (places_addStep table index step (built earlier)).discard
  rcases hplaces with hhas | ⟨e, he, hread⟩
  · rw [built_append]
    exact (widened_foldl later _).has hhas
  · obtain ⟨name, rfl⟩ := hends e he
    rcases hread with hread | hread <;> cases hread

/-! ## The invariant of all graphs that are built -/

/-- **Graphs stay intact.** Whatever calls are made in turn, each naming what is there, the graph is
intact after them, whether they return or fail. A step whose call returned, or failed for a setup
that is not defined, is there afterwards: so steps that are added from 0 upwards name what is
there. -/
theorem built_intact {calls : List Call} (h : InTurn {} calls) :
    (built calls).Intact ∧
      ∀ earlier table index step later, calls = earlier ++ .addStep table index step :: later →
        (∀ e, (exec (Call.addStep table index step).run (built earlier)).1 = .error e →
          ∃ name, e = .unknownSetup name) → (built calls).has (stepId index) := by
  refine ⟨(h.regular regular_empty).intact, ?_⟩
  rintro earlier table index step later rfl hends
  exact has_of_addStep_call hends

/-- A step under a path check whose setup needs one that is not defined. -/
def failingStep : Call :=
  .addStep halfKnown 0 (.record [("run", "make"), ("paths", "src/*"), ("setup", "tools")])

/-- Calls of which two fail: there is no checkout yet, and a setup is not defined. -/
def interrupted : List Call :=
  [.useCheck ["src/*"], .awaitCheckout, failingStep, .awaitCheckout,
    .awaitSetups halfKnown (stepId 0) (some "checkout") [Check.nodeId ["src/*"]],
    .pushDown (setupId "tools") [], .addStep halfKnown 1 (.record [("run", "test")])]

/-- The step is there without its setup, the setup without what is not defined, and the calls that
follow find an intact graph. -/
theorem built_intact_interrupted : InTurn {} interrupted ∧
    (exec Call.awaitCheckout.run (built [.useCheck ["src/*"]])).1 = .error .missingCheckout ∧
    (exec failingStep.run (built [.useCheck ["src/*"], .awaitCheckout])).1 =
      .error (.unknownSetup "gone") ∧
    (built interrupted).Intact ∧ (built interrupted).has (stepId 0) := by
  have hfails : (exec failingStep.run (built [.useCheck ["src/*"], .awaitCheckout])).1 =
      .error (.unknownSetup "gone") := by rfl
  have hturn : InTurn {} interrupted := by decide
  obtain ⟨hintact, hsteps⟩ := built_intact hturn
  refine ⟨hturn, by rfl, hfails, hintact, ?_⟩
  refine hsteps [.useCheck ["src/*"], .awaitCheckout] _ _ _ _ rfl fun e he => ⟨"gone", ?_⟩
  exact (Except.error.inj (hfails.symm.trans he)).symm

end Graph

end StepLoom
