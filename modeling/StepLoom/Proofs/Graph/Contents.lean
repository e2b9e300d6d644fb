import StepLoom.Compile.Job
import StepLoom.Proofs.Run

/-!
# What nodes hold

The content of a node is chosen when the node is added. `Contents P` says that each node of a graph
holds what `P` allows for its id and kind. Edges and conditions do not touch contents, so an
operation maintains this if the contents that it brings in are allowed.

Setups are looked up by name in a table. `Serves` says that all names from some set stand for
definitions that are allowed, and that what these need is in the set again.
-/

namespace StepLoom

namespace Graph

/-- Each node holds what is allowed for its id and kind. -/
def Contents (P : String → Kind → Value → Prop) (g : Graph) : Prop :=
  ∀ n ∈ g.nodes, P n.id n.kind n.content

/-- The table has allowed definitions under some names, and under all names that these need. -/
structure Serves (P : String → Kind → Value → Prop) (U : Value → Prop) (table : Value) : Prop where
  holds : ∀ {name definition : Value} {text : String}, U name → name.text = .ok text →
    Setup.find? table name = .ok (some definition) → P (setupId text) .setup definition
  needs : ∀ {name definition : Value} {fields : Fields} {names : List Value}, U name →
    Setup.find? table name = .ok (some definition) → definition.fields? = some fields →
    Value.oneOrMany (Fields.get? "setup" fields) = .ok names → ∀ n ∈ names, U n

variable {P : String → Kind → Value → Prop} {U : Value → Prop} {g : Graph} {x y : String}
  {ids : List String} {table content : Value} {kind : Kind} {α : Type}

/-- The work maintains what nodes hold. -/
abbrev Fills (P : String → Kind → Value → Prop) {α : Type} (x : Build α) : Prop :=
  Leads (Contents P) (fun _ => Contents P) x

theorem contents_empty : Contents P {} := by simp [Contents]

theorem Contents.map {Q : String → Kind → Value → Prop} (h : Contents P g) {f : Node → Node}
    (hf : ∀ n, P n.id n.kind n.content → Q (f n).id (f n).kind (f n).content) :
    Contents Q ⟨g.nodes.map f⟩ := by
  intro n hn
  obtain ⟨m, hm, rfl⟩ := List.mem_map.mp hn
  exact hf m (h m hm)

theorem fills_pure (a : α) : Fills P (pure a) := leads_pure fun _ hg => hg

theorem fills_get : Fills P get := leads_get.mono fun _ _ hg => hg.2

/-! ## Nodes and edges -/

/-- A change of what nodes wait for leaves their contents alone. -/
theorem fills_update {f : Node → Node}
    (hf : ∀ n, (f n).id = n.id ∧ (f n).kind = n.kind ∧ (f n).content = n.content) :
    Fills P (modify (update x f)) := by
  refine leads_modify fun g hg => hg.map fun n hn => ?_
  obtain ⟨hid, hkind, hcontent⟩ := hf n
  split_ifs
  · rwa [hid, hkind, hcontent]
  · exact hn

theorem fills_node : Fills P (node x) := by
  refine fills_get.bind fun g => ?_
  cases g.find? x with
  | some n => exact fills_pure n
  | none => exact leads_throw _

theorem fills_addEdge : Fills P (addEdge x y) := by
  refine fills_node.discard.bind fun _ => ?_
  refine (fills_update fun n => ?_).bind fun _ => ?_
  · exact ⟨rfl, rfl, rfl⟩
  refine fills_node.discard.bind fun _ => fills_update fun n => ?_
  exact ⟨rfl, rfl, rfl⟩

theorem fills_addEdges : Fills P (addEdges x ids) := by
  induction ids with
  | nil => exact fills_pure ()
  | cons p rest ih => exact fills_addEdge.bind fun _ => ih

theorem fills_addNode (h : P x kind content) : Fills P (addNode x kind content ids) := by
  refine fills_get.bind fun g => ?_
  generalize (if ids.isEmpty then none else some (distinct ids)) = pathDeps
  split_ifs
  · exact fills_pure ()
  · refine (leads_modify fun g hg n hn => ?_).bind fun _ => fills_addEdges
    rcases List.mem_append.mp hn with hn | hn
    · exact hg n hn
    · obtain rfl := List.mem_singleton.mp hn
      exact h

theorem fills_useCheck {patterns : List String}
    (h : P (Check.nodeId (Check.sortTexts patterns)) .paths
      (.list ((Check.sortTexts patterns).map .str))) : Fills P (useCheck patterns) :=
  (fills_addNode h).bind fun _ => fills_pure _

/-! ## Conditions -/

theorem fills_conditionOn : Fills P (conditionOn x ids) := by
  induction ids with
  | nil => exact fills_pure ()
  | cons p rest ih =>
    refine (fills_update fun n => ?_).bind fun _ => fills_addEdge.bind fun _ => ih
    exact ⟨rfl, rfl, rfl⟩

theorem fills_revisit : Fills P (revisit ids x) := by
  refine fills_node.bind fun n => ?_
  have hbefore : Fills P (do return (← node x).before) := fills_node.bind fun _ => fills_pure _
  split_ifs
  · refine (fills_update fun n => ?_).bind fun _ => fills_pure _
    exact ⟨rfl, rfl, rfl⟩
  · exact fills_pure []
  · exact fills_conditionOn.bind fun _ => hbefore
  · exact hbefore

theorem fills_pushDownFrom {fuel : Nat} {stack seen : List String} :
    Fills P (pushDownFrom ids fuel stack seen) := by
  induction fuel generalizing stack seen with
  | zero => exact fills_pure ()
  | succ fuel ih =>
    cases stack with
    | nil => exact fills_pure ()
    | cons x stack =>
      rw [pushDownFrom]
      split_ifs
      · exact ih
      · exact fills_revisit.bind fun _ => ih

theorem fills_pushDown : Fills P (pushDown x ids) := fills_get.bind fun _ => fills_pushDownFrom

/-! ## Setups -/

theorem fills_awaitEach {add : Value → Build String} {names : List Value}
    (h : ∀ name ∈ names, Fills P (add name)) : Fills P (awaitEach x add names) := by
  induction names with
  | nil => exact fills_pure ()
  | cons name rest ih =>
    have h := List.forall_mem_cons.mp h
    exact h.1.bind fun _ => fills_addEdge.bind fun _ => ih h.2

/-- **A reference brings in allowed definitions only.** -/
theorem fills_useSetupWithin (h : Serves P U table) {depth : Nat} {name : Value} (hname : U name) :
    Fills P (useSetupWithin table depth name ids) := by
  induction depth generalizing name ids with
  | zero => exact leads_throw _
  | succ depth ih =>
    rw [useSetupWithin]
    refine leads_liftM.bind fun text => .assuming fun htext => fills_get.bind fun _ => ?_
    generalize (if name.equal (.str checkoutSetup) then [] else ids) = ids
    split_ifs
    · exact fills_pushDown.bind fun _ => fills_pure _
    · refine leads_liftM.bind fun found => .assuming fun hfound => ?_
      cases found with
      | none => exact leads_throw _
      | some definition =>
        refine (fills_addNode (h.holds hname htext hfound)).bind fun _ => ?_
        cases hfields : definition.fields? with
        | none => exact fills_pure _
        | some fields =>
          refine leads_liftM.bind fun names => .assuming fun hnames => ?_
          refine (fills_awaitEach fun n hn => ?_).bind fun _ => fills_pure _
          exact ih (h.needs hname hfound hfields hnames n hn)

theorem fills_awaitSetups (h : Serves P U table) {setup : Option Value}
    (hsetup : ∀ names, Value.oneOrMany setup = .ok names → ∀ n ∈ names, U n) :
    Fills P (awaitSetups table x setup ids) :=
  leads_liftM.bind fun names => .assuming fun hnames =>
    fills_awaitEach fun n hn => fills_useSetupWithin h (hsetup names hnames n hn)

theorem fills_useSetups (h : Serves P U table) {names : List Value} (hnames : ∀ n ∈ names, U n) :
    Fills P (useSetups table names) := by
  induction names with
  | nil => exact fills_pure ()
  | cons name rest ih =>
    have hnames := List.forall_mem_cons.mp hnames
    exact (fills_useSetupWithin h hnames.1).discard.bind fun _ => ih hnames.2

/-! ## The checkout -/

theorem fills_awaitCheckoutFrom {nodes : List Node} : Fills P (awaitCheckoutFrom nodes) := by
  induction nodes with
  | nil => exact fills_pure ()
  | cons n rest ih =>
    rw [awaitCheckoutFrom]
    have hthrow : Fills P (throw .missingCheckout : Build Unit) := leads_throw _
    split_ifs
    · refine fills_get.bind fun _ => ?_
      split_ifs
      · exact hthrow.bind fun _ => fills_addEdge.bind fun _ => ih
      · exact fills_addEdge.bind fun _ => ih
    · exact ih

theorem fills_awaitCheckout : Fills P awaitCheckout :=
  fills_get.bind fun _ => fills_awaitCheckoutFrom

end Graph

end StepLoom
