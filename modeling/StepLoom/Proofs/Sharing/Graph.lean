import StepLoom.Proofs.Job
import StepLoom.Proofs.Sharing.Copies

/-!
# The graph of a job and of its copy

Copies of a job and of a table give graphs that are copies node by node, provided that the steps of
the job stand alone: no edit of such a step reaches another place. The order of the nodes is the
same.

There is one lemma for each operation on graphs, and each goes through the operation line by line.
-/

namespace StepLoom

/-- The value is no mapping that stands at several places. -/
def Value.StandsAlone (v : Value) : Prop := ∀ m fields, v ≠ .map (some m) fields

theorem Value.standsAlone_record (fields : Fields) : (record fields).StandsAlone :=
  fun _ _ h => by simp at h

/-- Nothing else is edited along with a value that stands alone. -/
theorem Value.StandsAlone.withFields {v : Value} (h : v.StandsAlone) (fields : Fields) :
    v.withFields fields = (.record fields, []) := by
  unfold Value.withFields
  split
  · next m fs => exact absurd rfl (h m fs)
  · rfl

theorem Value.Copies.standsAlone {v w : Value} (h : Copies v w) : w.StandsAlone := by
  cases h.shape <;> exact fun _ _ h => by simp at h

/-- Nodes whose contents are copies. The content of a step stands alone. -/
structure Node.Copies (n n' : Node) : Prop where
  id : n.id = n'.id
  kind : n.kind = n'.kind
  content : Value.Copies n.content n'.content
  alone : n.kind = .step → n.content.StandsAlone
  pathDeps : n.pathDeps = n'.pathDeps
  before : n.before = n'.before
  after : n.after = n'.after

namespace Graph

/-- Graphs whose nodes are copies one by one. -/
def Copies (g g' : Graph) : Prop := List.Forall₂ Node.Copies g.nodes g'.nodes

/-- A value that stands alone and its unshared form. -/
structure LoneCopies (v w : Value) : Prop where
  copies : Value.Copies v w
  alone : v.StandsAlone

variable {g g' : Graph} {v w table table' name name' : Value} {ids : List String} {x y : String}
  {n n' : Node}

/-! ## Nodes -/

theorem Copies.find? (h : Copies g g') (x : String) :
    Option.Rel Node.Copies (g.find? x) (g'.find? x) := by
  unfold Graph.find?
  obtain ⟨ns⟩ := g
  obtain ⟨ns'⟩ := g'
  change List.Forall₂ Node.Copies ns ns' at h
  induction h with
  | nil => exact .none
  | cons hn _ ih =>
    rw [List.find?_cons, List.find?_cons, hn.id]
    split
    · exact .some hn
    · exact ih

theorem Copies.has (h : Copies g g') (x : String) : g.has x = g'.has x := by
  have hfind := h.find? x
  unfold Graph.has
  generalize g.find? x = a, g'.find? x = b at hfind ⊢
  cases hfind <;> rfl

theorem Copies.map (h : Copies g g') {f f' : Node → Node}
    (hf : ∀ n n', Node.Copies n n' → Node.Copies (f n) (f' n')) :
    Copies ⟨g.nodes.map f⟩ ⟨g'.nodes.map f'⟩ :=
  List.forall₂_map_left_iff.mpr (List.forall₂_map_right_iff.mpr (h.imp hf))

theorem Copies.update (h : Copies g g') (x : String) {f f' : Node → Node}
    (hf : ∀ n n', Node.Copies n n' → Node.Copies (f n) (f' n')) :
    Copies (g.update x f) (g'.update x f') := by
  refine h.map fun n n' hn => ?_
  rw [hn.id]
  split_ifs
  · exact hf n n' hn
  · exact hn

theorem Copies.insert (h : Copies g g') (hn : Node.Copies n n') :
    Copies ⟨g.nodes ++ [n]⟩ ⟨g'.nodes ++ [n']⟩ :=
  List.rel_append h (.cons hn .nil)

theorem applyAll_nil (g : Graph) : g.applyAll [] = g := by
  have h : (fun n : Node => { n with content := n.content.applyAll [] }) = id := rfl
  rw [applyAll, h, List.map_id]

/-! ## Edges -/

theorem node_abreast (x : String) : Abreast Copies Node.Copies (node x) (node x) := by
  refine abreast_get.bind fun g g' hg => ?_
  have hfind := hg.find? x
  generalize g.find? x = a, g'.find? x = b at hfind ⊢
  cases hfind with
  | none => exact abreast_throw _
  | some hn => exact abreast_pure hn

theorem update_abreast (x : String) {f f' : Node → Node}
    (hf : ∀ n n', Node.Copies n n' → Node.Copies (f n) (f' n')) :
    Abreast Copies Eq (modify (update x f)) (modify (update x f')) :=
  abreast_modify fun _ _ hg => hg.update x hf

theorem addEdge_abreast (x y : String) : Abreast Copies Eq (addEdge x y) (addEdge x y) := by
  refine (abreast_discard (node_abreast x)).bind_eq fun _ => ?_
  refine (update_abreast x fun n n' hn => ?_).bind_eq fun _ => ?_
  · exact { hn with before := congrArg (addOnce y) hn.before }
  refine (abreast_discard (node_abreast y)).bind_eq fun _ => update_abreast y fun n n' hn => ?_
  exact { hn with after := congrArg (addOnce x) hn.after }

theorem addEdges_abreast (x : String) (ys : List String) :
    Abreast Copies Eq (addEdges x ys) (addEdges x ys) := by
  induction ys with
  | nil => exact abreast_pure rfl
  | cons y rest ih => exact (addEdge_abreast x y).bind_eq fun _ => ih

theorem addNode_abreast {kind : Kind} (h : Value.Copies v w) (ha : kind = .step → v.StandsAlone) :
    Abreast Copies Eq (addNode x kind v ids) (addNode x kind w ids) := by
  refine abreast_get.bind fun g g' hg => ?_
  rw [hg.has]
  generalize (if ids.isEmpty then none else some (distinct ids)) = pathDeps
  split_ifs
  · exact abreast_pure rfl
  · refine (abreast_modify fun g g' hg => hg.insert ?_).bind_eq fun _ => addEdges_abreast x ids
    exact ⟨rfl, rfl, h, ha, rfl, rfl, rfl⟩

theorem useCheck_abreast (patterns : List String) :
    Abreast Copies Eq (useCheck patterns) (useCheck patterns) :=
  (addNode_abreast (Value.copies_list (Value.copies_scalars _ _)) (by simp)).bind_eq fun _ =>
    abreast_pure rfl

/-! ## Conditions -/

theorem conditionOn_abreast (x : String) (ids : List String) :
    Abreast Copies Eq (conditionOn x ids) (conditionOn x ids) := by
  induction ids with
  | nil => exact abreast_pure rfl
  | cons p rest ih =>
    refine (update_abreast x fun n n' hn => ?_).bind_eq fun _ =>
      (addEdge_abreast x p).bind_eq fun _ => ih
    exact { hn with pathDeps := congrArg (Option.map (addOnce p)) hn.pathDeps }

theorem revisit_abreast (ids : List String) (x : String) :
    Abreast Copies Eq (revisit ids x) (revisit ids x) := by
  refine (node_abreast x).bind fun n n' hn => ?_
  rw [hn.pathDeps, hn.before]
  have hbefore : Abreast Copies Eq (do return (← node x).before) (do return (← node x).before) :=
    (node_abreast x).bind fun _ _ h => abreast_pure h.before
  split_ifs
  · refine (update_abreast x fun n n' hn => ?_).bind_eq fun _ => abreast_pure rfl
    exact { hn with pathDeps := rfl }
  · exact abreast_pure rfl
  · exact (conditionOn_abreast x ids).bind_eq fun _ => hbefore
  · exact hbefore

/-- A walk goes the same way in both graphs. -/
theorem pushDownFrom_abreast (ids : List String) (fuel : Nat) (stack seen : List String) :
    Abreast Copies Eq (pushDownFrom ids fuel stack seen) (pushDownFrom ids fuel stack seen) := by
  induction fuel generalizing stack seen with
  | zero => exact abreast_pure rfl
  | succ fuel ih =>
    cases stack with
    | nil => exact abreast_pure rfl
    | cons x stack =>
      rw [pushDownFrom]
      split_ifs
      · exact ih stack seen
      · refine (revisit_abreast ids x).bind_eq fun next => ?_
        exact ih _ _

theorem Copies.walkBound (h : Copies g g') (ids : List String) :
    g.walkBound ids = g'.walkBound ids := by
  unfold Graph.walkBound
  obtain ⟨ns⟩ := g
  obtain ⟨ns'⟩ := g'
  change List.Forall₂ Node.Copies ns ns' at h
  induction h with
  | nil => rfl
  | cons hn _ ih =>
    rw [List.map_cons, List.map_cons, List.foldr_cons, List.foldr_cons, ih, hn.before]

theorem pushDown_abreast (x : String) (ids : List String) :
    Abreast Copies Eq (pushDown x ids) (pushDown x ids) := by
  refine abreast_get.bind fun g g' hg => ?_
  rw [hg.walkBound]
  exact pushDownFrom_abreast ids _ _ _

/-! ## Setups -/

theorem awaitEach_abreast {add add' : Value → Build String} {names names' : List Value}
    (h : List.Forall₂ Value.Copies names names')
    (hadd : ∀ v w, Value.Copies v w → Abreast Copies Eq (add v) (add' w)) :
    Abreast Copies Eq (awaitEach x add names) (awaitEach x add' names') := by
  induction h with
  | nil => exact abreast_pure rfl
  | cons hv _ ih =>
    refine (hadd _ _ hv).bind_eq fun id => ?_
    exact (addEdge_abreast x id).bind_eq fun _ => ih

theorem names_abreast {a b : Option Value} (h : Option.Rel Value.Copies a b) :
    Abreast Copies (List.Forall₂ Value.Copies) (names a) (names b) :=
  abreast_liftM (Value.Copies.oneOrMany h)

theorem useSetupWithin_abreast (ht : Value.Copies table table') (depth : Nat)
    (hn : Value.Copies name name') (ids : List String) :
    Abreast Copies Eq (useSetupWithin table depth name ids)
      (useSetupWithin table' depth name' ids) := by
  induction depth generalizing name name' ids with
  | zero => exact abreast_throw _
  | succ depth ih =>
    rw [useSetupWithin, useSetupWithin, hn.text,
      hn.equal (Value.copies_scalar (.str checkoutSetup))]
    refine (abreast_liftM (alike_eq.mpr rfl)).bind_eq fun text => ?_
    refine abreast_get.bind fun g g' hg => ?_
    rw [hg.has]
    generalize (if name'.equal (.str checkoutSetup) then [] else ids) = ids
    split_ifs
    · exact (pushDown_abreast _ _).bind_eq fun _ => abreast_pure rfl
    · refine (abreast_liftM (Setup.copies_find? ht hn)).bind fun found found' hfound => ?_
      cases hfound with
      | none => exact abreast_throw _
      | @some v w hd =>
        refine (addNode_abreast hd (by simp)).bind_eq fun _ => ?_
        have hfields := hd.fields?
        generalize v.fields? = a, w.fields? = b at hfields ⊢
        cases hfields with
        | none => exact abreast_pure rfl
        | some hfs =>
          refine (names_abreast (hfs.get? "setup")).bind fun _ _ hnames => ?_
          exact (awaitEach_abreast hnames fun _ _ hv => ih hv ids).bind_eq fun _ => abreast_pure rfl

theorem useSetup_abreast (ht : Value.Copies table table') (hn : Value.Copies name name')
    (ids : List String) :
    Abreast Copies Eq (useSetup table name ids) (useSetup table' name' ids) := by
  rw [useSetup, useSetup, Setup.copies_referenceCount ht]
  exact useSetupWithin_abreast ht _ hn ids

theorem awaitSetups_abreast (ht : Value.Copies table table') (x : String) {a b : Option Value}
    (h : Option.Rel Value.Copies a b) (ids : List String) :
    Abreast Copies Eq (awaitSetups table x a ids) (awaitSetups table' x b ids) :=
  (names_abreast h).bind fun _ _ hnames =>
    awaitEach_abreast hnames fun _ _ hv => useSetup_abreast ht hv ids

theorem useSetups_abreast (ht : Value.Copies table table') {names names' : List Value}
    (h : List.Forall₂ Value.Copies names names') :
    Abreast Copies Eq (useSetups table names) (useSetups table' names') := by
  induction h with
  | nil => exact abreast_pure rfl
  | cons hv _ ih => exact (abreast_discard (useSetup_abreast ht hv [])).bind_eq fun _ => ih

/-! ## Steps -/

/-- Related answers that come without edits. -/
inductive Unedited {α : Type} (R : α → α → Prop) : α × List Edit → α × List Edit → Prop
  | intro {a b : α} (h : R a b) : Unedited R (a, []) (b, [])

theorem refresh_abreast (isNew : Bool) (x : String) (h : LoneCopies v w) :
    Abreast Copies Eq (refresh isNew x v) (refresh isNew x w) := by
  unfold refresh
  split_ifs
  · refine update_abreast x fun n n' hn => ?_
    exact { hn with content := h.copies, alone := fun _ => h.alone }
  · exact abreast_pure rfl

theorem replay_nil_abreast : Abreast Copies Eq (replay []) (replay []) := by
  refine abreast_modify fun g g' hg => ?_
  rw [applyAll_nil, applyAll_nil]
  exact hg

theorem loneCopies_record {fs gs : Fields} (h : Value.FieldsCopies fs gs) :
    LoneCopies (.record fs) (.record gs) := ⟨Value.copies_record h, Value.standsAlone_record fs⟩

/-- The node of a step that stands alone, once its path check is there. -/
def placeStep (table : Value) (index : Nat) (fields : Fields) (ids : List String) :
    Build (Value × List Edit) := do
  let plain := Value.record (extensionKeys.foldl (fun fs k => Fields.erase k fs) fields)
  let isNew := !(← get).has (stepId index)
  addNode (stepId index) .step (.record fields) ids
  refresh isNew (stepId index) (.record (Fields.erase "setup" fields))
  replay []
  awaitSetups (table.applyAll []) (stepId index) (Fields.get? "setup" fields) ids
  refresh isNew (stepId index) plain
  replay []
  if 0 < index then addEdge (stepId index) (stepId (index - 1))
  return (plain, [])

theorem placeStep_abreast (ht : Value.Copies table table') (index : Nat) {fs gs : Fields}
    (h : Value.FieldsCopies fs gs) (ids : List String) :
    Abreast Copies (Unedited LoneCopies) (placeStep table index fs ids)
      (placeStep table' index gs ids) := by
  have hplain := loneCopies_record (h.eraseAll extensionKeys)
  refine abreast_get.bind fun g g' hg => ?_
  rw [hg.has]
  refine (addNode_abreast (Value.copies_record h) fun _ => ?_).bind_eq fun _ => ?_
  · exact Value.standsAlone_record fs
  refine (refresh_abreast _ _ (loneCopies_record h.erase)).bind_eq fun _ => ?_
  refine replay_nil_abreast.bind_eq fun _ => ?_
  refine (awaitSetups_abreast ht _ (h.get? "setup") ids).bind_eq fun _ => ?_
  refine (refresh_abreast _ _ hplain).bind_eq fun _ => replay_nil_abreast.bind_eq fun _ => ?_
  split_ifs
  · exact (addEdge_abreast _ _).bind_eq fun _ => abreast_pure (.intro hplain)
  · exact abreast_pure (.intro hplain)

/-- **A step that stands alone** and its copy are added alike. -/
theorem addStep_abreast (ht : Value.Copies table table') (index : Nat) (h : LoneCopies v w) :
    Abreast Copies (Unedited LoneCopies) (addStep table index v) (addStep table' index w) := by
  refine (abreast_liftM h.copies.take).bind fun p q ⟨hpaths, hfs⟩ => ?_
  refine (abreast_liftM (Value.Copies.oneOrMany hpaths)).bind fun patterns patterns' hpatterns => ?_
  have hw := h.copies.standsAlone
  rw [h.alone.withFields, h.alone.withFields, h.alone.withFields, hw.withFields, hw.withFields,
    hw.withFields]
  cases hpatterns with
  | nil => exact placeStep_abreast ht index hfs []
  | cons hv hrest =>
    refine (abreast_liftM (alike_eq.mpr (Value.Copies.strings (.cons hv hrest)))).bind_eq
      fun texts => ?_
    refine (useCheck_abreast texts).bind_eq fun id => ?_
    exact placeStep_abreast ht index hfs [id]

theorem addSteps_abreast (ht : Value.Copies table table') (index : Nat) {vs ws : List Value}
    (h : List.Forall₂ LoneCopies vs ws) :
    Abreast Copies (Unedited (List.Forall₂ LoneCopies))
      (addSteps table index vs []) (addSteps table' index ws []) := by
  induction h generalizing index with
  | nil => exact abreast_pure (.intro .nil)
  | cons hv _ ih =>
    refine (addStep_abreast ht index hv).bind fun _ _ ⟨hstep⟩ => ?_
    refine (ih (index + 1)).bind fun _ _ ⟨hrest⟩ => ?_
    exact abreast_pure (.intro (.cons hstep hrest))

/-! ## Jobs -/

theorem awaitCheckoutFrom_abreast {ns ns' : List Node} (h : List.Forall₂ Node.Copies ns ns') :
    Abreast Copies Eq (awaitCheckoutFrom ns) (awaitCheckoutFrom ns') := by
  induction h with
  | nil => exact abreast_pure rfl
  | cons hn _ ih =>
    rw [awaitCheckoutFrom, awaitCheckoutFrom, hn.kind, hn.id]
    have hthrow : Abreast Copies Eq (throw .missingCheckout : Build Unit)
        (throw .missingCheckout) := abreast_throw _
    split_ifs
    · refine abreast_get.bind fun g g' hg => ?_
      rw [hg.has]
      split_ifs
      · exact hthrow.bind_eq fun _ => (addEdge_abreast _ _).bind_eq fun _ => ih
      · exact (addEdge_abreast _ _).bind_eq fun _ => ih
    · exact ih

theorem awaitCheckout_abreast : Abreast Copies Eq awaitCheckout awaitCheckout :=
  abreast_get.bind fun _ _ hg => awaitCheckoutFrom_abreast hg

/-- A job and its unshared form, such that neither the job nor its steps are edited elsewhere. -/
structure JobCopies (v w : Value) : Prop extends LoneCopies v w where
  steps : ∀ step ∈ Job.steps v, step.StandsAlone

theorem JobCopies.members (h : JobCopies v w) {field : Option Value}
    (hfield : v.field? "steps" = .ok field) {source : Value}
    (hsource : Value.given? field = some source) {vs ws : List Value}
    (hvs : source.members = .ok vs) (hcopies : List.Forall₂ Value.Copies vs ws) :
    List.Forall₂ LoneCopies vs ws := by
  have hpart : v.part "steps" = field := by
    unfold Value.field? at hfield
    split at hfield
    · next fields hv =>
      rw [Value.part, hv]
      exact Except.ok.inj hfield
    · cases hfield
  have hsteps : Job.steps v = vs := by
    rw [Job.steps, hpart, Value.membersOrNone, hsource]
    dsimp only
    rw [hvs]
  have halone : ∀ step ∈ vs, step.StandsAlone := hsteps ▸ h.steps
  exact ((List.forall₂_and_left _ _).mpr ⟨halone, hcopies⟩).imp fun _ _ hv => ⟨hv.2, hv.1⟩

/-- **A job whose steps stand alone** and its copy give the same graph. -/
theorem addJob_abreast (ht : Value.Copies table table') (h : JobCopies v w) :
    Abreast Copies (Unedited LoneCopies) (addJob table v) (addJob table' w) := by
  have hw := h.copies.standsAlone
  unfold addJob
  refine (abreast_liftM h.copies.field?.with_ok).bind fun a b ⟨hfield, hsteps⟩ => ?_
  have hsource := Value.Copies.given? hsteps
  have hfields := h.copies.fieldsOf
  generalize hs : Value.given? a = s, Value.given? b = s' at hsource ⊢
  cases hsource with
  | none =>
    have hnone : Abreast Copies (Unedited Eq) (pure (([] : List Value), [])) (pure ([], [])) :=
      abreast_pure (.intro rfl)
    refine hnone.bind fun _ _ ⟨hnil⟩ => ?_
    subst hnil
    refine (abreast_liftM hfields).bind fun fs gs hfs => ?_
    dsimp only
    rw [h.alone.withFields, hw.withFields]
    refine replay_nil_abreast.bind_eq fun _ => ?_
    refine (names_abreast (hfs.get? "setup")).bind fun _ _ hnames => ?_
    refine (useSetups_abreast ht hnames).bind_eq fun _ => awaitCheckout_abreast.bind_eq fun _ => ?_
    exact abreast_pure (.intro (loneCopies_record hfs.erase))
  | some hvw =>
    refine (abreast_liftM hvw.members.with_ok).bind fun vs ws ⟨hvs, hcopies⟩ => ?_
    refine (addSteps_abreast ht 0 (h.members hfield hs hvs hcopies)).bind fun _ _ ⟨hpq⟩ => ?_
    refine (abreast_liftM hfields).bind fun fs gs hfs => ?_
    dsimp only
    rw [h.alone.withFields, hw.withFields]
    refine replay_nil_abreast.bind_eq fun _ => ?_
    refine (awaitSetups_abreast ht _ (hfs.get? "setup") []).bind_eq fun _ => ?_
    refine awaitCheckout_abreast.bind_eq fun _ => abreast_pure (.intro (loneCopies_record ?_))
    exact hfs.erase.put (Value.copies_list (hpq.imp fun _ _ h => h.copies))

/-- Copies of a job give graphs that are copies, or fail alike. -/
theorem ofJob_alike (ht : Value.Copies table table') (h : JobCopies v w) :
    Alike (fun p q => Copies p.1 q.1 ∧ Unedited LoneCopies p.2 q.2) (ofJob table v)
      (ofJob table' w) := by
  have hempty : Copies {} {} := .nil
  obtain ⟨halike, hg⟩ := addJob_abreast ht h {} {} hempty
  change Alike (Unedited LoneCopies) ((addJob table v).run.run {}).1
    ((addJob table' w).run.run {}).1 at halike
  change Copies ((addJob table v).run.run {}).2 ((addJob table' w).run.run {}).2 at hg
  unfold ofJob
  generalize (addJob table v).run.run {} = p, (addJob table' w).run.run {} = q at halike hg ⊢
  obtain ⟨r, g⟩ := p
  obtain ⟨r', g'⟩ := q
  cases halike with
  | ok h => exact .ok ⟨hg, h⟩
  | error e => exact .error e

/-! ## Order -/

/-- Sweeps that are at the same place. -/
structure Sweep.Copies (s s' : Sweep) : Prop where
  rest : Graph.Copies s.rest s'.rest
  ready : s.ready = s'.ready
  placed : s.placed = s'.placed

variable {s s' : Sweep}

theorem Copies.edges (h : Copies g g') : g.edges = g'.edges := by
  unfold Graph.edges
  obtain ⟨ns⟩ := g
  obtain ⟨ns'⟩ := g'
  change List.Forall₂ Node.Copies ns ns' at h
  induction h with
  | nil => rfl
  | cons hn _ ih => rw [List.flatMap_cons, List.flatMap_cons, ih, hn.id, hn.after]

theorem Sweep.Copies.release (h : s.Copies s') (x y : String) :
    Alike Sweep.Copies (s.release x y) (s'.release x y) := by
  have hfind := h.rest.find? y
  unfold Sweep.release
  generalize s.rest.find? y = a, s'.rest.find? y = b at hfind ⊢
  cases hfind with
  | none => exact .error _
  | some hn =>
    dsimp only
    rw [hn.before, h.ready]
    split
    · refine .ok ⟨(h.rest.update x fun n n' hn => ?_).update y fun n n' hn => ?_, rfl, h.placed⟩
      · exact { hn with after := congrArg (List.erase · y) hn.after }
      · exact { hn with before := congrArg (List.erase · x) hn.before }
    · exact .error _

theorem Sweep.Copies.releaseAll (h : s.Copies s') (x : String) (ys : List String) :
    Alike Sweep.Copies (s.releaseAll x ys) (s'.releaseAll x ys) := by
  induction ys generalizing s s' with
  | nil => exact .ok h
  | cons y rest ih => exact (h.release x y).bind fun _ _ h => ih h

theorem Sweep.Copies.run (h : s.Copies s') (fuel : Nat) :
    Alike Sweep.Copies (Sweep.run fuel s) (Sweep.run fuel s') := by
  induction fuel generalizing s s' with
  | zero => exact .ok h
  | succ fuel ih =>
    rw [Sweep.run, Sweep.run, h.ready, h.placed]
    cases s'.ready with
    | nil => exact .ok h
    | cons x ready =>
      have hfind := h.rest.find? x
      dsimp only
      have hnext : Sweep.Copies { s with ready, placed := s'.placed ++ [x] }
          { s' with ready, placed := s'.placed ++ [x] } := ⟨h.rest, rfl, rfl⟩
      generalize s.rest.find? x = a, s'.rest.find? x = b at hfind ⊢
      cases hfind with
      | none => exact (hnext.releaseAll x []).bind fun _ _ h => ih h
      | some hn =>
        dsimp only
        rw [hn.after]
        exact (hnext.releaseAll x _).bind fun _ _ h => ih h

theorem Copies.start (h : Copies g g') : Sweep.Copies (.start g) (.start g') := by
  refine ⟨h, ?_, rfl⟩
  unfold Sweep.start
  obtain ⟨ns⟩ := g
  obtain ⟨ns'⟩ := g'
  change List.Forall₂ Node.Copies ns ns' at h
  dsimp only
  induction h with
  | nil => rfl
  | cons hn _ ih =>
    rw [List.filter_cons, List.filter_cons, hn.before]
    split_ifs
    · rw [List.map_cons, List.map_cons, hn.id, ih]
    · exact ih

/-- **The order is the same**, and so are the edges of a cycle. -/
theorem Copies.order (h : Copies g g') : g.order = g'.order := by
  refine alike_eq.mp ?_
  unfold Graph.order
  rw [h.length_eq]
  refine (h.start.run _).bind fun s s' hs => ?_
  rw [hs.rest.edges, hs.placed]
  exact alike_eq.mpr rfl

end Graph

end StepLoom
