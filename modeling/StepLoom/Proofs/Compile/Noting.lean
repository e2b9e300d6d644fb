import StepLoom.Proofs.Compile.Phases
import StepLoom.Proofs.Graph.Noting

/-!
# Compiling a job with a log of the edits

Resolving bail conditions puts ids and gates into steps in place, and the compiled job gets its
steps in place as well. Here each of these edits is noted when it is made.

**Theorem (`noted_compile`).** Compiling has the same outcome with and without the log, and edits
only mappings that the job brings in.
-/

namespace StepLoom

/-! ## The work -/

namespace Noting

variable {σ : Type}

def gateFrom (gate : String) : (count position : Nat) → List Value → List Edit →
    Noting σ (List Value × List Edit)
  | 0, _, steps, log => return (steps, log)
  | count + 1, position, steps, log =>
    match steps[position]? with
    | none => return (steps, log)
    | some step => do
      let existing ← liftM (step.field? "if")
      let gated ← liftM (Gate.inFrontOf gate existing)
      let fields ← liftM step.spread
      let (step, edits) ← rewrite step (Fields.put "if" (.str gated) fields)
      gateFrom gate count (position + 1) (Bail.replay edits (steps.set position step))
        (log ++ edits)

/-- The id is there before the condition is taken out, and the condition is out before it is
read. -/
def resolveOne (n position : Nat) (steps : List Value) (log : List Edit) :
    Noting σ (List Value × List Edit) :=
  match steps[position]? with
  | none => return (steps, log)
  | some step => do
    let fields ← liftM step.fieldsOf
    let fields :=
      if (Value.given? (Fields.get? "id" fields)).isSome then fields
      else Fields.put "id" (.str (Bail.defaultId n)) fields
    let _ ← rewrite step fields
    match Fields.get? "id" fields, Fields.get? "bail_if" fields with
    | some id, some condition => do
      let text ← liftM id.text
      let (step, edits) ← rewrite step (Fields.erase "bail_if" fields)
      let condition ← liftM (Bail.qualify text condition)
      gateFrom (Bail.negate condition) (steps.length - (position + 1)) (position + 1)
        (Bail.replay edits (steps.set position step)) (log ++ edits)
    | _, _ => throw .missingKey

def resolveAt : (n : Nat) → (positions : List Nat) → List Value → List Edit →
    Noting σ (List Value × List Edit)
  | _, [], steps, log => return (steps, log)
  | n, position :: rest, steps, log => do
    let (steps, log) ← resolveOne n position steps log
    resolveAt (n + 1) rest steps log

def dropFrom : (count position : Nat) → List Value → List Edit → Noting σ (List Value × List Edit)
  | 0, _, steps, log => return (steps, log)
  | count + 1, position, steps, log =>
    match steps[position]? with
    | none => return (steps, log)
    | some step => do
      let fields ← liftM step.fieldsOf
      let (step, edits) ← rewrite step (Fields.erase "bail_if" fields)
      dropFrom count (position + 1) (Bail.replay edits (steps.set position step)) (log ++ edits)

def resolveAll (steps : List Value) : Noting σ (List Value × List Edit) := do
  let positions ← liftM (Bail.positionsFrom 0 steps)
  let (steps, log) ← resolveAt 1 positions steps []
  dropFrom steps.length 0 steps log

/-- The graph of a job. It starts empty, while the log goes on. -/
def ofJob (table job : Value) : Noting σ (Graph × Value × List Edit) :=
  ExceptT.mk fun (s : σ × List Edit) =>
    match exec (addJob table job) ({}, s.2) with
    | (.ok (job, edits), (g, log)) => (.ok (g, job, edits), (s.1, log))
    | (.error e, (_, log)) => (.error e, (s.1, log))

/-- Compiling a job, with a log of the edits. -/
def compile (table job : Value) : Noting Registry (Value × List Edit) := do
  let (graph, job, log) ← ofJob table job
  let order ← liftM graph.order
  let gated ← quietly (Block.join graph order)
  let (steps, edits) ← resolveAll gated
  let fields ← liftM (job.applyAll edits).fieldsOf
  let (job, last) ← rewrite job (Fields.put "steps" (.list steps) fields)
  return (job, log ++ edits ++ last)

end Noting

open Noting

variable {σ : Type} {M A : Nat → Prop} {I : σ → Prop} {table job v : Value} {steps : List Value}
  {log edits : List Edit} {gate : String} {n position count : Nat}

/-! ## Steps in place -/

/-- All marks of a value are in `A`, and if it is a marked mapping, it may be edited. -/
structure Value.Held (A M : Nat → Prop) (v : Value) : Prop where
  within : v.Within A
  marked : ∀ m, v.mark? = some m → M m

/-- Edits that may be made. -/
structure EditsHeld (A M : Nat → Prop) (edits : List Edit) : Prop where
  within : Value.EditsWithin A edits
  marked : ∀ e ∈ edits, M e.mark

/-- Steps that may be edited, and edits of them. -/
def StepsHeld (A M : Nat → Prop) (a : List Value × List Edit) : Prop :=
  (∀ v ∈ a.1, v.Held A M) ∧ EditsHeld A M a.2

theorem editsHeld_nil : EditsHeld A M [] := ⟨by simp [Value.EditsWithin], by simp⟩

theorem EditsHeld.append {es : List Edit} (h : EditsHeld A M edits) (h' : EditsHeld A M es) :
    EditsHeld A M (edits ++ es) :=
  ⟨fun e he => (List.mem_append.mp he).elim (h.within e) (h'.within e),
    fun e he => (List.mem_append.mp he).elim (h.marked e) (h'.marked e)⟩

namespace Value

theorem held_record {fields : Fields} (h : fields.Within A) : (record fields).Held A M :=
  ⟨within_record.mpr h, fun m hm => by simp [mark?] at hm⟩

theorem Held.applyAll (h : v.Held A M) (he : EditsWithin A edits) : (v.applyAll edits).Held A M :=
  ⟨h.within.applyAll he, fun m hm => h.marked m (mark?_applyAll ▸ hm)⟩

theorem Held.withFields {fields : Fields} (h : v.Held A M) (hf : fields.Within A) :
    (v.withFields fields).1.Held A M ∧ EditsHeld A M (v.withFields fields).2 :=
  ⟨⟨(h.within.withFields hf).1, fun m hm => h.marked m (mark?_withFields ▸ hm)⟩,
    (h.within.withFields hf).2, fun e he => h.marked e.mark (mark_of_withFields he)⟩

end Value

/-- One step gets new fields, and its other places get them, too. -/
theorem StepsHeld.put (h : StepsHeld A M (steps, log)) (hv : v.Held A M)
    (he : EditsHeld A M edits) :
    StepsHeld A M (Bail.replay edits (steps.set position v), log ++ edits) := by
  refine ⟨fun w hw => ?_, h.2.append he⟩
  obtain ⟨u, hu, rfl⟩ := List.mem_map.mp hw
  refine Value.Held.applyAll ?_ he.within
  rcases List.mem_or_eq_of_mem_set hu with hu | rfl
  · exact h.1 u hu
  · exact hv

/-! ## Bail conditions -/

theorem noted_gateFrom (h : StepsHeld A M (steps, log)) :
    Noted M I (fun a g => StepsHeld A M a ∧ I g)
      (liftM (Bail.gateFrom gate count position steps log))
      (Noting.gateFrom gate count position steps log) := by
  induction count generalizing position steps log with
  | zero => exact noted_pure fun g hg => ⟨h, hg⟩
  | succ count ih =>
    rw [Bail.gateFrom, Noting.gateFrom]
    cases hstep : steps[position]? with
    | none => exact noted_pure fun g hg => ⟨h, hg⟩
    | some step =>
      have hheld := h.1 step (List.mem_of_getElem? hstep)
      refine noted_liftM_bind noted_liftM fun existing => .assuming fun _ => ?_
      refine noted_liftM_bind noted_liftM fun gated => .assuming fun _ => ?_
      refine noted_liftM_bind noted_liftM fun fields => .assuming fun hfields => ?_
      have hnew : Fields.Within A (Fields.put "if" (.str gated) fields) :=
        (hheld.within.spread hfields).put (Value.within_scalar _)
      have hput := hheld.withFields hnew
      generalize hmade : step.withFields (Fields.put "if" (.str gated) fields) = made at hput ⊢
      exact noted_rewrite hheld.marked hmade (ih (h.put hput.1 hput.2))

theorem noted_resolveOne (h : StepsHeld A M (steps, log)) :
    Noted M I (fun a g => StepsHeld A M a ∧ I g) (liftM (Bail.resolveOne n position steps log))
      (Noting.resolveOne n position steps log) := by
  rw [Bail.resolveOne, Noting.resolveOne]
  cases hstep : steps[position]? with
  | none => exact noted_pure fun g hg => ⟨h, hg⟩
  | some step =>
    have hheld := h.1 step (List.mem_of_getElem? hstep)
    refine noted_liftM_bind noted_liftM fun fields => .assuming fun hfields => ?_
    have hwithin := hheld.within.fieldsOf hfields
    have hid : Fields.Within A (Bail.withId n fields) := by
      unfold Bail.withId
      split_ifs
      · exact hwithin
      · exact hwithin.put (Value.within_scalar _)
    dsimp only
    rw [← Bail.withId]
    generalize Bail.withId n fields = fields at hid ⊢
    refine noted_rewrite hheld.marked rfl ?_
    cases Fields.get? "id" fields with
    | none => exact noted_throw _
    | some id =>
      cases Fields.get? "bail_if" fields with
      | none => exact noted_throw _
      | some condition =>
        refine noted_liftM_bind noted_liftM fun text => .assuming fun _ => ?_
        have hnew : Fields.Within A (Fields.erase "bail_if" fields) := hid.erase
        have hput := hheld.withFields hnew
        generalize hmade : step.withFields (Fields.erase "bail_if" fields) = made at hput ⊢
        refine noted_rewrite hheld.marked hmade ?_
        refine noted_liftM_bind noted_liftM fun condition => .assuming fun _ => ?_
        exact noted_gateFrom (h.put hput.1 hput.2)

theorem noted_resolveAt {positions : List Nat} (h : StepsHeld A M (steps, log)) :
    Noted M I (fun a g => StepsHeld A M a ∧ I g) (liftM (Bail.resolveAt n positions steps log))
      (Noting.resolveAt n positions steps log) := by
  induction positions generalizing n steps log with
  | nil => exact noted_pure fun g hg => ⟨h, hg⟩
  | cons position rest ih =>
    exact noted_liftM_bind (noted_resolveOne h) fun _ => .assuming fun h => ih h

theorem noted_dropFrom (h : StepsHeld A M (steps, log)) :
    Noted M I (fun a g => StepsHeld A M a ∧ I g) (liftM (Bail.dropFrom count position steps log))
      (Noting.dropFrom count position steps log) := by
  induction count generalizing position steps log with
  | zero => exact noted_pure fun g hg => ⟨h, hg⟩
  | succ count ih =>
    rw [Bail.dropFrom, Noting.dropFrom]
    cases hstep : steps[position]? with
    | none => exact noted_pure fun g hg => ⟨h, hg⟩
    | some step =>
      have hheld := h.1 step (List.mem_of_getElem? hstep)
      refine noted_liftM_bind noted_liftM fun fields => .assuming fun hfields => ?_
      have hnew : Fields.Within A (Fields.erase "bail_if" fields) :=
        (hheld.within.fieldsOf hfields).erase
      have hput := hheld.withFields hnew
      generalize hmade : step.withFields (Fields.erase "bail_if" fields) = made at hput ⊢
      exact noted_rewrite hheld.marked hmade (ih (h.put hput.1 hput.2))

/-- **Bail conditions are resolved with and without the log alike.** -/
theorem noted_resolveAll (h : ∀ v ∈ steps, v.Held A M) :
    Noted M I (fun a g => StepsHeld A M a ∧ I g) (liftM (Bail.resolveAll steps))
      (Noting.resolveAll steps) := by
  refine noted_liftM_bind noted_liftM fun positions => .assuming fun _ => ?_
  refine noted_liftM_bind (noted_resolveAt ⟨h, editsHeld_nil⟩) fun (steps, log) => ?_
  exact .assuming fun h => noted_dropFrom h

/-! ## Blocks -/

/-- What the nodes of a job's graph hold. The patterns of path checks are among those of `L`. -/
structure NodeHeld (A M : Nat → Prop) (L : List String → Prop) (x : String) (k : Kind) (v : Value) :
    Prop where
  within : v.Within A
  step : k = .step → (∃ i, x = Graph.stepId i) ∧ ∀ m, v.mark? = some m → M m
  setup : k = .setup → ∃ s, x = Graph.setupId s
  paths : k = .paths → Graph.IsCheck x ∧ ∃ ps, L ps ∧ v = .list (ps.map .str)

namespace Block

variable {L : List String → Prop} {g : Graph} {name x : String} {definition w : Value}
  {condition : Option String} {outs : List (String × String)} {b : List Value}

theorem held_of_guardWith (h : v.Held A M) (hw : Gate.guardWith condition v = .ok w) :
    w.Held A M := by
  obtain rfl | ⟨gate, fields, hfields, rfl⟩ := guardWith_cases hw
  · exact h
  · exact Value.held_record ((h.within.spread hfields).put (Value.within_scalar _))

theorem held_of_texts (fields : List (Scalar × String)) :
    (Value.record (fields.map fun (k, s) => (k, .str s))).Held A M :=
  Value.held_record (List.forall_mem_map.mpr fun _ _ => Value.within_scalar _)

theorem held_of_copies (h : definition.Within A) (hb : copies name definition = .ok b) :
    ∀ v ∈ b, v.Held A M := by
  intro v hv
  obtain ⟨items, hitems, hcopied⟩ := copies_inv hb
  rcases hcopied.mem v hv with rfl | rfl | ⟨item, hitem, fields, hfields, rfl | ⟨label, rfl⟩⟩
  · exact held_of_texts [("name", _), ("run", _)]
  · exact held_of_texts [("name", _), ("run", _)]
  all_goals
    have hwithin := (Setup.within_steps h hitems item hitem).asFields hfields
  · exact Value.held_record hwithin
  · exact Value.held_record (hwithin.put (Value.within_scalar _))

/-- The steps of a block may be edited if the node holds what it may hold. -/
theorem BlockOf.held (h : BlockOf g outs x b) (hg : Graph.Contents (NodeHeld A M L) g) :
    ∀ v ∈ b, v.Held A M := by
  have hnode : ∀ {n}, g.find? x = some n → NodeHeld A M L n.id n.kind n.content := fun hn =>
    hg _ (List.mem_of_find?_eq_some hn)
  cases h with
  | paths hn hk hc hp ho hs hv =>
    obtain ⟨found, -, rfl⟩ := Check.step_ok hs
    simpa using held_of_guardWith (held_of_texts [("id", _), ("name", _), ("run", _)]) hv
  | setup hn hk hc hs =>
    rw [ofSetup_eq] at hs
    obtain ⟨vs, hvs, hs⟩ := bind_eq_ok.mp hs
    intro v hv
    obtain ⟨w, hw, hguard⟩ := forall₂_exists_left (mapM_ok hs) hv
    exact held_of_guardWith (held_of_copies (hnode hn).within hvs w hw) hguard
  | step hn hk hc hv =>
    obtain ⟨-, hmark⟩ := (hnode hn).step hk
    simpa using held_of_guardWith ⟨(hnode hn).within, hmark⟩ hv

theorem leads_join (hg : Graph.Contents (NodeHeld A M L) g) (ids : List String) :
    Leads (fun _ => True) (fun steps _ => (∀ v ∈ steps, v.Held A M) ∧ True) (join g ids) := by
  intro r _
  unfold Ensures
  rcases hj : exec (join g ids) r with ⟨e | steps, r'⟩
  · trivial
  · obtain ⟨blocks, outs, rfl, -, hblocks⟩ := joinFrom_ok hj
    refine ⟨fun v hv => ?_, trivial⟩
    obtain ⟨b, hb, hvb⟩ := List.mem_flatten.mp hv
    obtain ⟨x, -, hof⟩ := forall₂_exists_left hblocks hb
    exact hof.held hg v hvb

end Block

/-! ## The job -/

theorem noted_ofJob {P : String → Kind → Value → Prop} {U : Value → Prop}
    (h : Graph.JobAdmits M P U table job) :
    Noted M I (fun a s => (Graph.Contents P a.1 ∧ Graph.Shed job a.2.1 ∧
      Value.EditsOf (job :: Job.steps job) a.2.2) ∧ I s)
      (liftM (Graph.ofJob table job)) (Noting.ofJob table job) := by
  intro s log hs
  obtain ⟨hensures, more, hmore, hexec⟩ := noted_addJob h {} log Graph.contents_empty
  have hnoting : exec (Noting.ofJob table job) (s, log) =
      match exec (addJob table job) ({}, log) with
      | (.ok (job, edits), (g, log)) => (.ok (g, job, edits), (s, log))
      | (.error e, (_, log)) => (.error e, (s, log)) := rfl
  have hof : Graph.ofJob table job = match exec (Graph.addJob table job) {} with
      | (.ok (job, edits), g) => .ok (g, job, edits)
      | (.error e, _) => .error e := rfl
  rw [hnoting, hexec, hof]
  unfold Ensures at hensures ⊢
  generalize exec (Graph.addJob table job) {} = p at hensures ⊢
  obtain ⟨e | ⟨plain, edits⟩, g⟩ := p
  · exact ⟨trivial, more, hmore, rfl⟩
  · exact ⟨⟨⟨hensures.2, hensures.1⟩, hs⟩, more, hmore, rfl⟩

/-- What is in the graph of a job, and what is left of the job. -/
theorem ofJob_ok {P : String → Kind → Value → Prop} {U : Value → Prop} {g : Graph} {plain : Value}
    (h : Graph.JobAdmits M P U table job) (hof : Graph.ofJob table job = .ok (g, plain, log)) :
    Graph.Contents P g ∧ Graph.Shed job plain ∧ Value.EditsOf (job :: Job.steps job) log := by
  have hensures := (noted_ofJob (I := fun _ : Unit => True) h).leads () trivial
  rw [hof] at hensures
  exact hensures.1

/-- **A job compiles with and without the log alike**, and only mappings with marks from `M` are
edited. All marks of the compiled job and of its edits are in `A`. -/
theorem noted_compile {L : List String → Prop} {U : Value → Prop}
    (h : Graph.JobAdmits M (NodeHeld A M L) U table job) (hjob : job.Within A)
    (hmarked : ∀ v ∈ job :: Job.steps job, ∀ m, v.mark? = some m → M m) :
    Noted M (fun _ => True) (fun a _ => (a.1.Within A ∧ EditsHeld A M a.2) ∧ True)
      (Job.compile table job) (Noting.compile table job) := by
  refine (noted_ofJob h).bind fun (g, plain, log) => .assuming fun ⟨hg, hshed, hlog⟩ => ?_
  have hplain : plain.Held A M := by
    refine ⟨hshed.within.mono hjob, fun m hm => hmarked job (by simp) m ?_⟩
    rwa [← hshed.mark?]
  have hlog : EditsHeld A M log := by
    refine ⟨fun e he => ?_, fun e he => ?_⟩ <;> obtain ⟨v, hv, hmark, hfields⟩ := hlog e he
    · refine fun f hf => (hfields f hf).mono fun m hm => hjob m ?_
      rcases List.mem_cons.mp hv with rfl | hv
      · exact hm
      · exact Graph.within_of_mem_steps hv m hm
    · exact hmarked v hv e.mark hmark
  refine noted_liftM.bind fun ids => .assuming fun _ => ?_
  refine (noted_quietly (Block.leads_join hg ids)).bind fun gated => .assuming fun hgated => ?_
  refine (noted_resolveAll hgated).bind fun (steps, edits) => .assuming fun ⟨hsteps, hedits⟩ => ?_
  refine noted_liftM.bind fun fields => .assuming fun hfields => ?_
  have hput : Fields.Within A (Fields.put "steps" (.list steps) fields) :=
    ((hplain.applyAll hedits.within).within.fieldsOf hfields).put
      (Value.within_list.mpr fun v hv => (hsteps v hv).within)
  obtain ⟨hdone, hlast⟩ := hplain.withFields hput
  refine noted_rewrite hplain.marked rfl (noted_pure fun r _ => ?_)
  exact ⟨⟨hdone.within, (hlog.append hedits).append hlast⟩, trivial⟩

end StepLoom
