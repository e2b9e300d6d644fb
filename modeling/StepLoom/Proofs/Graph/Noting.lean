import StepLoom.Proofs.Graph.Contents
import StepLoom.Proofs.Graph.Invariant
import StepLoom.Proofs.Graph.Phases
import StepLoom.Proofs.Job
import StepLoom.Proofs.Noting
import StepLoom.Proofs.SideBySide

/-!
# Building a graph with a log of the edits

Building a graph takes the extension keys out of steps and of the job. Here each of these edits is
noted when it is made.

**Theorem (`noted_addJob`).** The graph is the same with and without the log, and so is the fault if
there is one. Only the job and its steps are edited.
-/

namespace StepLoom

open StepLoom.Graph

/-! ## The work -/

namespace Noting

def addStep (table : Value) (index : Nat) (step : Value) : Noting Graph (Value × List Edit) := do
  let id := stepId index
  let (paths, fields) ← liftM (step.take "paths")
  let (popped, _) ← rewrite step fields
  let patterns ← liftM (Value.oneOrMany paths)
  let pathIds ← if patterns.isEmpty then pure [] else do
    let texts ← liftM (Value.strings patterns)
    pure [← quietly (useCheck texts)]
  let isNew := !(← quietly get).has id
  quietly (addNode id .step popped pathIds)
  let setup := Fields.get? "setup" fields
  let (withoutSetup, edits) ← rewrite step (Fields.erase "setup" fields)
  quietly (refresh isNew id withoutSetup)
  quietly (replay edits)
  quietly (awaitSetups (table.applyAll edits) id setup pathIds)
  let (plain, edits) ← rewrite step (extensionKeys.foldl (fun fs k => Fields.erase k fs) fields)
  quietly (refresh isNew id plain)
  quietly (replay edits)
  if 0 < index then quietly (addEdge id (stepId (index - 1)))
  return (plain, edits)

def addSteps (table : Value) : (index : Nat) → List Value → (log : List Edit) →
    Noting Graph (List Value × List Edit)
  | _, [], _ => return ([], [])
  | index, step :: rest, log => do
    let (step, edits) ← addStep (table.applyAll log) index (step.applyAll log)
    let (rest, more) ← addSteps table (index + 1) rest (log ++ edits)
    return (step.applyAll more :: rest, edits ++ more)

def addJob (table job : Value) : Noting Graph (Value × List Edit) := do
  let source := Value.given? (← liftM (job.field? "steps"))
  let (steps, log) ← match source with
    | some v => addSteps table 0 (← liftM v.members) []
    | none => pure ([], [])
  let fields ← liftM (job.applyAll log).fieldsOf
  let setup := Fields.get? "setup" fields
  let fields := Fields.erase "setup" fields
  let (job, edits) ← rewrite job
    (if source.isSome then Fields.put "steps" (.list steps) fields else fields)
  quietly (replay edits)
  let table := table.applyAll (log ++ edits)
  if source.isSome then quietly (awaitSetups table (stepId 0) setup [])
  else
    let names ← quietly (names setup)
    quietly (useSetups table names)
  quietly awaitCheckout
  return (job, log ++ edits)

end Noting

open Noting

variable {M : Nat → Prop} {P : String → Kind → Value → Prop} {U : Value → Prop} {α : Type}
  {table job step : Value} {index : Nat} {steps : List Value} {log : List Edit} {ids : List String}
  {paths : Option Value} {fields : Fields} {g : Graph} {x : String} {content : Value}

/-- Work that maintains what nodes hold and edits nothing. -/
theorem noted_fills {y : Build α} (h : Fills P y) :
    Noted M (Contents P) (fun _ => Contents P) y (quietly y) := noted_quietly h

/-! ## One step -/

namespace Graph

/-- What is left of a step's fields. -/
def stripped (fields : Fields) : Fields :=
  extensionKeys.foldl (fun fs k => Fields.erase k fs) fields

/-- What a step brings into a graph is allowed, and edits of the step are, too. `fields` are those
that it has beside its paths. -/
structure Admits (M : Nat → Prop) (P : String → Kind → Value → Prop) (U : Value → Prop)
    (table : Value) (index : Nat) (step : Value) (paths : Option Value) (fields : Fields) :
    Prop where
  marked : ∀ m, step.mark? = some m → M m
  only : ∀ k v, P (stepId index) k v → k = .step
  plain : P (stepId index) .step (step.withFields (stripped fields)).1
  check : ∀ p rest texts, Value.oneOrMany paths = .ok (p :: rest) →
    Value.strings (p :: rest) = .ok texts →
      P (Check.nodeId (Check.sortTexts texts)) .paths (.list ((Check.sortTexts texts).map .str))
  setups : ∀ names, Value.oneOrMany (Fields.get? "setup" fields) = .ok names → ∀ n ∈ names, U n
  serves : Serves P U (table.applyAll (step.withFields (Fields.erase "setup" fields)).2)
  edits : ∀ fs ∈ [Fields.erase "setup" fields, stripped fields], ∀ x k v, P x k v →
    P x k (v.applyAll (step.withFields fs).2)

/-- The step may hold anything until it is done. -/
def Meanwhile (P : String → Kind → Value → Prop) (index : Nat) (x : String) (k : Kind) (v : Value) :
    Prop := x = stepId index ∧ k = .step ∨ P x k v

theorem Contents.meanwhile (h : Contents P g) : Contents (Meanwhile P index) g :=
  fun n hn => Or.inr (h n hn)

theorem fills_replay {edits : List Edit} (h : ∀ x k v, P x k v → P x k (v.applyAll edits)) :
    Fills P (replay edits) :=
  leads_modify fun _ hg => hg.map fun n hn => h n.id n.kind n.content hn

theorem fills_refresh {isNew : Bool} (h : ∀ k v, P x k v → P x k content) :
    Fills P (refresh isNew x content) := by
  unfold refresh
  split_ifs
  · refine leads_modify fun g hg => hg.map fun n hn => ?_
    split_ifs with hx
    · exact hx ▸ h n.kind n.content (hx ▸ hn)
    · exact hn
  · exact fills_pure ()

/-- A new step is done. -/
theorem leads_refresh (h : P (stepId index) .step content)
    (honly : ∀ k v, P (stepId index) k v → k = .step) :
    Leads (Contents (Meanwhile P index)) (fun _ => Contents P)
      (refresh true (stepId index) content) := by
  refine leads_modify fun g hg => hg.map fun n hn => ?_
  split_ifs with hx
  · have hkind : n.kind = .step := hn.elim And.right fun h => honly n.kind n.content (hx ▸ h)
    rw [hx, hkind]
    exact h
  · exact hn.resolve_left fun h => hx h.1

theorem Serves.meanwhile (h : Serves P U table) : Serves (Meanwhile P index) U table where
  holds hname htext hfound := Or.inr (h.holds hname htext hfound)
  needs := h.needs

end Graph

namespace Noting

/-- What is left to do for a step once its node is there. -/
def finishStep (table : Value) (index : Nat) (isNew : Bool) (step : Value) (fields : Fields)
    (ids : List String) : Noting Graph (Value × List Edit) := do
  let (withoutSetup, edits) ← rewrite step (Fields.erase "setup" fields)
  quietly (refresh isNew (stepId index) withoutSetup)
  quietly (Graph.replay edits)
  quietly (awaitSetups (table.applyAll edits) (stepId index) (Fields.get? "setup" fields) ids)
  let (plain, edits) ← rewrite step (stripped fields)
  quietly (refresh isNew (stepId index) plain)
  quietly (Graph.replay edits)
  if 0 < index then quietly (addEdge (stepId index) (stepId (index - 1)))
  return (plain, edits)

/-- The node of a step and what it waits for, once its path check is there. -/
def enterStep (table : Value) (index : Nat) (popped step : Value) (fields : Fields)
    (ids : List String) : Noting Graph (Value × List Edit) := do
  let isNew := !(← quietly get).has (stepId index)
  quietly (addNode (stepId index) .step popped ids)
  finishStep table index isNew step fields ids

end Noting

/-- A step is finished. `Q` says what nodes may hold in the meantime. -/
theorem noted_finishStep {Q : String → Kind → Value → Prop} {isNew : Bool}
    (h : Admits M P U table index step paths fields) (ids : List String)
    (hserves : Serves Q U (table.applyAll (step.withFields (Fields.erase "setup" fields)).2))
    (hedits : ∀ x k v, Q x k v →
      Q x k (v.applyAll (step.withFields (Fields.erase "setup" fields)).2))
    (hpopped : Fills Q
      (refresh isNew (stepId index) (step.withFields (Fields.erase "setup" fields)).1))
    (hplain : Leads (Contents Q) (fun _ => Contents P)
      (refresh isNew (stepId index) (step.withFields (stripped fields)).1)) :
    Noted M (Contents Q) (fun a g => a = step.withFields (stripped fields) ∧ Contents P g)
      (Graph.finishStep table index isNew (step.withFields (Fields.erase "setup" fields))
        (step.withFields (stripped fields)) (Fields.get? "setup" fields) ids)
      (Noting.finishStep table index isNew step fields ids) := by
  refine noted_rewrite h.marked rfl ((noted_fills hpopped).bind fun _ => ?_)
  refine (noted_fills (fills_replay hedits)).bind fun _ => ?_
  refine (noted_fills (fills_awaitSetups hserves h.setups)).bind fun _ => ?_
  refine noted_rewrite h.marked rfl ((noted_quietly hplain).bind fun _ => ?_)
  refine (noted_fills (fills_replay (h.edits _ (by simp)))).bind fun _ => ?_
  split_ifs
  · exact (noted_fills fills_addEdge).bind fun _ => noted_pure fun g hg => ⟨rfl, hg⟩
  · exact noted_pure fun g hg => ⟨rfl, hg⟩

/-- A step is entered, once its path check is there. -/
theorem noted_enterStep (h : Admits M P U table index step paths fields) (popped : Value)
    (ids : List String) :
    Noted M (Contents P) (fun a g => a = step.withFields (stripped fields) ∧ Contents P g)
      (Graph.enterStep table index popped (step.withFields (Fields.erase "setup" fields))
        (step.withFields (stripped fields)) (Fields.get? "setup" fields) ids)
      (Noting.enterStep table index popped step fields ids) := by
  refine (noted_quietly leads_get).bind fun g => ?_
  by_cases hhas : g.has (stepId index)
  · -- A node that is there keeps its content.
    have hadd : Leads (fun g' => g = g' ∧ Contents P g') (fun _ => Contents P)
        (addNode (stepId index) .step popped ids) := by
      rintro _ ⟨rfl, hg⟩
      exact ensures_of_exec (exec_addNode_old hhas) hg
    rw [hhas, Bool.not_true]
    refine (noted_quietly hadd).bind fun _ => ?_
    exact noted_finishStep h ids h.serves (h.edits _ (by simp)) (fills_pure ()) (fills_pure ())
  · -- A new node may hold anything until the step is done.
    have hadd : Fills (Meanwhile P index) (addNode (stepId index) .step popped ids) :=
      fills_addNode (Or.inl ⟨rfl, rfl⟩)
    rw [Bool.eq_false_of_not_eq_true hhas, Bool.not_false]
    refine ((noted_fills hadd).weaken fun _ hg => hg.2.meanwhile).bind fun _ => ?_
    refine noted_finishStep h ids h.serves.meanwhile (fun x k v hv => ?_)
      (fills_refresh fun k v hv => ?_) (leads_refresh h.plain h.only)
    · exact hv.imp_right (h.edits _ (by simp) x k v)
    · exact Or.inl ⟨rfl, hv.elim And.right (h.only k v)⟩

namespace Graph

/-- A step without its extension keys. -/
def Stripped (step plain : Value) : Prop := ∃ paths fields,
  step.take "paths" = .ok (paths, fields) ∧ plain = (step.withFields (stripped fields)).1

theorem Stripped.within {plain : Value} {A : Nat → Prop} (h : Stripped step plain)
    (hstep : step.Within A) : plain.Within A := by
  obtain ⟨paths, fields, htake, rfl⟩ := h
  exact (hstep.withFields ((hstep.take htake).2.eraseAll _)).1

end Graph

/-- **A step is added with and without the log alike**, and only the step is edited. -/
theorem noted_addStep
    (h : ∀ paths fields, step.take "paths" = .ok (paths, fields) →
      Admits M P U table index step paths fields) :
    Noted M (Contents P) (fun a g =>
      (Stripped step a.1 ∧ Value.EditsOf [step] a.2) ∧ Contents P g)
      (Graph.addStep table index step) (Noting.addStep table index step) := by
  refine noted_liftM.bind fun (paths, fields) => .assuming fun htake => ?_
  have hadmits := h paths fields htake
  refine noted_rewrite hadmits.marked rfl ?_
  refine noted_liftM.bind fun patterns => .assuming fun hpatterns => ?_
  have hfields := ((Value.within_marks step).take htake).2.eraseAll extensionKeys
  have hplaced : ∀ a g, a = step.withFields (stripped fields) ∧ Contents P g →
      (Stripped step a.1 ∧ Value.EditsOf [step] a.2) ∧ Contents P g := by
    rintro _ g ⟨rfl, hg⟩
    exact ⟨⟨⟨paths, fields, htake, rfl⟩, Value.editsOf_withFields hfields⟩, hg⟩
  cases patterns with
  | nil =>
    simp only [List.isEmpty_nil, if_true, pure_bind]
    exact (noted_enterStep hadmits _ []).mono hplaced
  | cons p rest =>
    simp only [List.isEmpty_cons, Bool.false_eq_true, if_false, pure_bind]
    refine noted_liftM.bind fun texts => .assuming fun htexts => ?_
    have hcheck := fills_useCheck (hadmits.check p rest texts hpatterns htexts)
    refine (noted_fills hcheck).bind fun id => ?_
    exact (noted_enterStep hadmits _ [id]).mono hplaced

/-! ## All steps -/

/-- **All steps are added with and without the log alike.** None of them stands in another one or in
the table. -/
theorem noted_addSteps (hadmits : ∀ i step, steps[i]? = some step → ∀ paths fields,
      step.take "paths" = .ok (paths, fields) → Admits M P U table (index + i) step paths fields)
    (hsteps : steps.Pairwise fun v w => v.Avoids w ∧ w.Avoids v)
    (htable : ∀ v ∈ steps, v.Avoids table)
    (hlog : ∀ e ∈ log, e.mark ∉ table.marks ∧ ∀ v ∈ steps, e.mark ∉ v.marks) :
    Noted M (Contents P) (fun a g =>
      (List.Forall₂ Stripped steps a.1 ∧ Value.EditsOf steps a.2) ∧ Contents P g)
      (Graph.addSteps table index steps log) (Noting.addSteps table index steps log) := by
  induction steps generalizing index log with
  | nil => exact noted_pure fun g hg => ⟨⟨.nil, Value.editsOf_nil []⟩, hg⟩
  | cons step rest ih =>
    rw [Graph.addSteps, Noting.addSteps,
      Value.applyAll_of_not_mem fun e he => (hlog e he).1,
      Value.applyAll_of_not_mem fun e he => (hlog e he).2 step (by simp)]
    obtain ⟨hstep, hrest⟩ := List.pairwise_cons.mp hsteps
    refine (noted_addStep (hadmits 0 step rfl)).bind
      fun (plain, edits) => .assuming fun ⟨hplain, hedits⟩ => ?_
    have hlog' : ∀ e ∈ log ++ edits, e.mark ∉ table.marks ∧ ∀ v ∈ rest, e.mark ∉ v.marks := by
      intro e he
      rcases List.mem_append.mp he with he | he
      · exact ⟨(hlog e he).1, fun v hv => (hlog e he).2 v (List.mem_cons_of_mem step hv)⟩
      · obtain ⟨_, hmem, hmark, -⟩ := hedits e he
        obtain rfl := List.mem_singleton.mp hmem
        exact ⟨htable _ (by simp) _ hmark, fun v hv => (hstep v hv).1 _ hmark⟩
    have hadmits' : ∀ i v, rest[i]? = some v →
        ∀ paths fields, v.take "paths" = .ok (paths, fields) →
          Admits M P U table (index + 1 + i) v paths fields := fun i v hi => by
      rw [Nat.add_right_comm, Nat.add_assoc]
      exact hadmits (i + 1) v hi
    refine (ih hadmits' hrest (fun v hv => htable v (List.mem_cons_of_mem step hv)) hlog').bind
      fun (plains, more) => .assuming fun ⟨hplains, hmore⟩ => ?_
    -- Later edits leave the step alone.
    have hkeep : plain.applyAll more = plain := by
      refine hmore.applyAll_of_avoids fun v hv m hm hmem => ?_
      exact (hstep v hv).2 m hm (hplain.within (Value.within_marks step) m hmem)
    refine noted_pure fun g hg => ⟨⟨?_, ?_⟩, hg⟩
    · rw [hkeep]
      exact .cons hplain hplains
    · exact (hedits.mono (by simp)).append (hmore.mono (by simp))

/-! ## The job -/

namespace Graph

/-- A job without its extension keys. Its steps have been edited before. -/
def Shed (job plain : Value) : Prop := ∃ log fields plains,
  Value.EditsOf (Job.steps job) log ∧ (job.applyAll log).fieldsOf = .ok fields ∧
  List.Forall₂ Stripped (Job.steps job) plains ∧
  plain = (job.withFields (if (Value.given? (job.part "steps")).isSome
    then Fields.put "steps" (.list plains) (Fields.erase "setup" fields)
    else Fields.erase "setup" fields)).1

/-- What a job brings into a graph is allowed. The job and its steps do not stand in the table, nor
do the steps stand in each other. -/
structure JobAdmits (M : Nat → Prop) (P : String → Kind → Value → Prop) (U : Value → Prop)
    (table job : Value) : Prop where
  marked : ∀ m, job.mark? = some m → M m
  steps : ∀ i step, (Job.steps job)[i]? = some step → ∀ paths fields,
    step.take "paths" = .ok (paths, fields) → Admits M P U table i step paths fields
  apart : (Job.steps job).Pairwise fun v w => v.Avoids w ∧ w.Avoids v
  outside : ∀ v ∈ job :: Job.steps job, v.Avoids table
  setups : ∀ log fields names, Value.EditsOf (Job.steps job) log →
    (job.applyAll log).fieldsOf = .ok fields →
    Value.oneOrMany (Fields.get? "setup" fields) = .ok names → ∀ n ∈ names, U n
  serves : Serves P U table
  edits : ∀ fs : Fields, fs.Within (· ∈ job.marks) → ∀ x k v, P x k v →
    P x k (v.applyAll (job.withFields fs).2)

theorem within_of_mem_steps (h : step ∈ Job.steps job) : step.Within (· ∈ job.marks) := by
  unfold Job.steps at h
  split at h
  · next heq =>
    refine Value.Within.membersOrNone (fun w hw => ?_) heq step h
    exact (Value.within_marks job).part hw
  · cases h

/-- The fields that are left of a job come from the job. -/
theorem within_shed {log : List Edit} {plains : List Value} {p : Prop} [Decidable p]
    (hlog : Value.EditsOf (Job.steps job) log) (hfields : (job.applyAll log).fieldsOf = .ok fields)
    (hplains : List.Forall₂ Stripped (Job.steps job) plains) :
    Fields.Within (· ∈ job.marks) (if p
      then Fields.put "steps" (.list plains) (Fields.erase "setup" fields)
      else Fields.erase "setup" fields) := by
  have hedits : Value.EditsWithin (· ∈ job.marks) log := by
    intro e he
    obtain ⟨v, hv, -, hwithin⟩ := hlog e he
    exact fun f hf => (hwithin f hf).mono (within_of_mem_steps hv)
  have hleft : (Fields.erase "setup" fields).Within (· ∈ job.marks) :=
    (((Value.within_marks job).applyAll hedits).fieldsOf hfields).erase
  split_ifs
  · refine hleft.put (Value.within_list.mpr fun v hv => ?_)
    obtain ⟨step, hstep, hplain⟩ := forall₂_exists_left hplains hv
    exact hplain.within (within_of_mem_steps hstep)
  · exact hleft

theorem Shed.within {plain : Value} (h : Shed job plain) : plain.Within (· ∈ job.marks) := by
  obtain ⟨log, fields, plains, hlog, hfields, hplains, rfl⟩ := h
  exact ((Value.within_marks job).withFields (within_shed hlog hfields hplains)).1

theorem Shed.mark? {plain : Value} (h : Shed job plain) : plain.mark? = job.mark? := by
  obtain ⟨log, fields, plains, -, -, -, rfl⟩ := h
  exact Value.mark?_withFields

end Graph

namespace Noting

/-- The job's own setups and the checkout, once the steps are there. -/
def enterJob (table job : Value) (source : Option Value) (plains : List Value) (log : List Edit) :
    Noting Graph (Value × List Edit) := do
  let fields ← liftM (job.applyAll log).fieldsOf
  let setup := Fields.get? "setup" fields
  let fields := Fields.erase "setup" fields
  let (job, edits) ← rewrite job
    (if source.isSome then Fields.put "steps" (.list plains) fields else fields)
  quietly (Graph.replay edits)
  let table := table.applyAll (log ++ edits)
  if source.isSome then quietly (awaitSetups table (stepId 0) setup [])
  else
    let names ← quietly (names setup)
    quietly (useSetups table names)
  quietly awaitCheckout
  return (job, log ++ edits)

end Noting

/-- A job is entered, once its steps are there. -/
theorem noted_enterJob (h : JobAdmits M P U table job) {source : Option Value} {plains : List Value}
    (hsource : Value.given? (job.part "steps") = source)
    (hplains : List.Forall₂ Stripped (Job.steps job) plains)
    (hlog : Value.EditsOf (Job.steps job) log) :
    Noted M (Contents P) (fun a g =>
      (Shed job a.1 ∧ Value.EditsOf (job :: Job.steps job) a.2) ∧ Contents P g)
      (Graph.enterJob table job source plains log)
      (Noting.enterJob table job source plains log) := by
  subst hsource
  refine noted_liftM.bind fun fields => .assuming fun hfields => ?_
  have hwithin := within_shed hlog hfields hplains (p := (Value.given? (job.part "steps")).isSome)
  have hedits := (hlog.mono (List.subset_cons_self job _)).append
    ((Value.editsOf_withFields hwithin).mono (by simp))
  have hreplay := fills_replay (h.edits _ hwithin)
  have hshed : Shed job (job.withFields _).1 := ⟨log, fields, plains, hlog, hfields, hplains, rfl⟩
  dsimp only
  generalize hmade : job.withFields (if (Value.given? (job.part "steps")).isSome
    then Fields.put "steps" (.list plains) (Fields.erase "setup" fields)
    else Fields.erase "setup" fields) = made at hedits hreplay hshed ⊢
  obtain ⟨plain, edits⟩ := made
  refine noted_rewrite h.marked hmade ?_
  dsimp only at hedits hreplay hshed ⊢
  rw [hedits.applyAll_of_avoids h.outside]
  refine (noted_fills hreplay).bind fun _ => ?_
  have hdone : Noted M (Contents P) (fun a g =>
      (Shed job a.1 ∧ Value.EditsOf (job :: Job.steps job) a.2) ∧ Contents P g)
      (do awaitCheckout; return (plain, log ++ edits))
      (do quietly awaitCheckout; return (plain, log ++ edits)) :=
    (noted_fills fills_awaitCheckout).bind fun _ => noted_pure fun g hg => ⟨⟨hshed, hedits⟩, hg⟩
  have hsetups := h.setups log fields
  split_ifs
  · refine (noted_fills (fills_awaitSetups h.serves fun names hnames => ?_)).bind fun _ => hdone
    exact hsetups names hlog hfields hnames
  · refine (noted_quietly leads_liftM).bind fun names => .assuming fun hnames => ?_
    refine (noted_fills (fills_useSetups h.serves ?_)).bind fun _ => hdone
    exact hsetups names hlog hfields hnames

/-- **A job gives one graph with and without the log**, and only the job and its steps are
edited. -/
theorem noted_addJob (h : JobAdmits M P U table job) :
    Noted M (Contents P) (fun a g =>
      (Shed job a.1 ∧ Value.EditsOf (job :: Job.steps job) a.2) ∧ Contents P g)
      (Graph.addJob table job) (Noting.addJob table job) := by
  refine noted_liftM.bind fun field => .assuming fun hfield => ?_
  obtain rfl := Value.part_of_field? hfield
  cases hsource : Value.given? (job.part "steps") with
  | none =>
    have hnone : Job.steps job = [] := by rw [Job.steps, Value.membersOrNone, hsource]
    exact noted_enterJob h hsource (by rw [hnone]; exact .nil) (Value.editsOf_nil _)
  | some v =>
    refine noted_liftM.bind fun steps => .assuming fun hmembers => ?_
    obtain rfl := Job.steps_of_given hsource hmembers
    have hadmits : ∀ i step, (Job.steps job)[i]? = some step → ∀ paths fields,
        step.take "paths" = .ok (paths, fields) → Admits M P U table (0 + i) step paths fields := by
      intro i
      rw [Nat.zero_add]
      exact h.steps i
    have houtside : ∀ v ∈ Job.steps job, v.Avoids table := fun v hv =>
      h.outside v (List.mem_cons_of_mem job hv)
    refine (noted_addSteps hadmits h.apart houtside (by simp)).bind ?_
    rintro ⟨plains, log⟩
    exact .assuming fun hdone => noted_enterJob h hsource hdone.1 hdone.2

end StepLoom
