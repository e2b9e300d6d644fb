import StepLoom.Compile.Job
import StepLoom.Proofs.Fields
import StepLoom.Proofs.Needs

/-!
# What a job asks for

The steps of a job, the patterns and the setups that a step names, and the setups that are reached
from a job: those named by its steps or by itself, and whatever these need.

Two predicates say what the later files assume of a job. `Job.TextNames` says that setups are named
by texts. `Job.Listed` says that every field from which the graph is built can be listed.
-/

namespace StepLoom

open Setup

namespace Step

/-- The patterns of a step. -/
def patterns (step : Value) : List String := Value.textsIn (step.part "paths")

/-- The setups that a step names. -/
def setups (step : Value) : List String := Value.textsIn (step.part "setup")

/-- The path check that a step is conditioned on, if it has patterns. -/
def checks (step : Value) : List String :=
  if patterns step = [] then [] else [Check.nodeId (patterns step)]

/-- The step without the extension keys. -/
def plain (step : Value) : Value :=
  match step.fields? with
  | some fields =>
    .record (Graph.extensionKeys.foldl (fun fs k => Fields.erase k fs)
      (Fields.erase "paths" fields))
  | none => step

/-- The step is a mapping, its patterns are texts, and its setups can be listed. -/
structure Listed (step : Value) : Prop where
  fields : ∃ fields, step.fields? = some fields
  patterns : ∃ vs, Value.oneOrMany (step.part "paths") = .ok vs ∧ ∀ v ∈ vs, ∃ s, v = .str s
  setups : ∃ vs, Value.oneOrMany (step.part "setup") = .ok vs

end Step

namespace Job

/-- The steps of a job, none if the field is blank. -/
def steps (job : Value) : List Value :=
  match Value.membersOrNone (job.part "steps") with
  | .ok steps => steps
  | .error _ => []

theorem steps_of_given {job source : Value} {vs : List Value}
    (hsource : Value.given? (job.part "steps") = some source) (hvs : source.members = .ok vs) :
    steps job = vs := by
  rw [steps, Value.membersOrNone, hsource]
  dsimp only
  rw [hvs]

/-- The setups that a job names itself. -/
def setups (job : Value) : List String := Value.textsIn (job.part "setup")

/-- The setups that a job and its steps name. -/
def named (job : Value) : List String := (steps job).flatMap Step.setups ++ setups job

/-- The patterns of a path check, sorted. Patterns that give the same id share the check of the
first step that has it. -/
def checkPatterns (job : Value) (x : String) : List String :=
  match (steps job).find? fun step => x ∈ Step.checks step with
  | some step => Check.sortTexts (Step.patterns step)
  | none => []

/-- The setups that are referenced from a job, directly or through others. -/
def Reached (table job : Value) (s : String) : Prop := ReachedFrom table (named job) s

/-- The job without the extension keys, its steps included. -/
def plain (job : Value) : Value :=
  match job.fields? with
  | some fields =>
    let fields := Fields.erase "setup" fields
    .record (if (Value.given? (job.part "steps")).isSome
      then Fields.put "steps" (.list ((steps job).map Step.plain)) fields else fields)
  | none => job

/-- The names of setups are texts. Any other name shares its node with the text that it is displayed
as, so that a node would not tell which definition it stands for. -/
structure TextNames (table job : Value) : Prop where
  table : Setup.TextNames table
  steps : ∀ step ∈ steps job, Value.OnlyTexts (step.part "setup")
  job : Value.OnlyTexts (job.part "setup")

/-- Everything that the graph is built from can be listed. -/
structure Listed (job : Value) : Prop where
  fields : ∃ fields, job.fields? = some fields
  steps : ∃ vs, Value.membersOrNone (job.part "steps") = .ok vs
  each : ∀ step ∈ Job.steps job, Step.Listed step
  setups : ∃ vs, Value.oneOrMany (job.part "setup") = .ok vs

theorem named_of_step {job step : Value} (h : step ∈ steps job) {n : String}
    (hn : n ∈ Step.setups step) : n ∈ named job :=
  List.mem_append_left _ (List.mem_flatMap.mpr ⟨step, h, hn⟩)

theorem reached_of_step {table job step : Value} (h : step ∈ steps job) {s : String}
    (hs : ReachedFrom table (Step.setups step) s) : Reached table job s := by
  obtain ⟨n, hn, hr⟩ := hs
  exact ⟨n, named_of_step h hn, hr⟩

theorem reached_of_setups {table job : Value} {s : String}
    (hs : ReachedFrom table (setups job) s) : Reached table job s := by
  obtain ⟨n, hn, hr⟩ := hs
  exact ⟨n, List.mem_append_right _ hn, hr⟩

theorem reached_iff {table job : Value} {s : String} : Reached table job s ↔
    (∃ step ∈ steps job, ReachedFrom table (Step.setups step) s) ∨
      ReachedFrom table (setups job) s := by
  constructor
  · rintro ⟨n, hn, hr⟩
    rcases List.mem_append.mp hn with hn | hn
    · obtain ⟨step, hstep, hn⟩ := List.mem_flatMap.mp hn
      exact Or.inl ⟨step, hstep, n, hn, hr⟩
    · exact Or.inr ⟨n, hn, hr⟩
  · rintro (⟨step, hstep, hs⟩ | hs)
    · exact reached_of_step hstep hs
    · exact reached_of_setups hs

/-! ## A small job

Two steps under different paths name one group of tools, which needs the checkout. -/

def sampleTable : Value := .record [
  ("checkout", .list [.record [("uses", .str "actions/checkout@v4")]]),
  ("tools", .record [("setup", .str "checkout"),
    ("steps", .list [.record [("run", .str "make")]])])]

def sampleSteps : List Value := [
  .record [("run", .str "build"), ("paths", .str "src/*"), ("setup", .str "tools")],
  .record [("run", .str "check"), ("paths", .str "docs/*"), ("setup", .list [.str "tools"])]]

def sampleJob : Value := .record [("steps", .list sampleSteps)]

theorem sampleJob_unmarked : sampleJob.Unmarked := rfl

theorem definition?_sampleTable (s : String) : definition? sampleTable s =
    if s = "checkout" then some (.list [.record [("uses", .str "actions/checkout@v4")]])
    else if s = "tools" then some (.record [("setup", .str "checkout"),
      ("steps", .list [.record [("run", .str "make")]])])
    else none := by
  rw [sampleTable, definition?_record, Fields.get?_cons, Fields.get?_cons]
  simp only [Scalar.str.injEq, @eq_comm _ _ s]
  rfl

theorem sampleJob_textNames : TextNames sampleTable sampleJob where
  table s d h := by
    rw [definition?_sampleTable] at h
    split_ifs at h
    · obtain rfl := Option.some.inj h
      intro vs hvs
      obtain rfl := Except.ok.inj hvs
      simp
    · obtain rfl := Option.some.inj h
      intro vs hvs
      obtain rfl := Except.ok.inj hvs
      simp
  steps := by
    intro step hstep vs hvs
    rw [show steps sampleJob = sampleSteps from rfl] at hstep
    simp only [sampleSteps, List.mem_cons, List.not_mem_nil, or_false] at hstep
    rcases hstep with rfl | rfl <;> (obtain rfl := Except.ok.inj hvs; simp)
  job := by
    intro vs hvs
    obtain rfl := Except.ok.inj hvs
    simp

theorem sampleTable_acyclic {s t : String} (ht : t ∈ needs sampleTable s) :
    ¬ Reaches sampleTable t s := by
  refine not_reaches_of_rank (fun s => if s = "tools" then 1 else 0) (fun s t ht => ?_) ht
  have hneeds : needs sampleTable s = if s = "tools" then ["checkout"] else [] := by
    rw [needs, definition?_sampleTable]
    by_cases h₁ : s = "checkout"
    · subst h₁
      rfl
    · by_cases h₂ : s = "tools"
      · subst h₂
        rfl
      · simp [h₁, h₂]
  rw [hneeds] at ht
  split_ifs at ht ⊢ with hs
  all_goals simp_all

theorem sampleJob_compiles : ∃ job' edits r',
    (compile sampleTable sampleJob).run.run {} = (.ok (job', edits), r') := by
  have hok : ((compile sampleTable sampleJob).run.run {}).1.toOption.isSome = true := by
    decide +kernel
  rcases h : (compile sampleTable sampleJob).run.run {} with ⟨e | ⟨job', edits⟩, r'⟩
  · rw [h] at hok
    cases hok
  · exact ⟨job', edits, r', rfl⟩

end Job

end StepLoom
