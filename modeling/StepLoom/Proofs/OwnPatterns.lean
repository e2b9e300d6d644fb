import StepLoom.Proofs.Compile.Woven

/-!
# The patterns that a gate tests

A path check is known by its sorted patterns, joined by `#`. Steps whose patterns give the same text
share the check of the first one of them.

**Theorem (`own_patterns`).** The gate of a step under paths reads the check of the first step with
this text. If no pattern holds a `#`, that check tests the step's own patterns.

**Theorem (`own_patterns_shared`).** With a `#` in a pattern, a gate may test the patterns of
another step.
-/

namespace StepLoom

open Value
open StepLoom.Graph (stepId setupId)

variable {table job job' step : Value} {g : Graph} {r r' : Registry} {edits : List Edit}
  {checkId : String → String} {blocks : List (String × List Slot)} {x : String}

/-- The check of a step's patterns is compiled from the patterns of some step with the same
check. -/
theorem Job.exists_first (hstep : step ∈ steps job) (hne : Step.patterns step ≠ []) :
    ∃ first, (steps job).find? (fun st => Check.nodeId (Step.patterns step) ∈ Step.checks st) =
        some first ∧ first ∈ steps job ∧ Step.patterns first ≠ [] ∧
      Check.nodeId (Step.patterns first) = Check.nodeId (Step.patterns step) ∧
      checkPatterns job (Check.nodeId (Step.patterns step)) =
        Check.sortTexts (Step.patterns first) := by
  cases hf : (steps job).find? fun st => Check.nodeId (Step.patterns step) ∈ Step.checks st with
  | none =>
    have hnot := List.find?_eq_none.mp hf step hstep
    exact absurd (Graph.mem_checks_iff.mpr ⟨hne, rfl⟩) (by simpa using hnot)
  | some first =>
    have hmem : Check.nodeId (Step.patterns step) ∈ Step.checks first := by
      simpa using List.find?_some hf
    obtain ⟨hfirst, hid⟩ := Graph.mem_checks_iff.mp hmem
    exact ⟨first, rfl, List.mem_of_find?_eq_some hf, hfirst, hid.symm, by rw [checkPatterns, hf]⟩

/-- **Which patterns a gate tests.** -/
theorem own_patterns (htext : Job.TextNames table job) (hun : job.Unmarked)
    (htexts : Job.Texts table job)
    (h : (Job.compile table job).run.run r = (.ok (job', edits), r')) :
    ∃ (checkId : String → String) (blocks : List (String × List Slot)) (slots : List Slot),
      slots = blocks.flatMap Prod.snd ∧
      job'.part "steps" = some (.list (slots.map Slot.compiled)) ∧
      ∀ (i : Nat) step x, (Job.steps job)[i]? = some step → Step.patterns step ≠ [] →
        x = Check.nodeId (Step.patterns step) →
        ∃ k s e check first, (stepId i, [s]) ∈ blocks ∧ s.written = Step.plain step ∧
          slots[k]? = some s ∧ Step.gate? s.compiled = Gate.stacked (Slot.bailsBefore slots k)
            (Gate.guarded (some (Gate.changed (checkId x))) (Step.gate? s.written)) ∧
          (x, [e]) ∈ blocks ∧ e.compiled.part "id" = some (.str (checkId x)) ∧
          Same ["if"] (.record check) e.compiled ∧
          (Job.steps job).find? (fun st => x ∈ Step.checks st) = some first ∧
          Check.step (checkId x) (Check.sortTexts (Step.patterns first)) = .ok check ∧
          ((∀ st ∈ Job.steps job, ∀ p ∈ Step.patterns st, '#' ∉ p.toList) →
            Check.sortTexts (Step.patterns first) = Check.sortTexts (Step.patterns step)) := by
  obtain ⟨g, checkId, blocks, us, resolved, -, hb, hslots, hwoven, hsteps⟩ :=
    compile_slots htext hun htexts h
  refine ⟨checkId, blocks, _, rfl, hsteps, ?_⟩
  rintro i step x hi hne rfl
  have hmem := List.mem_of_getElem? hi
  have hcheck : Graph.IsCheck (Check.nodeId (Step.patterns step)) := ⟨_, rfl⟩
  have hchecks : Step.checks step = [Check.nodeId (Step.patterns step)] := if_neg hne
  obtain ⟨s, hs, hwritten, hdeps⟩ := hslots.of_step hb hi
  obtain ⟨e, check, he, hstep, hrecord, hsame⟩ := hslots.of_check hb hcheck
    ((hb.has_check hcheck).mpr ⟨step, hmem, by simp [hchecks]⟩)
  obtain ⟨first, hfind, hfirst, hfne, hid, hpatterns⟩ := Job.exists_first hmem hne
  have hslot : s ∈ blocks.flatMap Prod.snd := List.mem_flatMap.mpr ⟨_, hs, by simp⟩
  obtain ⟨k, hk⟩ := List.mem_iff_getElem?.mp hslot
  have hcond : s.condition checkId =
      some (Gate.changed (checkId (Check.nodeId (Step.patterns step)))) := by
    rw [Slot.condition, hdeps, hchecks]
    rfl
  refine ⟨k, s, e, check, first, hs, hwritten, hk, ?_, he, ?_, hrecord ▸ hsame, hfind,
    hpatterns ▸ hstep, fun hplain => ?_⟩
  · rw [hwoven.gate_eq hk, hcond]
  · exact Block.id_of_check hstep (hrecord ▸ hsame)
  · exact Check.sortTexts_eq_of_nodeId hfne hne (hplain first hfirst) (hplain step hmem) hid

theorem own_patterns_sample : ∃ job' edits r' check, ∃ (checkId : String → String) (s e : Slot),
    (Job.compile Job.sampleTable Job.sampleJob).run.run {} = (.ok (job', edits), r') ∧
    Job.TextNames Job.sampleTable Job.sampleJob ∧ Job.sampleJob.Unmarked ∧
    Job.Texts Job.sampleTable Job.sampleJob ∧
    s.written = Step.plain Job.sampleSteps[0] ∧ Step.patterns Job.sampleSteps[0] = ["src/*"] ∧
    (∃ bails, Step.gate? s.compiled = Gate.stacked bails
      (Gate.guarded (some (Gate.changed (checkId "paths-src/*"))) (Step.gate? s.written))) ∧
    Check.step (checkId "paths-src/*") ["src/*"] = .ok check ∧
    Same ["if"] (.record check) e.compiled := by
  obtain ⟨job', edits, r', h⟩ := Job.sampleJob_compiles
  obtain ⟨checkId, blocks, slots, -, -, hall⟩ :=
    own_patterns Job.sampleJob_textNames Job.sampleJob_unmarked Job.sampleJob_texts h
  have hpatterns : Step.patterns Job.sampleSteps[0] = ["src/*"] := by decide
  have hid : "paths-src/*" = Check.nodeId (Step.patterns Job.sampleSteps[0]) := by decide
  obtain ⟨k, s, e, check, first, -, hwritten, -, hgate, -, -, hsame, -, hstep, hown⟩ :=
    hall 0 Job.sampleSteps[0] "paths-src/*" rfl (by simp [hpatterns]) hid
  have hsorted : Check.sortTexts (Step.patterns first) = ["src/*"] := by
    rw [hown (by decide), hpatterns]
    rfl
  exact ⟨job', edits, r', check, checkId, s, e, h, Job.sampleJob_textNames,
    Job.sampleJob_unmarked, Job.sampleJob_texts, hwritten, hpatterns, ⟨_, hgate⟩,
    hsorted ▸ hstep, hsame⟩

/-! ## A shared check

One pattern with a `#` in it gives the same text as two patterns that are joined. -/

namespace Job

def sharingSteps : List Value := [
  .record [("run", .str "one"), ("paths", .str "a#b")],
  .record [("run", .str "two"), ("paths", .list [.str "a", .str "b"])]]

def sharingJob : Value := .record [("setup", .str "checkout"), ("steps", .list sharingSteps)]

end Job

/-- Both steps read a check of the pattern of the first one, and nothing checks the patterns of the
second one. -/
theorem own_patterns_shared : ∃ job' edits r',
    (Job.compile Job.sampleTable Job.sharingJob).run.run {} = (.ok (job', edits), r') ∧
    (Job.steps Job.sharingJob).map Step.patterns = [["a#b"], ["a", "b"]] ∧
    Job.texts "id" job' = some [none, some "paths_a_b", none, none] ∧
    Job.texts "run" job' =
      some [none, some (Check.script ["^a#b$"]), some "one", some "two"] ∧
    Job.texts "if" job' = some [none, none, some (Gate.changed "paths_a_b"),
      some (Gate.changed "paths_a_b")] ∧
    Check.regexes ["a", "b"] = .ok ["^a$", "^b$"] ∧
    Check.script ["^a#b$"] ≠ Check.script ["^a$", "^b$"] := by
  have htexts : (((Job.compile Job.sampleTable Job.sharingJob).run.run {}).1.toOption.map fun r =>
      (Job.texts "id" r.1, Job.texts "run" r.1, Job.texts "if" r.1)) =
      some (some [none, some "paths_a_b", none, none],
        some [none, some (Check.script ["^a#b$"]), some "one", some "two"],
        some [none, none, some (Gate.changed "paths_a_b"), some (Gate.changed "paths_a_b")]) := by
    decide +kernel
  rcases h : (Job.compile Job.sampleTable Job.sharingJob).run.run {} with ⟨e | ⟨job', edits⟩, r'⟩
  · rw [h] at htexts
    cases htexts
  · rw [h] at htexts
    obtain ⟨hid, hrest⟩ := Prod.mk.inj (Option.some.inj htexts)
    obtain ⟨hrun, hif⟩ := Prod.mk.inj hrest
    exact ⟨job', edits, r', rfl, by decide, hid, hrun, hif, by rfl, by decide⟩

end StepLoom
