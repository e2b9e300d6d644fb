import StepLoom.Proofs.Compile.Woven

/-!
# When the steps of a compiled job run

The `if` of a compiled step is made of three parts: the `if` that the step was written with, the
condition on the path checks of its node, and the negated bail conditions of earlier steps. They are
joined as text. This file says what the text means.

**Theorem (`compile_conditions`).** A compiled step runs exactly when it is due, unless a gate was
joined with an embedded expression. Then it always runs.

**Theorem (`compile_embedding`).** So a step under paths may run although nothing changed and its
own `if` does not hold.
-/

namespace StepLoom

open Value Condition Relation Setup

/-- A mapping whose `if` and `bail_if` are conditions, the latter also when it is qualified. -/
structure Step.Conditional (step : Value) : Prop where
  fields : ∃ fields, step.fields? = some fields
  gate : TextOrAbsent (step.part "if")
  bail : TextOrAbsent (step.part "bail_if")
  gateForm : ∀ text, Step.gate? step = some text → WellFormed text
  bailForm : ∀ text, Step.bail? step = some text → WellFormed text
  /-- The id is a name, or the condition is well-formed with this id too. -/
  idForm : ∀ text, Step.bail? step = some text → ∀ x id, given? (step.part "id") = some x →
    x.text = .ok id → isName id.toList ∨ ∀ q, Bail.qualify id (.str text) = .ok q → WellFormed q

/-- The steps of a job and of the setups that it reaches have conditions. -/
structure Job.Conditional (table job : Value) : Prop where
  steps : ∀ step ∈ Job.steps job, Step.Conditional step
  setups : ∀ s, Job.Reached table job s → ∀ d, definition? table s = some d →
    ∀ items, Setup.steps d = .ok items → ∀ item ∈ items, Step.Conditional item

namespace Slot

variable (v : Valuation) (checkId : String → String) (earlier : List Slot) (s : Slot)

/-- The step is to run. -/
def Due : Prop :=
  Runs v (Step.gate? s.written) ∧
    (∀ l, s.checks = some l → ∃ x ∈ l, v.changed (checkId x) = true) ∧
    ∀ e ∈ earlier, ∀ text, e.bail? = some text → ¬ Holds v text

/-- Some gate was put on the step. -/
def Gated : Prop := s.checks ≠ none ∨ ∃ e ∈ earlier, e.bail? ≠ none

/-- A condition that the step depends on is written as an embedded expression. -/
def Embeds : Prop :=
  (∃ text, Step.gate? s.written = some text ∧ Wrapped text) ∨
    ∃ e ∈ earlier, ∃ text, e.bail? = some text ∧ Wrapped text

end Slot

variable {table job job' step v w : Value} {g : Graph} {r r' : Registry} {edits : List Edit}
  {us resolved vs : List Value} {x q : String} {checkId : String → String} {slots : List Slot}
  {s : Slot} {k : Nat}

/-! ## Steps with conditions -/

namespace Step

/-- A mapping with the conditions of another one. -/
theorem Conditional.of_same {keys : List String} {fields : Fields} (h : Conditional step)
    (hf : step.fields? = some fields) (hs : Same keys (.record fields) v)
    (hkeys : ∀ key ∈ ["if", "bail_if", "id"], key ∉ keys) : Conditional v := by
  have hpart : ∀ key ∈ ["if", "bail_if", "id"], v.part (.str key) = step.part (.str key) := by
    intro key hkey
    rw [hs.part (hkeys key hkey), part, part, hf]
    rfl
  have hif := hpart "if" (by simp)
  have hbail := hpart "bail_if" (by simp)
  have hid := hpart "id" (by simp)
  obtain ⟨fs, rfl⟩ := hs.isRecord
  refine ⟨⟨fs, rfl⟩, hif ▸ h.gate, hbail ▸ h.bail, ?_, ?_, ?_⟩
  · rw [gate?, hif]
    exact h.gateForm
  · rw [bail?, hbail]
    exact h.bailForm
  · rw [bail?, hbail, hid]
    exact h.idForm

/-- A mapping without conditions. -/
theorem conditional_of_none {fields : Fields} (hif : (Value.record fields).part "if" = none)
    (hbail : (Value.record fields).part "bail_if" = none) : Conditional (.record fields) := by
  refine ⟨⟨fields, rfl⟩, hif ▸ textOrAbsent_none, hbail ▸ textOrAbsent_none, ?_, ?_, ?_⟩
  · rw [gate?, hif]
    intro text h
    cases h
  · rw [bail?, hbail]
    intro text h
    cases h
  · rw [bail?, hbail]
    intro text h
    cases h

theorem Conditional.texts (h : Conditional step) : Texts step := ⟨h.gate, h.bail⟩

end Step

namespace Job

/-- The steps that a setup contributes have conditions. -/
theorem Conditional.copies {name : String} {d : Value} (h : Conditional table job)
    (hs : Job.Reached table job name) (hd : definition? table name = some d)
    (hv : Block.copies name d = .ok vs) : ∀ v ∈ vs, Step.Conditional v := by
  intro v hmem
  obtain ⟨items, hitems, -⟩ := Block.copies_ok hv
  have hconds := h.setups name hs d hd items hitems
  rcases Block.mem_copies hv hitems (fun item hitem => (hconds item hitem).fields) v hmem with
    rfl | rfl | ⟨item, hitem, fields, hf, hsame⟩
  · exact Step.conditional_of_none rfl rfl
  · exact Step.conditional_of_none rfl rfl
  · exact (hconds item hitem).of_same hf hsame (by decide)

theorem Conditional.texts (h : Conditional table job) : Texts table job where
  steps step hstep := (h.steps step hstep).texts
  setups _ hs _ hd _ hv v hmem := (h.copies hs hd hv v hmem).texts

/-- Every step that a node stands for has conditions. -/
theorem Writes.conditional (h : Writes table job checkId x vs) (hc : Conditional table job) :
    ∀ v ∈ vs, Step.Conditional v := by
  cases h with
  | @step i step hi =>
    intro v hv
    obtain rfl := List.mem_singleton.mp hv
    have hstep := hc.steps step (List.mem_of_getElem? hi)
    obtain ⟨fields, hf⟩ := hstep.fields
    have hplain : Step.plain step = .record (Graph.extensionKeys.foldl
        (fun fs k => Fields.erase k fs) (Fields.erase "paths" fields)) := by
      rw [Step.plain, hf]
    have hsame : Same _ (.record fields) (Step.plain (.record fields)) :=
      Step.plain_same ⟨fields, rfl⟩
    have hrecord : Step.plain (.record fields) = Step.plain step := by
      rw [hplain]
      rfl
    exact hstep.of_same hf (hrecord ▸ hsame) (by decide)
  | setup hs hd hv => exact hc.copies hs hd hv
  | check hx hs =>
    intro v hv
    obtain rfl := List.mem_singleton.mp hv
    obtain ⟨hif, hbail⟩ := Block.texts_of_check hs
    exact Step.conditional_of_none hif hbail

end Job

/-- A bail condition that was rewritten is well-formed. -/
theorem Bail.wellFormed_rewritten {v w : Value} {q : String} (hv : Step.Conditional v)
    (hid : Step.bail? v ≠ none → ∃ x, w.part "id" = some x ∧
      (given? (v.part "id") = some x ∨ ∃ m, x = .str (defaultId m)))
    (h : rewritten v w = some q) : WellFormed q := by
  obtain ⟨text, htext, h⟩ := Option.bind_eq_some_iff.mp h
  obtain ⟨x, hx, h⟩ := Option.bind_eq_some_iff.mp h
  obtain ⟨id, hidText, h⟩ := Option.bind_eq_some_iff.mp h
  have hqualify : ∀ {ε α : Type} {e : Except ε α} {a : α}, e.toOption = some a → e = .ok a := by
    intro ε α e a he
    cases e with
    | error e => cases he
    | ok a' => rw [Option.some.inj he]
  obtain ⟨y, hy, hfrom⟩ := hid (by simp [htext])
  obtain rfl := Option.some.inj (hx.symm.trans hy)
  have hq := hqualify h
  have hform := hv.bailForm text htext
  rcases hfrom with hgiven | ⟨m, rfl⟩
  · rcases hv.idForm text htext x id hgiven (hqualify hidText) with hname | hall
    · exact hform.qualified hname hq
    · exact hall q hq
  · obtain rfl := Option.some.inj hidText
    exact hform.qualified (isName_defaultId m) hq

/-! ## One step -/

namespace Woven

variable (h : Woven checkId slots us resolved) (hc : ∀ s ∈ slots, Step.Conditional s.written)

include h hc

theorem wellFormed (hq : q ∈ Slot.bailsBefore slots k) : WellFormed q := by
  obtain ⟨e, he, hbail⟩ := Slot.mem_bailsBefore.mp hq
  have hmem := List.mem_of_mem_take he
  exact Bail.wellFormed_rewritten (hc e hmem) (h.bail_id hmem) hbail

/-- **When a compiled step runs.** -/
theorem runs_iff (hs : slots[k]? = some s) : Accepted (Step.gate? s.compiled) ∧
    ∀ v, Runs v (Step.gate? s.compiled) ↔
      (s.Gated (slots.take k) ∧ s.Embeds (slots.take k)) ∨ s.Due v checkId (slots.take k) := by
  have hmem := List.mem_of_getElem? hs
  have hnames : ∀ l, s.checks.map (List.map checkId) = some l →
      l ≠ [] ∧ ∀ id ∈ l, isName id.toList := by
    intro l hl
    obtain ⟨xs, hxs, rfl⟩ := Option.map_eq_some_iff.mp hl
    obtain ⟨hne, hall⟩ := h.checks_named hmem xs hxs
    exact ⟨by simpa using hne, by simpa using hall⟩
  obtain ⟨haccepted, hruns⟩ :=
    tells_gated (hc s hmem).gateForm (fun _ hq => h.wellFormed (k := k) hc hq) hnames
  rw [h.gate_eq hs, Slot.condition]
  refine ⟨haccepted, fun v => (hruns v).trans ?_⟩
  refine or_congr (and_congr (or_congr ?_ ?_) (or_congr_right ?_))
    (and_congr_right fun _ => and_congr ?_ ?_)
  · simp
  · constructor
    · intro hne
      obtain ⟨q, hq⟩ := List.exists_mem_of_ne_nil _ hne
      obtain ⟨e, he, hbail⟩ := Slot.mem_bailsBefore.mp hq
      exact ⟨e, he, by simp [hbail]⟩
    · rintro ⟨e, he, hbail⟩
      obtain ⟨q, hq⟩ := Option.ne_none_iff_exists'.mp hbail
      exact List.ne_nil_of_mem (Slot.mem_bailsBefore.mpr ⟨e, he, hq⟩)
  · simp only [Slot.mem_bailsBefore]
    tauto
  · simp
  · constructor
    · intro hnone e he q hq
      exact hnone q (Slot.mem_bailsBefore.mpr ⟨e, he, hq⟩)
    · intro hnone q hq
      obtain ⟨e, he, hbail⟩ := Slot.mem_bailsBefore.mp hq
      exact hnone e he q hbail

end Woven

/-! ## The job -/

/-- **When the steps of a compiled job run.** A step is due if its own `if` holds, some path check
of its node found a change, and no earlier step bails. A gate that is joined with an embedded
expression lets the step run even if it is not due. -/
theorem compile_conditions (htext : Job.TextNames table job) (hun : job.Unmarked)
    (hconds : Job.Conditional table job)
    (h : (Job.compile table job).run.run r = (.ok (job', edits), r')) :
    ∃ (g : Graph) (checkId : String → String) (blocks : List (String × List Slot))
      (slots : List Slot), (∃ left, Graph.ofJob table job = .ok (g, left)) ∧
      Job.Slots table job g checkId blocks ∧ slots = blocks.flatMap Prod.snd ∧
      job'.part "steps" = some (.list (slots.map Slot.compiled)) ∧
      ∀ k (s : Slot), slots[k]? = some s → Accepted (Step.gate? s.compiled) ∧
        ∀ v, Runs v (Step.gate? s.compiled) ↔
          (s.Gated (slots.take k) ∧ s.Embeds (slots.take k)) ∨ s.Due v checkId (slots.take k) := by
  obtain ⟨g, checkId, blocks, us, resolved, hmade, -, hslots, hwoven, hsteps⟩ :=
    compile_slots htext hun hconds.texts h
  refine ⟨g, checkId, blocks, _, hmade, hslots, rfl, hsteps, fun k s hs => hwoven.runs_iff ?_ hs⟩
  intro s hs
  obtain ⟨b, hb, hmem⟩ := List.mem_flatMap.mp hs
  exact (hslots.filled b hb).written.conditional hconds _ (List.mem_map_of_mem hmem)

/-! ## An embedded expression

A step under paths is written with an `if` that never holds, as an embedded expression. -/

/-- An expression that never holds, embedded. -/
def Condition.never : String := "$\x7b\x7b false \x7d\x7d"

namespace Job

def embeddingSteps : List Value := [
  .record [("run", .str "probe"), ("bail_if", .str "outputs.done")],
  .record [("run", .str "build"), ("paths", .str "src/*"), ("if", .str never)]]

def embeddingJob : Value := .record [("setup", .str "checkout"), ("steps", .list embeddingSteps)]

theorem embeddingJob_textNames : TextNames sampleTable embeddingJob where
  table := sampleJob_textNames.table
  steps := by
    intro step hstep vs hvs
    rw [show steps embeddingJob = embeddingSteps from rfl] at hstep
    simp only [embeddingSteps, List.mem_cons, List.not_mem_nil, or_false] at hstep
    rcases hstep with rfl | rfl <;> (obtain rfl := Except.ok.inj hvs; simp)
  job := by
    intro vs hvs
    obtain rfl := Except.ok.inj hvs
    simp

end Job

namespace Condition

theorem means_never : Means never.toList (.wrapped (.constant "false".toList)) := by
  have hpieces : Embedded.pieces never.toList = some [.code " false ".toList] := by decide
  refine .wrapped hpieces ⟨[.word "false".toList], by decide, ?_⟩
  exact (Reads.operand (.constant (.keyword (by decide))) (.whole (by simp) (by simp))).lower
    (Nat.zero_le _) (Nat.le_refl _) (by simp)

theorem not_holds_never (v : Valuation) : ¬ Holds v never := by
  rw [holds_iff means_never, Sense.holds, Valuation.holds, Valuation.eval, if_neg (by decide),
    if_pos rfl, v.truthy_flag]
  simp

theorem wellFormed_done : WellFormed "outputs.done" := by
  refine ⟨false, .field (.name "outputs".toList) "done".toList, .bare (by decide) ?_⟩
  refine ⟨[.word "outputs".toList, .dot, .word "done".toList], by decide, ?_⟩
  exact (Reads.operand (.name (isReference_of_name (by decide) (by decide)) (by simp))
    (.field (by decide) (.whole (by simp) (by simp)))).lower
    (Nat.zero_le _) (Nat.le_refl _) (by simp)

end Condition

namespace Job

theorem embeddingJob_conditional : Conditional sampleTable embeddingJob where
  steps := by
    intro step hstep
    rw [show steps embeddingJob = embeddingSteps from rfl] at hstep
    simp only [embeddingSteps, List.mem_cons, List.not_mem_nil, or_false] at hstep
    rcases hstep with rfl | rfl
    · refine ⟨⟨_, rfl⟩, textOrAbsent_none, textOrAbsent_str, ?_, ?_, ?_⟩
      · intro text h
        cases h
      · intro text h
        obtain rfl := Option.some.inj h
        exact wellFormed_done
      · intro text _ x id h
        cases h
    · refine ⟨⟨_, rfl⟩, textOrAbsent_str, textOrAbsent_none, ?_, ?_, ?_⟩
      · intro text h
        obtain rfl := Option.some.inj h
        exact ⟨true, _, means_never⟩
      · intro text h
        cases h
      · intro text h
        cases h
  setups := by
    intro s _ d hd items hitems item hitem
    rw [definition?_sampleTable] at hd
    split_ifs at hd
    all_goals
      obtain rfl := Option.some.inj hd
      obtain rfl := Except.ok.inj hitems
      obtain rfl := List.mem_singleton.mp hitem
      exact Step.conditional_of_none rfl rfl

/-- The last gate of the compiled job. -/
def embeddingGate : String :=
  Gate.both (Bail.negate "steps.bail_if_1.outputs.done")
    (Gate.both (Gate.changed "paths_src_") never)

theorem embeddingJob_gates : ∃ job' edits r',
    (compile sampleTable embeddingJob).run.run {} = (.ok (job', edits), r') ∧ texts "if" job' =
      some [none, none, some (Bail.negate "steps.bail_if_1.outputs.done"), some embeddingGate] := by
  have hgates : ((compile sampleTable embeddingJob).run.run {}).1.toOption.bind
      (fun r => texts "if" r.1) = some [none, none,
        some (Bail.negate "steps.bail_if_1.outputs.done"), some embeddingGate] := by
    decide
  rcases h : (compile sampleTable embeddingJob).run.run {} with ⟨e | ⟨job', edits⟩, r'⟩
  · rw [h] at hgates
    cases hgates
  · rw [h] at hgates
    exact ⟨job', edits, r', rfl, hgates⟩

theorem runs_embeddingGate (v : Valuation) : Runs v (some embeddingGate) := by
  have hform : ∀ text, some never = some text → WellFormed text := by
    rintro _ ⟨⟩
    exact ⟨true, _, means_never⟩
  have hbail : WellFormed "steps.bail_if_1.outputs.done" :=
    wellFormed_done.qualified (isName_defaultId 1) (by decide)
  have hnames : ∀ l, some ["paths_src_"] = some l → l ≠ [] ∧ ∀ id ∈ l, isName id.toList := by
    rintro _ ⟨⟩
    decide
  obtain ⟨-, hruns⟩ := tells_gated hform (List.forall_mem_singleton.mpr hbail) hnames
  exact (hruns v).mpr (Or.inl ⟨Or.inl (by simp), Or.inl ⟨_, rfl, _, means_never⟩⟩)

end Job

/-- The last step of the compiled job always runs, whatever its path check finds, although its own
`if` never holds. -/
theorem compile_embedding : ∃ job' edits r',
    (Job.compile Job.sampleTable Job.embeddingJob).run.run {} = (.ok (job', edits), r') ∧
    (Job.embeddingSteps.map Step.gate?).getLast? = some (some never) ∧
    ∃ gate, (Job.texts "if" job').bind List.getLast? = some gate ∧
      ∀ v, ¬ Runs v (some never) ∧ Runs v gate := by
  obtain ⟨job', edits, r', h, hgates⟩ := Job.embeddingJob_gates
  refine ⟨job', edits, r', h, by decide, _, by rw [hgates]; rfl, fun v => ⟨?_, ?_⟩⟩
  · exact fun hruns => not_holds_never v (hruns _ rfl)
  · exact Job.runs_embeddingGate v

/-- The compiled job, with the gate of its last step. -/
theorem compile_conditions_sample : ∃ job' edits r', ∃ slots : List Slot,
    (Job.compile Job.sampleTable Job.embeddingJob).run.run {} = (.ok (job', edits), r') ∧
    Job.TextNames Job.sampleTable Job.embeddingJob ∧ Job.embeddingJob.Unmarked ∧
    Job.Conditional Job.sampleTable Job.embeddingJob ∧
    job'.part "steps" = some (.list (slots.map Slot.compiled)) ∧ slots.length = 4 ∧
    ∃ (checkId : String → String) (s : Slot), slots[3]? = some s ∧
      Step.gate? s.compiled = some Job.embeddingGate ∧
      ∀ v, Runs v (Step.gate? s.compiled) ↔
        (s.Gated (slots.take 3) ∧ s.Embeds (slots.take 3)) ∨ s.Due v checkId (slots.take 3) := by
  obtain ⟨job', edits, r', h, hgates⟩ := Job.embeddingJob_gates
  obtain ⟨g, checkId, blocks, slots, -, -, -, hsteps, hslots⟩ :=
    compile_conditions Job.embeddingJob_textNames rfl Job.embeddingJob_conditional h
  have hmembers : (Value.list (slots.map Slot.compiled)).members =
      .ok (slots.map Slot.compiled) := rfl
  rw [Job.texts, hsteps, Option.bind_some, hmembers] at hgates
  have hall : (slots.map Slot.compiled).map Step.gate? = _ := Option.some.inj hgates
  have hlen : slots.length = 4 := by simpa using congrArg List.length hall
  obtain ⟨s, hs⟩ : ∃ s, slots[3]? = some s := ⟨_, List.getElem?_eq_getElem (by omega)⟩
  have hlast := congrArg (fun l => l[3]?) hall
  simp only [List.getElem?_map, hs, Option.map_some] at hlast
  exact ⟨job', edits, r', slots, h, Job.embeddingJob_textNames, rfl,
    Job.embeddingJob_conditional, hsteps, hlen, checkId, s, hs, Option.some.inj hlast,
    (hslots 3 s hs).2⟩

end StepLoom
