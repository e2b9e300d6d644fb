import StepLoom.Proofs.Compile.Progress
import StepLoom.Proofs.Outcome

/-!
# Jobs that the compiler can work with

A job is *ready* if it and its steps name setups and patterns as texts, and if its steps are ready;
a table is, if every definition lists ready steps. So much is enough for compiling: a ready job
becomes a job, or a fault says what is wrong with the template.

**Theorem (`joinFrom_ready`).** Joining the nodes of a ready job gives ready steps, or a path check
fails.

**Theorem (`compile_ready`).** A ready job compiles, or fails for one of five reasons.
-/

namespace StepLoom

open Value

/-- The value is blank, a text, or lists texts. -/
def Value.TextList (v : Option Value) : Prop :=
  match oneOrMany v with
  | .ok vs => ∀ x ∈ vs, IsText x
  | .error _ => False

theorem Value.textList_iff {v : Option Value} :
    TextList v ↔ ∃ vs, oneOrMany v = .ok vs ∧ ∀ x ∈ vs, IsText x := by
  unfold TextList
  cases oneOrMany v with
  | ok vs => simp
  | error e => simp

instance {v : Option Value} : Decidable (TextList v) := by
  unfold TextList
  split <;> infer_instance

/-! ## Jobs and setups -/

/-- A mapping that can stand in the definition of a setup. -/
def Setup.IsReadyStep (item : Value) : Prop :=
  item.fields?.isSome ∧ Spoken (item.part "name") ∧ Step.Ready item

instance {item : Value} : Decidable (Setup.IsReadyStep item) :=
  inferInstanceAs (Decidable (_ ∧ _ ∧ _))

/-- All that a definition lists is ready. -/
def Setup.HasReadySteps (definition : Value) : Prop :=
  match Setup.steps definition with
  | .ok items => ∀ item ∈ items, IsReadyStep item
  | .error _ => False

theorem Setup.hasReadySteps_iff {definition : Value} : HasReadySteps definition ↔
    ∃ items, Setup.steps definition = .ok items ∧ ∀ item ∈ items, IsReadyStep item := by
  unfold HasReadySteps
  cases Setup.steps definition with
  | ok items => simp
  | error e => simp

instance {definition : Value} : Decidable (Setup.HasReadySteps definition) := by
  unfold Setup.HasReadySteps
  split <;> infer_instance

/-- The compiler can read the definition of a setup. -/
def Setup.Ready (definition : Value) : Prop :=
  TextList (definition.part "setup") ∧ HasReadySteps definition

instance {definition : Value} : Decidable (Setup.Ready definition) :=
  inferInstanceAs (Decidable (_ ∧ _))

/-- The compiler can read every definition of a table. -/
def Setup.TableReady (table : Value) : Prop := ∀ f ∈ table.fields?.getD [], Setup.Ready f.2

instance {table : Value} : Decidable (Setup.TableReady table) :=
  inferInstanceAs (Decidable (∀ f ∈ table.fields?.getD [], Setup.Ready f.2))

/-- The compiler can read a step of a job. -/
def Job.IsReadyStep (step : Value) : Prop :=
  TextList (step.part "paths") ∧ TextList (step.part "setup") ∧ Step.Ready step

instance {step : Value} : Decidable (Job.IsReadyStep step) :=
  inferInstanceAs (Decidable (_ ∧ _ ∧ _))

/-- The compiler can read what a job and its steps say. -/
def Job.Ready (job : Value) : Prop :=
  TextList (job.part "setup") ∧ ∀ step ∈ Job.steps job, IsReadyStep step

instance {job : Value} : Decidable (Job.Ready job) := inferInstanceAs (Decidable (_ ∧ _))

theorem Setup.TableReady.definition {table d : Value} (h : Setup.TableReady table) {name : String}
    (hd : definition? table name = some d) : Setup.Ready d := by
  obtain ⟨m, fields, hunroll, hget⟩ := exists_fields_of_definition? hd
  obtain ⟨k, hk⟩ := Fields.mem_of_get? hget
  have hfields : table.fields? = some fields := by rw [fields?, hunroll]
  refine h (k, d) ?_
  rwa [hfields]

namespace Block

open StepLoom.Graph (IsCheck)

variable {table job : Value} {g : Graph} {x name : String} {definition : Value} {c : Option String}
  {outs : List (String × String)} {r : Registry} {n : Node}

theorem ready_record {fields : Fields} {step : Value} (h : Step.Ready step)
    (hf : step.fields? = some fields) : Step.Ready (.record fields) := by
  have hpart : ∀ key, (record fields).part key = step.part key := by
    intro key
    rw [part, part, hf]
    rfl
  exact ⟨by rw [hpart]; exact h.gate, by rw [hpart]; exact h.bail,
    by rw [hpart, hpart]; exact h.id⟩

theorem ready_startMarker : Step.Ready (startMarker name) :=
  ⟨spoken_none, blankOrText_none, fun _ => plainId_none⟩

theorem ready_finishMarker : Step.Ready (finishMarker name) :=
  ⟨spoken_none, blankOrText_none, fun _ => plainId_none⟩

theorem nameText_total {v : Option Value} (h : Spoken v) : ∃ s, nameText v = .ok s := by
  rw [nameText]
  cases hv : given? v with
  | none => exact ⟨"", rfl⟩
  | some x => exact text_total (h x hv)

/-- The copies that the steps of a setup become. -/
theorem copies_ready (name : String) (h : Setup.Ready definition) :
    ∃ vs, copies name definition = .ok vs ∧ ∀ v ∈ vs, Step.Ready v ∧ v.IsRecord := by
  obtain ⟨items, hitems, hall⟩ := Setup.hasReadySteps_iff.mp h.2
  rw [copies, hitems]
  rcases items with _ | ⟨step, _ | ⟨second, rest⟩⟩
  · exact ⟨[], rfl, by simp⟩
  · -- One step: it keeps its name behind that of the setup.
    obtain ⟨hmap, hname, hready⟩ := hall step (by simp)
    obtain ⟨fields, hf⟩ := Option.isSome_iff_exists.mp hmap
    obtain ⟨label, hlabel⟩ := nameText_total hname
    have hfield : step.field? "name" = .ok (step.part "name") := by rw [field?, part, hf]; rfl
    have hspread : step.spread = .ok fields := by rw [spread, hf]
    refine ⟨[.record (Fields.put "name" (.str (singleLabel name label)) fields)], ?_, ?_⟩
    · change (step.field? "name" >>= fun found => nameText found >>= fun text =>
        step.spread >>= fun fields => pure _) = _
      rw [hfield, hspread]
      change (nameText (step.part "name") >>= fun text => pure _) = _
      rw [hlabel]
      rfl
    · have hsame : Same ["name"] (.record fields)
          (.record (Fields.put "name" (.str (singleLabel name label)) fields)) :=
        ⟨fields, _, rfl, rfl, (Fields.without_put (by simp)).symm⟩
      exact List.forall_mem_singleton.mpr
        ⟨(ready_record hready hf).of_same hsame (by decide), _, rfl⟩
  · -- Several steps stand between the markers of the setup.
    obtain ⟨vs, hvs, hready⟩ := Step.mapM_total (f := copyStep)
      (P := fun v => Step.Ready v ∧ v.IsRecord) fun item hitem => by
        obtain ⟨hmap, -, hready⟩ := hall item hitem
        obtain ⟨fields, hf⟩ := Option.isSome_iff_exists.mp hmap
        refine ⟨.record fields, ?_, ready_record hready hf, fields, rfl⟩
        rw [copyStep, asFields_of_fields? hf]
        rfl
    refine ⟨startMarker name :: vs ++ [finishMarker name], ?_, ?_⟩
    · change ((step :: second :: rest).mapM copyStep >>= fun copies => pure _) = _
      rw [hvs]
      rfl
    · rw [List.cons_append]
      refine List.forall_mem_cons.mpr ⟨⟨ready_startMarker, _, rfl⟩, ?_⟩
      exact List.forall_mem_append.mpr ⟨hready,
        List.forall_mem_singleton.mpr ⟨ready_finishMarker, _, rfl⟩⟩

theorem ofSetup_ready (name : String) (c : Option String) (h : Setup.Ready definition) :
    ∃ vs, ofSetup name definition c = .ok vs ∧ ∀ v ∈ vs, Step.Ready v ∧ v.IsRecord := by
  obtain ⟨vs, hvs, hready⟩ := copies_ready name h
  rw [ofSetup_eq, hvs]
  exact Step.mapM_total fun v hv => (hready v hv).1.guardWith (hready v hv).2 c

end Block

/-! ## Joining -/

namespace Fault

/-- The faults that say what is wrong with a template. -/
def OfTemplate (e : Fault) : Prop :=
  (∃ name, e = .unknownSetup name) ∨ (∃ p, e = .invalidPattern p) ∨ e = .missingCheckout ∨
    (∃ edges, e = .cycle edges) ∨ ∃ ps, e = .noFreeId ps

end Fault

namespace Block

open StepLoom.Graph (IsCheck)

variable {table job : Value} {g : Graph} {x : String} {outs : List (String × String)}
  {r : Registry} {n : Node}

/-- The block of a path check. It fails for a bad pattern, or if no step id is left. -/
theorem ofCheck_ready (hb : Graph.Built table job g) (hx : IsCheck x) (hn : g.find? x = some n) :
    Ensures (ofNode n outs) r (fun b _ => (∃ outId, b.2 = outs ++ [(x, outId)]) ∧
      ∀ v ∈ b.1, Step.Ready v ∧ v.IsRecord) Fault.OfTemplate := by
  rw [Ensures, exec_ofNode_check hb hx hn]
  cases hclaim : r.claim (Job.checkPatterns job x) with
  | error e =>
    rw [Registry.claim] at hclaim
    split at hclaim
    · cases hclaim
    · obtain rfl := Except.error.inj hclaim
      exact Or.inr (Or.inr (Or.inr (Or.inr ⟨_, rfl⟩)))
  | ok claimed =>
    dsimp only
    rw [Check.step]
    cases hre : Check.regexes (Job.checkPatterns job x) with
    | error e =>
      obtain ⟨p, -, rfl, -⟩ := Check.regexes_error hre
      exact Or.inr (Or.inl ⟨p, rfl⟩)
    | ok found =>
      refine ⟨⟨claimed.1, rfl⟩, List.forall_mem_singleton.mpr ⟨?_, _, rfl⟩⟩
      exact ⟨spoken_none, blankOrText_none, fun h => absurd h (by simp [part, fields?, unroll,
        Fields.get?, Scalar.sameKey, Scalar.toInt?, given?])⟩

section

variable (hb : Graph.Built table job g) (hj : Job.Ready job) (ht : Setup.TableReady table)
  (hs : ∀ step ∈ Job.steps job, step.IsRecord)

include hb hj ht hs

/-- The block of a step or of a setup, if the step ids of its path checks are known. -/
theorem ofNode_ready (hx : ¬ IsCheck x) (hn : g.find? x = some n)
    (hdeps : ∀ l, n.pathDeps = some l → ∀ p ∈ l, ∃ outId, (p, outId) ∈ outs) :
    ∃ b, exec (ofNode n outs) r = (.ok (b, outs), r) ∧ ∀ v ∈ b, Step.Ready v ∧ v.IsRecord := by
  refine ofNode_of_guards hb hx hn hdeps (fun step hmem c => ?_) fun s d _ hd name c =>
    ofSetup_ready name c (ht.definition hd)
  have hsame := Step.plain_same (hs step hmem)
  exact ((hj.2 step hmem).2.2.of_same hsame (by decide)).guardWith hsame.isRecord c

/-- **Joining gives ready steps**, or fails at a path check. -/
theorem joinFrom_ready {done ids : List String} (hord : g.InOrder done ids)
    (hids : ∀ x ∈ ids, g.has x) (hknown : ∀ x ∈ done, IsCheck x → ∃ outId, (x, outId) ∈ outs) :
    Ensures (joinFrom g outs ids) r (fun vs _ => ∀ v ∈ vs, Step.Ready v ∧ v.IsRecord)
      Fault.OfTemplate := by
  induction ids generalizing done outs r with
  | nil => exact ensures_pure (by simp)
  | cons x rest ih =>
    obtain ⟨n, hn⟩ := Graph.has_iff.mp (hids x (by simp))
    have hrest : ∀ y ∈ rest, g.has y := fun y hy => hids y (List.mem_cons_of_mem x hy)
    rw [joinFrom, hn]
    dsimp only
    by_cases hc : IsCheck x
    · refine (ofCheck_ready hb hc hn).bind fun out r' hout => ?_
      obtain ⟨b, outs'⟩ := out
      obtain ⟨⟨outId, houts⟩, hready⟩ := hout
      obtain rfl : outs' = _ := houts
      refine (ih hord.2 hrest (known_cons [(x, outId)] hknown fun _ => ⟨outId, by simp⟩)).bind
        fun vs _ hvs => ensures_pure ?_
      exact List.forall_mem_append.mpr ⟨hready, hvs⟩
    · have hdeps : ∀ l, n.pathDeps = some l → ∀ p ∈ l, ∃ outId, (p, outId) ∈ outs := by
        intro l hl p hp
        obtain ⟨hbefore, hcp⟩ := (hb.deps (Graph.look_of_find? hn) hl).2 p hp
        exact hknown p (hord.1 p ⟨n, hn, hbefore⟩) hcp
      obtain ⟨b, hex, hready⟩ := ofNode_ready (r := r) hb hj ht hs hc hn hdeps
      have hknown' := known_cons [] hknown fun h => absurd h hc
      rw [List.append_nil] at hknown'
      refine ensures_bind_exec hex ((ih hord.2 hrest hknown').bind fun vs _ hvs => ensures_pure ?_)
      exact List.forall_mem_append.mpr ⟨hready, hvs⟩

end

end Block

/-! ## Compiling -/

namespace Job

open Setup

variable {table job : Value} {r : Registry}

/-- A job is a mapping and its steps are mappings. -/
structure Formed (job : Value) : Prop where
  fields : ∃ fields, job.fields? = some fields
  steps : ∃ vs, membersOrNone (job.part "steps") = .ok vs
  each : ∀ step ∈ Job.steps job, ∃ fields, step.fields? = some fields

theorem onlyTexts_of_textList {v : Option Value} (h : TextList v) : OnlyTexts v := by
  intro vs hvs
  obtain ⟨ws, hws, htexts⟩ := textList_iff.mp h
  obtain rfl := Except.ok.inj (hws.symm.trans hvs)
  exact htexts

theorem Ready.listed (h : Ready job) (hf : Formed job) : Listed job where
  fields := hf.fields
  steps := hf.steps
  each step hstep := by
    obtain ⟨hpaths, hsetups, -⟩ := h.2 step hstep
    exact ⟨hf.each step hstep, textList_iff.mp hpaths,
      (textList_iff.mp hsetups).imp fun _ hvs => hvs.1⟩
  setups := (textList_iff.mp h.1).imp fun _ hvs => hvs.1

theorem Ready.textNames (h : Ready job) (ht : TableReady table) : TextNames table job where
  table _ _ hd := onlyTexts_of_textList (ht.definition hd).1
  steps step hstep := onlyTexts_of_textList (h.2 step hstep).2.1
  job := onlyTexts_of_textList h.1

theorem wellShaped_of_ready (ht : TableReady table)
    (hfind : ∀ name, ∃ d, find? table (.str name) = .ok d) : WellShaped table :=
  ⟨hfind, fun _ _ hd => (textList_iff.mp (ht.definition hd).1).imp fun _ hvs => hvs.1⟩

/-- The last phase does not fail on ready steps, and nothing is edited. -/
theorem finish_ready {gated : List Value} (hj : job.IsRecord)
    (h : ∀ v ∈ gated, Step.Ready v ∧ v.IsRecord) :
    ∃ job', finish (plain job) [] gated = .ok (job', []) := by
  obtain ⟨fields, hplain⟩ := (plain_same hj).isRecord
  obtain ⟨out, hout⟩ := Bail.resolveAll_ready h
  rw [finish, hout, hplain]
  exact ⟨_, rfl⟩

/-- **A ready job compiles**, or the fault says what is wrong with the template. -/
theorem compile_ready (hf : Formed job) (hun : job.Unmarked) (hj : Ready job)
    (ht : TableReady table) (hfind : ∀ name, ∃ d, find? table (.str name) = .ok d) :
    Ensures (compile table job) r (fun a _ => a.2 = []) Fault.OfTemplate := by
  have htexts := hj.textNames ht
  rw [Ensures, exec_compile]
  cases hof : Graph.ofJob table job with
  | error e =>
    cases Graph.unbuildable_of_ofJob htexts hun hof with
    | undefined hs hd => exact Or.inl ⟨_, rfl⟩
    | noCheckout => exact Or.inr (Or.inr (Or.inl rfl))
    | unlisted hnot => exact absurd ⟨wellShaped_of_ready ht hfind, hj.listed hf⟩ hnot
  | ok made =>
    obtain ⟨hb, hmade, hrecord, hs⟩ := Graph.built_of_ofJob htexts hun hof
    obtain ⟨g, job₁, log⟩ := made
    obtain ⟨rfl, rfl⟩ := Prod.mk.inj hmade
    dsimp only at hb ⊢
    rcases Graph.order_cases hb.wf with ⟨ids, ho, -⟩ | ⟨edges, he, -⟩
    · obtain ⟨-, hmem, hord⟩ := Graph.order_ok hb.wf ho
      have hnone : ∀ x ∈ [], Graph.IsCheck x →
          ∃ outId, (x, outId) ∈ ([] : List (String × String)) := by simp
      have hjoin : Ensures (Block.join g ids) r _ _ :=
        Block.joinFrom_ready hb hj ht hs hord (fun x hx => (hmem x).mp hx) hnone
      rw [ho]
      dsimp only
      rw [Ensures] at hjoin
      rcases hex : exec (Block.join g ids) r with ⟨e | gated, r'⟩
      · rwa [hex] at hjoin
      · rw [hex] at hjoin
        obtain ⟨job', hfinish⟩ := finish_ready hrecord hjoin
        dsimp only
        rw [hfinish]
    · rw [he]
      exact Or.inr (Or.inr (Or.inr (Or.inl ⟨edges, rfl⟩)))

end Job

end StepLoom
