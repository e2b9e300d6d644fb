import StepLoom.Proofs.Compile.Sources
import StepLoom.Proofs.Conditions

/-!
# The `if` that a step was written with

Gates are put in front of what a step has as its `if` already, one after another (`Fenced`). So what
an author wrote is the innermost part of the `if` of the compiled step (`Carried`), unless it is
blank: a gate takes the place of a blank `if`, and nothing is left of it.

**Theorem (`own_gate_carried`).** This holds of every step of a job that compiles and of every step
of the setups that it uses. A step whose own `if` does not hold does not run, as long as the gates
in front of it are expressions.

**Theorem (`own_gate_lost`).** So a step that is switched off by `if: false` runs once it stands
behind a step that may bail.
-/

namespace StepLoom

open Value Condition

variable {x y z : Option Value} {v w step : Value} {cs ds : List String} {c gate text : String}
  {steps out items b b' : List Value} {n : Nat} {fields : Fields}

/-! ## Gates in front of an `if` -/

/-- The `if` is the second one after some gates have been put in front of the first, the last of
them given first. -/
inductive Fenced : List String → Option Value → Option Value → Prop
  | none (x : Option Value) : Fenced [] x x
  | front {cs : List String} {x y : Option Value} {c text : String} (h : Fenced cs x y)
      (hc : c ≠ "") (ht : Gate.inFrontOf c y = .ok text) : Fenced (c :: cs) x (some (.str text))

/-- What is left of an `if` under some gates. -/
inductive Carried : List String → Option Value → Option Value → Prop
  | asIs (x : Option Value) : Carried [] x x
  | inside {c : String} {cs : List String} {x : Option Value} {v : Value} {text : String}
      (hx : given? x = some v) (ht : v.text = .ok text) :
      Carried (c :: cs) x (some (.str ((c :: cs).foldr Gate.both text)))
  | lost {c : String} {x : Option Value} (cs : List String) (hx : given? x = none) :
      Carried (cs ++ [c]) x (some (.str (cs.foldr Gate.both c)))

theorem Fenced.trans (h : Fenced cs x y) (h' : Fenced ds y z) : Fenced (ds ++ cs) x z := by
  induction h' with
  | none => exact h
  | front _ hc ht ih => exact .front (ih h) hc ht

theorem Gate.both_ne_empty (one two : String) : Gate.both one two ≠ "" := by
  intro he
  have := congrArg String.toList he
  simp [Gate.both] at this

theorem foldr_both_ne_empty (hc : c ≠ "") : cs.foldr Gate.both c ≠ "" := by
  cases cs with
  | nil => exact hc
  | cons d ds => exact Gate.both_ne_empty _ _

theorem given?_text (h : text ≠ "") : given? (some (.str text)) = some (.str text) := by
  have hblank : (Value.str text).isBlank = false := by
    change text.isEmpty = false
    simpa using h
  rw [given?, Option.filter_some, hblank]
  rfl

theorem inFrontOf_text (h : text ≠ "") :
    Gate.inFrontOf c (some (.str text)) = .ok (Gate.both c text) := by
  rw [Gate.inFrontOf, given?_text h]
  rfl

/-- **What is left of an `if` is all of it, or nothing if it is blank.** -/
theorem Fenced.carried (h : Fenced cs x y) : Carried cs x y ∧ ∀ c ∈ cs, c ≠ "" := by
  induction h with
  | none x => exact ⟨.asIs x, by simp⟩
  | @front cs x y c text _ hc ht ih =>
    obtain ⟨hcarried, hne⟩ := ih
    refine ⟨?_, List.forall_mem_cons.mpr ⟨hc, hne⟩⟩
    cases hcarried with
    | asIs =>
      rw [Gate.inFrontOf] at ht
      cases hx : given? x with
      | none =>
        rw [hx] at ht
        obtain rfl := Except.ok.inj ht
        exact .lost [] hx
      | some v =>
        rw [hx] at ht
        obtain ⟨own, hown, ht⟩ := bind_eq_ok.mp ht
        obtain rfl := Except.ok.inj ht
        exact .inside hx hown
    | @inside d ds _ v own hx hown =>
      have hne' : (d :: ds).foldr Gate.both own ≠ "" := Gate.both_ne_empty _ _
      rw [inFrontOf_text hne'] at ht
      obtain rfl := Except.ok.inj ht
      exact .inside hx hown
    | @lost d _ ds hx =>
      rw [inFrontOf_text (foldr_both_ne_empty (hne d (by simp)))] at ht
      obtain rfl := Except.ok.inj ht
      exact .lost (c :: ds) hx

/-- Expressions that are joined are an expression, which holds if all of them do. -/
theorem means_foldr {e : Expr} (ht : Means text.toList (.bare e))
    (hcs : ∀ c ∈ cs, ∃ e, Means c.toList (.bare e)) :
    ∃ e', Means (cs.foldr Gate.both text).toList (.bare e') ∧
      ∀ v : Valuation, v.holds e = false → v.holds e' = false := by
  induction cs with
  | nil => exact ⟨e, ht, fun _ h => h⟩
  | cons c cs ih =>
    obtain ⟨⟨ec, hc⟩, hrest⟩ := List.forall_mem_cons.mp hcs
    obtain ⟨e', he', hholds⟩ := ih hrest
    obtain ⟨s, hs, hbare, hmeans⟩ := hc.both he'
    cases s with
    | bare e₂ =>
      refine ⟨e₂, hs, fun v hv => ?_⟩
      have := hmeans v
      simpa [Sense.holds, Sense.isBare, hholds v hv] using this
    | wrapped => cases hbare
    | mixed => cases hbare

/-- Of the first `if` the second one keeps what gates leave of it. If the first is an expression
that does not hold, and the gates are expressions, the second does not hold. -/
def Survives (x y : Option Value) : Prop :=
  ∃ cs, Carried cs x y ∧ ∀ (v : Valuation) (text : String) (e : Expr), text ≠ "" →
    x = some (.str text) → Means text.toList (.bare e) → v.holds e = false →
    (∀ c ∈ cs, ∃ e, Means c.toList (.bare e)) → ∃ s, y = some (.str s) ∧ ¬ Holds v s

theorem Fenced.survives (h : Fenced cs x y) : Survives x y := by
  obtain ⟨hcarried, -⟩ := h.carried
  refine ⟨cs, hcarried, fun v text e hne hx hmeans hfalse hcs => ?_⟩
  obtain ⟨e', he', hholds⟩ := means_foldr hmeans hcs
  refine ⟨cs.foldr Gate.both text, ?_, fun h => ?_⟩
  · cases hcarried with
    | asIs => exact hx
    | inside hgiven hown =>
      rw [hx, given?_text hne] at hgiven
      obtain rfl := Option.some.inj hgiven
      obtain rfl := Except.ok.inj hown
      rfl
    | lost _ hgiven =>
      rw [hx, given?_text hne] at hgiven
      cases hgiven
  · rw [holds_iff he', Sense.holds, hholds v hfalse] at h
    cases h

/-! ## Gates of one step -/

theorem fenced_guardWith {condition : Option String} (h : Gate.guardWith condition v = .ok w)
    (hv : v.IsRecord) : ∃ cs, Fenced cs (v.part "if") (w.part "if") := by
  obtain ⟨fields, rfl⟩ := hv
  unfold Gate.guardWith at h
  cases hc : condition.filter fun c => !c.isEmpty with
  | none =>
    simp only [hc] at h
    obtain rfl := Except.ok.inj h
    exact ⟨[], .none _⟩
  | some c =>
    simp only [hc] at h
    have hne : c ≠ "" := by simpa using (Option.filter_eq_some_iff.mp hc).2
    change (Gate.inFrontOf c (Fields.get? "if" fields) >>= fun gate => pure _) = _ at h
    obtain ⟨gate, hgate, h⟩ := bind_eq_ok.mp h
    obtain rfl := Except.ok.inj h
    refine ⟨[c], ?_⟩
    rw [show (Value.record _).part "if" = some (.str gate) from Fields.get?_put_self]
    exact .front (.none _) hne hgate

theorem fenced_gateStep (h : Bail.gateStep gate v = .ok w) (hv : v.IsRecord) (hne : gate ≠ "") :
    Fenced [gate] (v.part "if") (w.part "if") := by
  obtain ⟨fields, rfl⟩ := hv
  change (Gate.inFrontOf gate (Fields.get? "if" fields) >>= fun gate => pure _) = _ at h
  obtain ⟨text, htext, h⟩ := bind_eq_ok.mp h
  obtain rfl := Except.ok.inj h
  rw [show (Value.record _).part "if" = some (.str text) from Fields.get?_put_self]
  exact .front (.none _) hne htext

/-- Bail conditions put gates in front of what is there. -/
theorem Bail.Resolves.fenced (h : Bail.Resolves n steps out) (hs : ∀ v ∈ steps, v.IsRecord) :
    List.Forall₂ (fun v w => ∃ cs, Fenced cs (v.part "if") (w.part "if")) steps out := by
  induction h with
  | nil => exact .nil
  | @keep n v rest out _ _ ih =>
    exact .cons ⟨[], .none _⟩ (ih (List.forall_mem_cons.mp hs).2)
  | @bail n v v' gate rest rest' out hv hsplit hgate _ ih =>
    obtain ⟨hrecord, hrest⟩ := List.forall_mem_cons.mp hs
    obtain ⟨-, -, -, -, q, -, -, -, -, -, -, hq⟩ := Bail.split_inv hsplit
    have hne : gate ≠ "" := hq ▸ Bail.negate_ne_empty q
    have hown := (Bail.split_ok hsplit hrecord).part (a := "if") (by simp)
    refine .cons ⟨[], by rw [hown]; exact .none _⟩ ?_
    refine forall₂_comp (fun u w z huw hwz => ?_) (Bail.gateAll_ok hgate hrest)
      (ih (Bail.records_of_gateAll hgate hrest))
    obtain ⟨cs, hcs⟩ := hwz
    exact ⟨_, (fenced_gateStep huw.2 huw.1 hne).trans hcs⟩

/-! ## Blocks -/

namespace Block

variable {table job definition : Value} {name x : String} {outs : List (String × String)}

/-- What becomes of the `if` of each step of a setup. -/
inductive CarriesAll : List Value → List Value → Prop
  | none : CarriesAll [] []
  | one {step w : Value} (h : Survives (step.entry "if") (w.part "if")) : CarriesAll [step] [w]
  | many {steps ws : List Value} {first last : Value} (h2 : 2 ≤ steps.length)
      (h : List.Forall₂ (fun step w => Survives (step.entry "if") (w.part "if")) steps ws) :
      CarriesAll steps (first :: ws ++ [last])

/-- What becomes of the `if` of each source step of a node. -/
inductive Carries (table job : Value) : String → List Value → Prop
  | step {i : Nat} {step w : Value} (hi : (Job.steps job)[i]? = some step)
      (h : Survives (step.entry "if") (w.part "if")) : Carries table job (Graph.stepId i) [w]
  | setup {name definition : Value} {text : String} {items b : List Value}
      (hname : Job.Used table job name) (htext : name.text = .ok text)
      (hfound : Setup.find? table name = .ok (some definition))
      (hitems : Setup.steps definition = .ok items) (hb : CarriesAll items b) :
      Carries table job (Graph.setupId text) b
  | paths {x : String} {w : Value} (hx : Graph.IsCheck x) : Carries table job x [w]

theorem entry_of_asFields (h : step.asFields = .ok fields) :
    step.entry "if" = (Value.record fields).part "if" := by
  rw [Value.entry, h]
  rfl

/-- The steps that a setup contributes, under further gates. -/
theorem Copied.carriesAll (h : Copied name items b)
    (hf : List.Forall₂ (fun v w => ∃ cs, Fenced cs (v.part "if") (w.part "if")) b b') :
    CarriesAll items b' := by
  cases h with
  | none =>
    obtain rfl := List.forall₂_nil_left_iff.mp hf
    exact .none
  | @one step label fields hfields hl =>
    obtain ⟨w, _, ⟨cs, hcs⟩, hnil, rfl⟩ := List.forall₂_cons_left_iff.mp hf
    obtain rfl := List.forall₂_nil_left_iff.mp hnil
    refine .one ?_
    rw [entry_of_asFields (asFields_of_fields? hfields)]
    rw [show (Value.record (Fields.put "name" _ fields)).part "if" = Fields.get? "if" fields from
      Fields.get?_put_ne (by decide)] at hcs
    exact hcs.survives
  | @many steps vs h2 hc =>
    obtain ⟨first, rest, -, hrest, rfl⟩ := List.forall₂_cons_left_iff.mp hf
    obtain ⟨ws, last, rfl, hws, hlast⟩ := forall₂_append hrest
    obtain ⟨last, _, -, hnil, rfl⟩ := List.forall₂_cons_left_iff.mp hlast
    obtain rfl := List.forall₂_nil_left_iff.mp hnil
    refine .many h2 (forall₂_comp ?_ hc hws)
    rintro step v w ⟨fields, hfields, rfl⟩ ⟨cs, hcs⟩
    rw [entry_of_asFields hfields]
    exact hcs.survives

/-- The steps of a node, under further gates. -/
theorem From.carries (h : From table job outs x b)
    (hf : List.Forall₂ (fun v w => ∃ cs, Fenced cs (v.part "if") (w.part "if")) b b') :
    Carries table job x b' := by
  cases h with
  | @step i step v fields c hi hfields hv =>
    obtain ⟨w, _, ⟨cs, hcs⟩, hnil, rfl⟩ := List.forall₂_cons_left_iff.mp hf
    obtain rfl := List.forall₂_nil_left_iff.mp hnil
    obtain ⟨ds, hds⟩ := fenced_guardWith hv (isRecord_plain hfields)
    have hplain : Step.plain step = Step.plain (.record fields) := by
      rw [Step.plain, hfields]
      rfl
    rw [hplain, (Step.plain_same ⟨fields, rfl⟩).part (by simp),
      ← entry_of_asFields (asFields_of_fields? hfields)] at hds
    exact .step hi (hds.trans hcs).survives
  | @setup name definition text c b hname htext hfound hb =>
    rw [ofSetup_eq] at hb
    obtain ⟨vs, hvs, hb⟩ := bind_eq_ok.mp hb
    obtain ⟨items, hitems, hcopied⟩ := copies_inv hvs
    refine .setup hname htext hfound hitems (hcopied.carriesAll ?_)
    have hrecord := hcopied.ofSetup.isRecord
    have hguard : List.Forall₂ (fun v w => ∃ cs, Fenced cs (v.part "if") (w.part "if")) vs b :=
      ((List.forall₂_and_left _ _).mpr ⟨hrecord, mapM_ok hb⟩).imp fun _ _ h =>
        fenced_guardWith h.2 h.1
    refine forall₂_comp ?_ hguard hf
    rintro u v w ⟨cs, hcs⟩ ⟨ds, hds⟩
    exact ⟨ds ++ cs, hcs.trans hds⟩
  | @paths step v outId check c hstep hne hout hcheck hv =>
    obtain ⟨w, _, -, hnil, rfl⟩ := List.forall₂_cons_left_iff.mp hf
    obtain rfl := List.forall₂_nil_left_iff.mp hnil
    exact .paths ⟨_, rfl⟩

end Block

/-! ## Compiled jobs -/

/-- **What a step was written with as its `if` is still in the `if` of the compiled step**, unless
it is blank and a gate was put on the step. The blocks of a compiled job are those of distinct
nodes, among them one for each step of the job and for each setup that it reaches. -/
theorem own_gate_carried {table job job' : Value} {r r' : Registry} {edits : List Edit}
    (halone : Job.StandAlone job) (h : exec (Job.compile table job) r = (.ok (job', edits), r')) :
    ∃ (ids : List String) (blocks : List (List Value)), ids.Nodup ∧
      job'.part "steps" = some (.list blocks.flatten) ∧
      List.Forall₂ (Block.Carries table job) ids blocks ∧
      (Job.TextNames table job → job.Unmarked →
        (∀ i < (Job.steps job).length, Graph.stepId i ∈ ids) ∧
        ∀ s, Job.Reached table job s → Graph.setupId s ∈ ids) := by
  obtain ⟨g, left, ids, hof, ho⟩ := ordered_of_compile h
  obtain ⟨-, outs, blocks, resolved, hc, -⟩ := assembled_of_order halone hof ho h
  obtain ⟨fields, fields', -, rfl, -, hsteps⟩ := hc.job
  have hfenced : List.Forall₂ (fun v w => ∃ cs, Fenced cs (v.part "if") (w.part "if"))
      blocks.flatten (resolved.map Bail.dropped) := by
    have hrecords := hc.bails.records hc.gated
    have hboth := (List.forall₂_and_left _ _).mpr ⟨hrecords, (hc.bails.fenced hc.gated).flip⟩
    refine List.forall₂_map_right_iff.mpr (hboth.flip.imp fun v w h => ?_)
    obtain ⟨hrecord, cs, hcs⟩ := h
    exact ⟨cs, by rwa [(Bail.dropped_same hrecord).1.part (by simp)]⟩
  obtain ⟨blocks', hflat, hblocks⟩ := forall₂_flatten hfenced
  refine ⟨ids, blocks', hc.nodup, hflat ▸ hsteps,
    forall₂_comp (fun _ _ _ hfrom hf => hfrom.carries hf) hc.each hblocks, fun htext hun => ?_⟩
  obtain ⟨hbuilt, -⟩ := Graph.built_of_ofJob htext hun hof
  have hmem := (Graph.order_ok hbuilt.wf ho).2.1
  exact ⟨fun i hi => (hmem _).mpr (hbuilt.has_step.mpr hi),
    fun s hs => (hmem _).mpr (hbuilt.has_setup.mpr hs)⟩

/-! ## A step that is switched off

The first step may bail, the second one is switched off, the third one has a condition of its own.
-/

namespace Job

def switchedSteps : List Value := [
  .record [("run", .str "probe"), ("bail_if", .str "outputs.done")],
  .record [("run", .str "deploy"), ("if", .bool false)],
  .record [("run", .str "report"), ("if", .str "failure()")]]

def switchedJob : Value := .record [("steps", .list switchedSteps)]

theorem switchedJob_standAlone : StandAlone switchedJob := by
  refine ⟨standsAlone_record _, fun step hstep => ?_⟩
  rw [show steps switchedJob = switchedSteps from rfl] at hstep
  simp only [switchedSteps, List.mem_cons, List.not_mem_nil, or_false] at hstep
  rcases hstep with rfl | rfl | rfl <;> exact standsAlone_record _

/-- The gate of the steps behind the one that may bail. -/
def bailed : String := Bail.negate "steps.bail_if_1.outputs.done"

theorem switchedJob_gates : ∃ job' edits r',
    exec (compile (.record []) switchedJob) {} = (.ok (job', edits), r') ∧
      texts "if" job' = some [none, some bailed, some (Gate.both bailed "failure()")] := by
  have hgates : (exec (compile (.record []) switchedJob) {}).1.toOption.bind
      (fun r => texts "if" r.1) =
        some [none, some bailed, some (Gate.both bailed "failure()")] := by
    decide
  rcases h : exec (compile (.record []) switchedJob) {} with ⟨e | ⟨job', edits⟩, r'⟩
  · rw [h] at hgates
    cases hgates
  · rw [h] at hgates
    exact ⟨job', edits, r', rfl, hgates⟩

end Job

/-- The compiled job, with the gates of its steps. -/
theorem own_gate_carried_switched : ∃ job' edits r',
    exec (Job.compile (.record []) Job.switchedJob) {} = (.ok (job', edits), r') ∧
    Job.StandAlone Job.switchedJob ∧
    Job.texts "if" job' = some [none, some Job.bailed, some (Gate.both Job.bailed "failure()")] ∧
    ∃ (ids : List String) (blocks : List (List Value)),
      job'.part "steps" = some (.list blocks.flatten) ∧
      List.Forall₂ (Block.Carries (.record []) Job.switchedJob) ids blocks := by
  obtain ⟨job', edits, r', h, hgates⟩ := Job.switchedJob_gates
  obtain ⟨ids, blocks, -, hsteps, hcarries, -⟩ := own_gate_carried Job.switchedJob_standAlone h
  exact ⟨job', edits, r', h, Job.switchedJob_standAlone, hgates, ids, blocks, hsteps, hcarries⟩

/-- Nothing has an output. -/
def Condition.quiet : Valuation where
  Val := Bool
  truthy b := b
  flag b := b
  truthy_flag _ := rfl
  constant _ := false
  text _ := false
  name _ := false
  field _ _ := false
  each _ := false
  index _ _ := false
  call _ _ := false
  compare _ _ _ := false
  render _ := []

theorem Condition.means_bailed : Means "steps.bail_if_1.outputs.done".toList
    (.bare (.field (.field (.field (.name "steps".toList) "bail_if_1".toList) "outputs".toList)
      "done".toList)) := by
  refine .bare (by decide) ⟨[.word "steps".toList, .dot, .word "bail_if_1".toList, .dot,
    .word "outputs".toList, .dot, .word "done".toList], by decide, ?_⟩
  exact (Reads.operand (.name (isReference_of_name (by decide) (by decide)) (by simp))
    (.field (by decide)
      (.field (by decide) (.field (by decide) (.whole (by simp) (by simp)))))).lower
        (Nat.zero_le _) (Nat.le_refl _) (by simp)

theorem Condition.runs_bailed : Runs quiet (some Job.bailed) := by
  obtain ⟨t, ht, hbare, hholds⟩ := means_bailed.negate
  rintro _ ⟨⟩
  refine ⟨t, ht, ?_⟩
  rw [hholds, hbare]
  rfl

/-- **A step that is switched off runs** when the step in front of it does not bail. Its `if` is
gone. -/
theorem own_gate_lost : ∃ job' edits r',
    exec (Job.compile (.record []) Job.switchedJob) {} = (.ok (job', edits), r') ∧
    ((Job.steps Job.switchedJob)[1]?.bind (Value.part "if")) = some (.bool false) ∧
    ∃ gate, (Job.texts "if" job').bind (·[1]?) = some (some gate) ∧
      (∀ cs : List String, gate ≠ cs.foldr Gate.both "False") ∧ ∃ v, Runs v (some gate) := by
  obtain ⟨job', edits, r', h, hgates⟩ := Job.switchedJob_gates
  refine ⟨job', edits, r', h, rfl, Job.bailed, by rw [hgates]; rfl, fun cs he => ?_, quiet,
    runs_bailed⟩
  cases cs with
  | nil => exact absurd he (by decide)
  | cons c cs =>
    have hhead := congrArg (fun s => s.toList.head?) he
    simp only [List.foldr_cons, toList_both, List.head?_cons] at hhead
    exact absurd hhead (by decide)

end StepLoom
