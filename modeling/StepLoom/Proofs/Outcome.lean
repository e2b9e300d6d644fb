import StepLoom.Proofs.Compile.Progress
import StepLoom.Proofs.Graph.Cycles

/-!
# When a job can be compiled

A job whose fields have the right types either compiles or fails for one of five reasons, which are
looked for in this order: a setup that is reached is not defined, path checks have no checkout, the
references come back to where they started, a pattern is bad, too many path checks share a name.
`Verdict` tells the reasons apart.

**Theorem (`verdict`).** Every regular job gets a verdict.

**Theorem (`compile_outcome`).** Each fault is reported exactly for its reason, unless an earlier
phase has failed.
-/

namespace StepLoom

open Setup Relation
open StepLoom.Graph (IsCheck checkoutSetup)
open Registry (maxTries namesakes)

namespace Job

variable {table job : Value} {g : Graph} {ids : List String}

/-- What becomes of a job in a document of its own. -/
def outcome (table job : Value) : Except Fault (Value × List Edit) :=
  ((compile table job).run.run {}).1

/-- A job and a table whose fields have the right types. -/
structure Regular (table job : Value) : Prop where
  unmarked : job.Unmarked
  listed : Listed job
  texts : TextNames table job
  shaped : WellShaped table
  worded : Worded table job

/-- The pattern lists of the path checks of a job. -/
def checkLists (job : Value) : List (List String) :=
  (distinct ((steps job).flatMap Step.checks)).map (checkPatterns job)

/-- Some setup that is reached is not defined. -/
def Undefined (table job : Value) : Prop := ∃ s, Reached table job s ∧ definition? table s = none

/-- There are path checks, and no checkout is reached. -/
def NoCheckout (table job : Value) : Prop :=
  (∃ step ∈ steps job, Step.patterns step ≠ []) ∧ ¬ Reached table job checkoutSetup

/-- A path check holds a pattern that has no regular expression. -/
def BadPattern (job : Value) (p : String) : Prop :=
  (∃ ps ∈ checkLists job, p ∈ ps) ∧ ∃ e, Pattern.regex p = .error e

/-- More path checks have a name than there are step ids for it. -/
def Crowded (job : Value) : Prop :=
  ∃ name, maxTries < (checkLists job).countP fun ps => Check.outputName ps = name

/-- Why a job has its outcome. -/
inductive Verdict (table job : Value) : Except Fault (Value × List Edit) → Prop
  | undefined {s : String} (hs : Reached table job s) (hd : definition? table s = none) :
      Verdict table job (.error (.unknownSetup s))
  | noCheckout (hu : ¬ Undefined table job) (hn : NoCheckout table job) :
      Verdict table job (.error .missingCheckout)
  | cyclic {edges : List String} (hu : ¬ Undefined table job) (hn : ¬ NoCheckout table job)
      (hc : Cyclic table job) : Verdict table job (.error (.cycle edges))
  | badPattern {p : String} (hu : ¬ Undefined table job) (hn : ¬ NoCheckout table job)
      (hc : ¬ Cyclic table job) (hp : BadPattern job p) :
      Verdict table job (.error (.invalidPattern p))
  | crowded {ps : List String} (hu : ¬ Undefined table job) (hn : ¬ NoCheckout table job)
      (hc : ¬ Cyclic table job) (hn : Crowded job) : Verdict table job (.error (.noFreeId ps))
  | compiled {r : Value × List Edit} (hu : ¬ Undefined table job) (hn : ¬ NoCheckout table job)
      (hc : ¬ Cyclic table job) (hp : ∀ p, ¬ BadPattern job p) (hcr : ¬ Crowded job) :
      Verdict table job (.ok r)

/-! ## Path checks -/

theorem nodup_distinct (xs : List String) : (distinct xs).Nodup := by
  rw [distinct_eq_addAll]
  exact nodup_addAll .nil

/-- The path checks in an order of a job's graph are those of the job. -/
theorem perm_checkLists (hb : Graph.Built table job g) (ho : g.order = .ok ids) :
    (Block.checksIn job ids).Perm (checkLists job) := by
  classical
  obtain ⟨hnd, hmem, -⟩ := Graph.order_ok hb.wf ho
  refine List.Perm.map _ ((List.perm_ext_iff_of_nodup (hnd.filter _) (nodup_distinct _)).mpr ?_)
  intro x
  rw [List.mem_filter, hmem, distinct_eq_addAll, mem_addAll, List.mem_flatMap]
  constructor
  · rintro ⟨hx, hc⟩
    exact Or.inr ((hb.has_check (by simpa using hc)).mp hx)
  · rintro (h | ⟨step, hstep, hc⟩)
    · cases h
    · have hcheck := Graph.isCheck_of_mem_checks hc
      exact ⟨(hb.has_check hcheck).mpr ⟨step, hstep, hc⟩, by simpa using hcheck⟩

theorem countP_checkLists (hb : Graph.Built table job g) (ho : g.order = .ok ids)
    (ps : List String) : ((checkLists job).countP fun qs => Check.outputName qs =
      Check.outputName ps) = (namesakes (Block.checksIn job ids) ps).length := by
  rw [← (perm_checkLists hb ho).countP_eq, List.countP_eq_length_filter, namesakes]

/-- The list of patterns of a node that is a path check. -/
theorem checkPatterns_mem_checkLists (hb : Graph.Built table job g) (ho : g.order = .ok ids)
    {x : String} (hx : x ∈ ids) (hc : IsCheck x) : checkPatterns job x ∈ checkLists job := by
  classical
  rw [← (perm_checkLists hb ho).mem_iff, Block.checksIn]
  exact List.mem_map_of_mem (List.mem_filter.mpr ⟨hx, by simpa using hc⟩)

theorem exists_of_mem_checkLists (hb : Graph.Built table job g) (ho : g.order = .ok ids)
    {ps : List String} (h : ps ∈ checkLists job) :
    ∃ x ∈ ids, IsCheck x ∧ checkPatterns job x = ps := by
  classical
  rw [← (perm_checkLists hb ho).mem_iff, Block.checksIn] at h
  obtain ⟨x, hx, rfl⟩ := List.mem_map.mp h
  obtain ⟨hmem, hc⟩ := List.mem_filter.mp hx
  exact ⟨x, hmem, by simpa using hc, rfl⟩

/-! ## Verdicts -/

/-- The last phase does not fail on readable steps. -/
theorem finish_total {gated : List Value} (hj : job.IsRecord)
    (h : ∀ v ∈ gated, Step.Readable v) : ∃ r, finish (plain job) [] gated = .ok r := by
  obtain ⟨fields, hplain⟩ := (plain_same hj).isRecord
  obtain ⟨out, hout⟩ := Bail.resolveAll_total h
  rw [finish, hout, hplain]
  exact ⟨_, rfl⟩

theorem not_undefined (hb : Graph.Built table job g) : ¬ Undefined table job := by
  rintro ⟨s, hs, hd⟩
  obtain ⟨n, hn⟩ := Graph.has_iff_look.mp (hb.has_setup.mpr hs)
  rw [(hb.setup hn).2.1] at hd
  cases hd

theorem not_noCheckout (hb : Graph.Built table job g) : ¬ NoCheckout table job := by
  rintro ⟨⟨step, hstep, hne⟩, hco⟩
  have hcheck : IsCheck (Check.nodeId (Step.patterns step)) := ⟨_, rfl⟩
  exact hco (hb.checkout hcheck ((hb.has_check hcheck).mpr
    ⟨step, hstep, Graph.mem_checks_iff.mpr ⟨hne, rfl⟩⟩))

/-- The verdict on a job whose nodes are in order. -/
theorem verdict_of_order (hw : Worded table job) (hj : job.IsRecord)
    (hs : ∀ step ∈ steps job, step.IsRecord) (hb : Graph.Built table job g)
    (ho : g.order = .ok ids) : Verdict table job (match exec (Block.join g ids) {} with
      | (.error e, _) => .error e
      | (.ok gated, _) => finish (plain job) [] gated) := by
  obtain ⟨hnd, hmem, hord⟩ := Graph.order_ok hb.wf ho
  have hu := not_undefined hb
  have hn := not_noCheckout hb
  have hc : ¬ Cyclic table job := by
    rw [← hb.cycle_iff, ← Graph.order_error_iff hb.wf, ho]
    rintro ⟨edges, he⟩
    cases he
  have hcases : Ensures (Block.joinFrom g [] ids) {} _ _ := Block.joinFrom_cases hb hw hs hord hnd
    (fun x hx => ⟨(hmem x).mp hx, by simp⟩) (by simp) (by simp) Registry.holds_empty
  rcases hex : exec (Block.join g ids) {} with ⟨e | gated, r'⟩
  · obtain ⟨x, hx, hcheck, hre | ⟨rfl, hcount⟩⟩ := hcases.of_error hex
    · obtain ⟨p, hp, rfl, hbad⟩ := Check.regexes_error hre
      exact .badPattern hu hn hc ⟨⟨_, checkPatterns_mem_checkLists hb ho hx hcheck, hp⟩, _, hbad⟩
    · refine .crowded hu hn hc ⟨Check.outputName (checkPatterns job x), ?_⟩
      rw [countP_checkLists hb ho]
      exact hcount
  · obtain ⟨hgood, hcount⟩ := hcases.of_ok hex
    have hread : ∀ v ∈ gated, Step.Readable v := by
      obtain ⟨blocks, outs, rfl, -, hall⟩ := Block.joinFrom_ok hex
      intro v hv
      obtain ⟨b, hbm, hvb⟩ := List.mem_flatten.mp hv
      obtain ⟨x, hx, hof⟩ := forall₂_exists_left hall hbm
      exact hof.readable hb hw hs ((hmem x).mp hx) v hvb
    obtain ⟨r, hr⟩ := finish_total hj hread
    simp only [hr]
    refine .compiled hu hn hc ?_ ?_
    · rintro p ⟨⟨ps, hps, hp⟩, e, he⟩
      obtain ⟨x, hx, hcheck, rfl⟩ := exists_of_mem_checkLists hb ho hps
      obtain ⟨rs, hrs⟩ := hgood x hx hcheck
      obtain ⟨r, hok⟩ := Check.regexes_ok hrs p hp
      cases he.symm.trans hok
    · rintro ⟨name, hmany⟩
      obtain ⟨ps, hps, hname⟩ := List.countP_pos_iff.mp (Nat.zero_lt_of_lt hmany)
      obtain rfl : Check.outputName ps = name := by simpa using hname
      rw [countP_checkLists hb ho] at hmany
      have hle := hcount ps (by simp [namesakes])
      rw [List.nil_append] at hle
      omega

/-- **Every regular job gets a verdict.** -/
theorem verdict (h : Regular table job) : Verdict table job (outcome table job) := by
  rw [outcome, show (compile table job).run.run {} = exec (compile table job) {} from rfl,
    exec_compile]
  cases hof : Graph.ofJob table job with
  | error e =>
    cases Graph.unbuildable_of_ofJob h.texts h.unmarked hof with
    | undefined hs hd => exact .undefined hs (definition?_of_find? hd)
    | noCheckout hall hp hc =>
      refine .noCheckout ?_ ⟨hp, hc⟩
      rintro ⟨s, hs, hd⟩
      obtain ⟨d, hsome⟩ := hall s hs
      cases hd.symm.trans hsome
    | unlisted hnot => exact absurd ⟨h.shaped, h.listed⟩ hnot
  | ok made =>
    obtain ⟨hb, hmade, hj, hs⟩ := Graph.built_of_ofJob h.texts h.unmarked hof
    obtain ⟨g, job₁, log⟩ := made
    obtain ⟨rfl, rfl⟩ := Prod.mk.inj hmade
    dsimp only at hb ⊢
    rcases Graph.order_cases hb.wf with ⟨ids, ho, -⟩ | ⟨edges, he, x, -, hcycle⟩
    · have hv := verdict_of_order h.worded hj hs hb ho
      rw [ho]
      dsimp only
      rcases hex : exec (Block.join g ids) {} with ⟨e | gated, r'⟩
      · rwa [hex] at hv
      · rwa [hex] at hv
    · rw [he]
      exact .cyclic (not_undefined hb) (not_noCheckout hb) (hb.cycle_iff.mp ⟨x, hcycle⟩)

end Job

/-- **When a job compiles, and which fault it reports otherwise.** -/
theorem compile_outcome {table job : Value} (h : Job.Regular table job) :
    ((∃ s, Job.outcome table job = .error (.unknownSetup s)) ↔ Job.Undefined table job) ∧
    (¬ Job.Undefined table job →
      (Job.outcome table job = .error .missingCheckout ↔ Job.NoCheckout table job)) ∧
    (¬ Job.Undefined table job → ¬ Job.NoCheckout table job →
      ((∃ edges, Job.outcome table job = .error (.cycle edges)) ↔ Job.Cyclic table job)) ∧
    (¬ Job.Undefined table job → ¬ Job.NoCheckout table job → ¬ Job.Cyclic table job →
      ((∃ e, Job.outcome table job = .error e) ↔ (∃ p, Job.BadPattern job p) ∨ Job.Crowded job) ∧
      ∀ e, Job.outcome table job = .error e →
        (∃ p, e = .invalidPattern p ∧ Job.BadPattern job p) ∨
          ∃ ps, e = .noFreeId ps ∧ Job.Crowded job) := by
  have hv := Job.verdict h
  generalize Job.outcome table job = o at hv
  cases hv with
  | undefined hs hd =>
    have hu : Job.Undefined table job := ⟨_, hs, hd⟩
    simp [hu]
  | noCheckout hu hn => simp [hu, hn]
  | cyclic hu hn hc => simp [hu, hn, hc]
  | badPattern hu hn hc hp =>
    have hbad : ∃ p, Job.BadPattern job p := ⟨_, hp⟩
    simp [hu, hn, hc, hp, hbad]
  | crowded hu hn hc hcr => simp [hu, hn, hc, hcr]
  | compiled hu hn hc hp hcr => simp [hu, hn, hc, hp, hcr]

theorem Job.sampleJob_regular : Job.Regular Job.sampleTable Job.sampleJob where
  unmarked := Job.sampleJob_unmarked
  listed := by
    refine ⟨⟨_, rfl⟩, ⟨_, rfl⟩, fun step hstep => ?_, ⟨_, rfl⟩⟩
    rw [show Job.steps Job.sampleJob = Job.sampleSteps from rfl] at hstep
    simp only [Job.sampleSteps, List.mem_cons, List.not_mem_nil, or_false] at hstep
    rcases hstep with rfl | rfl
    · exact ⟨⟨_, rfl⟩, ⟨[.str "src/*"], rfl, by simp⟩, ⟨_, rfl⟩⟩
    · exact ⟨⟨_, rfl⟩, ⟨[.str "docs/*"], rfl, by simp⟩, ⟨_, rfl⟩⟩
  texts := Job.sampleJob_textNames
  shaped := by
    refine ⟨fun name => ⟨_, find?_of_map rfl name⟩, fun name d hd => ?_⟩
    rw [Job.definition?_sampleTable] at hd
    split_ifs at hd <;> (obtain rfl := Option.some.inj hd; exact ⟨_, rfl⟩)
  worded := by
    refine ⟨fun step hstep => ?_, fun s _ d hd => ?_⟩
    · rw [show Job.steps Job.sampleJob = Job.sampleSteps from rfl] at hstep
      simp only [Job.sampleSteps, List.mem_cons, List.not_mem_nil, or_false] at hstep
      rcases hstep with rfl | rfl <;> exact ⟨⟨_, rfl⟩, Value.textOrAbsent_none,
        Value.textOrAbsent_none, Value.textOrAbsent_none, by intro x hx; cases hx⟩
    · rw [Job.definition?_sampleTable] at hd
      split_ifs at hd <;> (
        obtain rfl := Option.some.inj hd
        refine ⟨_, rfl, fun item hitem => ?_⟩
        obtain rfl := List.mem_singleton.mp hitem
        exact ⟨⟨_, rfl⟩, Value.textOrAbsent_none, Value.textOrAbsent_none,
          Value.textOrAbsent_none, by intro x hx; cases hx⟩)

theorem compile_outcome_sample : Job.Regular Job.sampleTable Job.sampleJob ∧
    (∃ r, Job.outcome Job.sampleTable Job.sampleJob = .ok r) ∧
    ¬ Job.Undefined Job.sampleTable Job.sampleJob ∧ ¬ Job.NoCheckout Job.sampleTable Job.sampleJob ∧
    ¬ Job.Cyclic Job.sampleTable Job.sampleJob ∧ (∀ p, ¬ Job.BadPattern Job.sampleJob p) ∧
    ¬ Job.Crowded Job.sampleJob := by
  have hok : (Job.outcome Job.sampleTable Job.sampleJob).toOption.isSome = true := by
    decide +kernel
  obtain ⟨r, hr⟩ : ∃ r, Job.outcome Job.sampleTable Job.sampleJob = .ok r := by
    cases h : Job.outcome Job.sampleTable Job.sampleJob with
    | ok r => exact ⟨r, rfl⟩
    | error e => simp [h, Except.toOption] at hok
  obtain ⟨hundefined, hcheckout, hcyclic, hrest⟩ := compile_outcome Job.sampleJob_regular
  simp only [hr, reduceCtorEq, exists_false, false_iff] at hundefined hcheckout hcyclic hrest
  have hn := hcheckout hundefined
  have hc := hcyclic hundefined hn
  obtain ⟨hfine, -⟩ := hrest hundefined hn hc
  rw [not_or, not_exists] at hfine
  exact ⟨Job.sampleJob_regular, ⟨r, hr⟩, hundefined, hn, hc, hfine.1, hfine.2⟩

end StepLoom
