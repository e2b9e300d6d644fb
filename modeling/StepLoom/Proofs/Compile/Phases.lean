import StepLoom.Compile.Job
import StepLoom.Proofs.Compile.Copies
import StepLoom.Proofs.Graph.Built
import StepLoom.Proofs.Graph.Ordering

/-!
# The phases of compiling a job

Compiling a job builds its graph, puts it in order, joins the blocks of its nodes and resolves bail
conditions. Each phase may fail, and only the joining touches the registry.

**Theorem (`compile_ok`).** If no phase fails, the steps are the blocks of the nodes, each of them
as `BlockOf` says, after bail conditions are resolved from left to right.
-/

namespace StepLoom

variable {table job job' v : Value} {g : Graph} {r r' : Registry} {edits : List Edit} {x : String}
  {b : List Value} {outs : List (String × String)}

/-! ## What the tool takes away -/

theorem Step.plain_same {step : Value} (h : step.IsRecord) : Value.Same
    ["setup", "paths", "local", "local_env_flag", "local_cache_directory"] step (plain step) := by
  obtain ⟨fields, rfl⟩ := h
  refine ⟨fields, _, rfl, rfl, ?_⟩
  simp only [Graph.extensionKeys, List.foldl_cons, List.foldl_nil]
  repeat rw [Fields.without_erase (by simp)]

theorem Job.plain_same (h : job.IsRecord) : Value.Same ["setup", "steps"] job (plain job) := by
  obtain ⟨fields, rfl⟩ := h
  refine ⟨fields, _, rfl, rfl, ?_⟩
  split_ifs
  · rw [Fields.without_put (by simp), Fields.without_erase (by simp)]
  · rw [Fields.without_erase (by simp)]

/-! ## Phases -/

/-- The last phase: bail conditions are resolved and the job gets its steps. -/
def Job.finish (job : Value) (log : List Edit) (gated : List Value) :
    Except Fault (Value × List Edit) := do
  let (steps, edits) ← Bail.resolveAll gated
  let fields ← (job.applyAll edits).fieldsOf
  let (job, last) := job.withFields (Fields.put "steps" (.list steps) fields)
  return (job, log ++ edits ++ last)

theorem exec_compile : exec (Job.compile table job) r =
    match Graph.ofJob table job with
    | .error e => (.error e, r)
    | .ok (g, job, log) =>
      match g.order with
      | .error e => (.error e, r)
      | .ok ids =>
        match exec (Block.join g ids) r with
        | (.error e, r) => (.error e, r)
        | (.ok gated, r) => (Job.finish job log gated, r) := by
  rw [Job.compile]
  cases hg : Graph.ofJob table job with
  | error e => rfl
  | ok made =>
    obtain ⟨g, job, log⟩ := made
    rw [exec_bind_ok (exec_liftM_ok _)]
    dsimp only
    cases ho : g.order with
    | error e => rfl
    | ok ids =>
      rw [exec_bind_ok (exec_liftM_ok _), exec_bind]
      dsimp only
      rcases exec (Block.join g ids) r with ⟨e | gated, r'⟩
      · rfl
      · dsimp only
        unfold Job.finish
        cases Bail.resolveAll gated with
        | error e => rfl
        | ok resolved =>
          obtain ⟨steps, edits⟩ := resolved
          rw [exec_bind_ok (exec_liftM_ok _)]
          change _ = ((job.applyAll edits).fieldsOf >>= fun fields => pure _, r')
          cases (job.applyAll edits).fieldsOf with
          | error e => rfl
          | ok fields => rfl

/-! ## Blocks by the names of nodes -/

namespace Block

open StepLoom.Graph (stepId setupId)

/-- The block of a job's step. -/
theorem BlockOf.of_step {i : Nat} {step : Value} (h : BlockOf g outs (stepId i) b)
    (hg : Graph.Built table job g) (hi : (Job.steps job)[i]? = some step) :
    ∃ c v, b = [v] ∧ Gate.anyChanged (Graph.conditions (Step.checks step)) outs = .ok c ∧
      Gate.guardWith c (Step.plain step) = .ok v := by
  obtain ⟨m, hm, hkind, hcontent, hdeps, -⟩ := hg.step hi
  have hnode : ∀ {n}, g.find? (stepId i) = some n → n.kind = .step ∧
      n.content = Step.plain step ∧ n.pathDeps = Graph.conditions (Step.checks step) := by
    intro n hn
    obtain rfl := Option.some.inj (hm.symm.trans (Graph.look_of_find? hn))
    exact ⟨hkind, hcontent, hdeps⟩
  cases h with
  | paths hn hk => cases hk.symm.trans (hnode hn).1
  | setup hn hk => cases hk.symm.trans (hnode hn).1
  | step hn _ hc hv =>
    obtain ⟨-, hcon, hd⟩ := hnode hn
    exact ⟨_, _, rfl, hd ▸ hc, hcon ▸ hv⟩

/-- The name of a setup is what its id has after the prefix. -/
theorem drop_setupId (s : String) :
    String.ofList ((setupId s).toList.drop (setupId "").length) = s := by
  rw [setupId, setupId, String.toList_append, String.append_empty, ← String.length_toList,
    List.drop_left, String.ofList_toList]

/-- The block of a setup. -/
theorem BlockOf.of_setup {s : String} (h : BlockOf g outs (setupId s) b)
    (hg : Graph.Built table job g) : ∃ n c, g.look (setupId s) = some n ∧
      Setup.definition? table s = some n.content ∧ Gate.anyChanged n.pathDeps outs = .ok c ∧
      ofSetup s n.content c = .ok b := by
  have hnode : ∀ {n}, g.find? (setupId s) = some n → n.kind = .setup ∧
      Setup.definition? table s = some n.content := by
    intro n hn
    obtain ⟨hk, hd, -⟩ := hg.setup (Graph.look_of_find? hn)
    exact ⟨hk, hd⟩
  cases h with
  | paths hn hk => cases hk.symm.trans (hnode hn).1
  | step hn hk => cases hk.symm.trans (hnode hn).1
  | setup hn _ hc hb =>
    rw [drop_setupId] at hb
    exact ⟨_, _, Graph.look_of_find? hn, (hnode hn).2, hc, hb⟩

/-- The block of a path check, which no gate stands in front of. -/
theorem BlockOf.of_check (h : BlockOf g outs x b) (hx : Graph.IsCheck x)
    (hg : Graph.Built table job g) : ∃ outId check, (x, outId) ∈ outs ∧
      Check.step outId (Job.checkPatterns job x) = .ok check ∧ b = [.record check] := by
  have hnode : ∀ {n}, g.find? x = some n → n.kind = .paths ∧ n.pathDeps = none ∧
      n.content = .list ((Job.checkPatterns job x).map .str) := by
    intro n hn
    obtain ⟨hk, hd, -, hc⟩ := hg.check hx (Graph.look_of_find? hn)
    exact ⟨hk, hd, hc⟩
  cases h with
  | step hn hk => cases hk.symm.trans (hnode hn).1
  | setup hn hk => cases hk.symm.trans (hnode hn).1
  | paths hn _ hc hp ho hs hv =>
    obtain ⟨-, hd, hcon⟩ := hnode hn
    rw [hd] at hc
    obtain rfl := Except.ok.inj hc
    obtain rfl := Except.ok.inj hv
    rw [hcon] at hp
    obtain rfl := Except.ok.inj ((Graph.strings_map _).symm.trans hp)
    exact ⟨_, _, ho, hs, rfl⟩

/-- The blocks of a job's nodes hold mappings. -/
theorem BlockOf.isRecord (h : BlockOf g outs x b) (hg : Graph.Built table job g)
    (hx : g.has x) (hs : ∀ step ∈ Job.steps job, step.IsRecord) : ∀ v ∈ b, v.IsRecord := by
  obtain ⟨n, hn⟩ := Graph.has_iff_look.mp hx
  rcases hg.cases hn with ⟨i, step, hi, rfl, -⟩ | ⟨hcheck, -⟩ | ⟨s, -, rfl, -⟩
  · obtain ⟨c, v, rfl, -, hv⟩ := h.of_step hg hi
    have hrec := (Step.plain_same (hs step (List.mem_of_getElem? hi))).isRecord
    simpa using (guardWith_ok hv hrec).isRecord
  · obtain ⟨outId, check, -, -, rfl⟩ := h.of_check hcheck hg
    simpa using ⟨check, rfl⟩
  · obtain ⟨m, c, -, -, -, hb⟩ := h.of_setup hg
    obtain ⟨items, -, hof⟩ := ofSetup_ok hb
    exact hof.isRecord

end Block

/-! ## A compiled job -/

/-- A compiled job as its phases made it: from a graph `g` in the order `ids`, with the step ids
`outs` of path checks, over the gated `blocks`, which are `resolved`. -/
structure Compiled (table job job' : Value) (g : Graph) (ids : List String)
    (outs : List (String × String)) (blocks : List (List Value)) (resolved : List Value) :
    Prop where
  made : ∃ left, Graph.ofJob table job = .ok (g, left)
  built : g.Built table job
  order : g.order = .ok ids
  records : job.IsRecord ∧ ∀ step ∈ Job.steps job, step.IsRecord
  known : Block.StepIds outs ids
  each : List.Forall₂ (Block.BlockOf g outs) ids blocks
  gated : ∀ v ∈ blocks.flatten, v.IsRecord
  bails : Bail.Resolves 1 blocks.flatten resolved
  steps : ∃ fields, Job.plain job = .record fields ∧
    job' = .record (Fields.put "steps" (.list (resolved.map Bail.dropped)) fields)

/-- **Compiling phase by phase.** Nothing else is edited. -/
theorem compile_ok (htext : Job.TextNames table job) (hun : job.Unmarked)
    (h : exec (Job.compile table job) r = (.ok (job', edits), r')) :
    edits = [] ∧ ∃ g ids outs blocks resolved,
      Compiled table job job' g ids outs blocks resolved := by
  rw [exec_compile] at h
  cases hof : Graph.ofJob table job with
  | error e => rw [hof] at h; cases h
  | ok made =>
    obtain ⟨hbuilt, hmade, hrec, hrecs⟩ := Graph.built_of_ofJob htext hun hof
    obtain ⟨g, job₁, log⟩ := made
    obtain ⟨rfl, rfl⟩ := Prod.mk.inj hmade
    rw [hof] at h
    dsimp only at h hbuilt
    cases ho : g.order with
    | error e => rw [ho] at h; cases h
    | ok ids =>
      rw [ho] at h
      dsimp only at h
      rcases hj : exec (Block.join g ids) r with ⟨e | gated, r₁⟩
      · rw [hj] at h
        cases h
      · rw [hj] at h
        obtain ⟨hfinish, rfl⟩ := Prod.mk.inj h
        obtain ⟨blocks, outs, rfl, hids, hblocks⟩ := Block.joinFrom_ok hj
        have hflat : ∀ v ∈ blocks.flatten, v.IsRecord := by
          intro v hv
          obtain ⟨b, hb, hvb⟩ := List.mem_flatten.mp hv
          obtain ⟨x, hx, hof⟩ := forall₂_exists_left hblocks hb
          have hhas := ((Graph.order_ok hbuilt.wf ho).2.1 x).mp hx
          exact hof.isRecord hbuilt hhas hrecs v hvb
        rw [Job.finish] at hfinish
        cases hb : Bail.resolveAll blocks.flatten with
        | error e => rw [hb] at hfinish; cases hfinish
        | ok result =>
          obtain ⟨resolved, rfl, hres⟩ := Bail.resolveAll_ok hflat hb
          obtain ⟨fields, hplain⟩ := (Job.plain_same hrec).isRecord
          rw [hb, hplain] at hfinish
          obtain ⟨rfl, rfl⟩ := Prod.mk.inj (Except.ok.inj hfinish)
          exact ⟨rfl, g, ids, outs, blocks, resolved, ⟨_, hof⟩, hbuilt, ho,
            ⟨hrec, hrecs⟩, hids, hblocks, hflat, hres, fields, hplain, rfl⟩

end StepLoom
