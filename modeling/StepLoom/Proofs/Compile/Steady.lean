import StepLoom.Proofs.Compile.Phases
import StepLoom.Proofs.Graph.Chain

/-!
# Compiling a steady job

A steady job has no `setup` and only steady steps. It goes through every phase of compiling as it
is: its graph is the chain of its steps, the blocks in the order of the chain are the steps again,
and no step bails.

**Theorem (`Job.exec_compile_steady`).** A steady job compiles to itself, with an empty list of
steps if it has none, and the edits write mappings back.
-/

namespace StepLoom

open Value StepLoom.Graph

variable {own : Edit → Prop} {table job v : Value} {vs : List Value} {fields : Fields}
  {log : List Edit} {g : Graph} {r : Registry}

/-! ## Blocks -/

/-- The blocks of a chain are its steps. -/
theorem Block.join_chain (h : IsChain own vs g) :
    exec (Block.join g ((List.range' 0 vs.length).map stepId)) r = (.ok vs, r) := by
  suffices hfrom : ∀ pre post, vs = pre ++ post →
      exec (joinFrom g [] ((List.range' pre.length post.length).map stepId)) r = (.ok post, r) from
    hfrom [] vs rfl
  intro pre post hvs
  induction post generalizing pre with
  | nil => rfl
  | cons v rest ih =>
    have hv : vs[pre.length]? = some v := by simp [hvs]
    obtain ⟨n, hn, hkind, hcontent, hdeps⟩ := h.node hv
    have hblock : exec (ofNode n []) r = (.ok ([v], []), r) := by
      rw [exec_ofNode_step hkind, hdeps, hcontent]
      rfl
    have hrest := ih (pre ++ [v]) (by simp [hvs])
    rw [List.length_append, List.length_singleton] at hrest
    rw [List.length_cons, List.range'_succ, List.map_cons, joinFrom, hn]
    dsimp only
    rw [exec_bind_ok hblock]
    dsimp only
    rw [exec_bind_ok hrest]
    rfl

/-! ## Bail conditions -/

namespace Bail

theorem positionsFrom_steady {i : Nat} (h : ∀ v ∈ vs, Step.Steady own v) :
    positionsFrom i vs = .ok [] := by
  induction vs generalizing i with
  | nil => rfl
  | cons v rest ih =>
    obtain ⟨⟨fields, hopens, hbail, -⟩, hrest⟩ := List.forall_mem_cons.mp h
    rw [positionsFrom, hopens.field?, hbail, ih hrest]
    rfl

theorem replay_steady {edits : List Edit} (h : ∀ v ∈ vs, Step.Steady own v)
    (he : ∀ e ∈ edits, own e) : replay edits vs = vs :=
  (List.map_congr_left fun v hv => (h v hv).stays.applyAll he).trans (List.map_id _)

theorem dropFrom_steady (log : List Edit) (h : ∀ v ∈ vs, Step.Steady own v)
    {count position : Nat} (hlen : position + count = vs.length) : ∃ edits, (∀ e ∈ edits, own e) ∧
      dropFrom count position vs log = .ok (vs, log ++ edits) := by
  induction count generalizing position log with
  | zero => exact ⟨[], by simp, by rw [dropFrom, List.append_nil]⟩
  | succ count ih =>
    have hlt : position < vs.length := by omega
    obtain ⟨fields, hopens, hbail, -⟩ := h _ (List.getElem_mem hlt)
    have hset : vs.set position vs[position] = vs := List.set_getElem_self hlt
    have hreplay := replay_steady h hopens.edits
    have hnext : position + 1 + count = vs.length := by omega
    obtain ⟨more, hmore, hdrop⟩ := ih (log ++ (vs[position].withFields fields).2) hnext
    refine ⟨_ ++ more, List.forall_mem_append.mpr ⟨hopens.edits, hmore⟩, ?_⟩
    rw [dropFrom, List.getElem?_eq_getElem hlt]
    dsimp only
    rw [hopens.fieldsOf]
    change dropFrom count (position + 1) (replay (vs[position].withFields
      (Fields.erase "bail_if" fields)).2 (vs.set position (vs[position].withFields
      (Fields.erase "bail_if" fields)).1)) (log ++ (vs[position].withFields
      (Fields.erase "bail_if" fields)).2) = _
    rw [Fields.erase_of_get?_none hbail, hopens.itself, hset, hreplay, hdrop, List.append_assoc]

/-- **No step bails**, and all steps stay as they are. -/
theorem resolveAll_steady (h : ∀ v ∈ vs, Step.Steady own v) : ∃ edits, (∀ e ∈ edits, own e) ∧
    resolveAll vs = .ok (vs, edits) := by
  obtain ⟨edits, hedits, hdrop⟩ := dropFrom_steady [] h (Nat.zero_add vs.length)
  refine ⟨edits, hedits, ?_⟩
  rw [resolveAll, positionsFrom_steady h]
  exact hdrop

end Bail

/-! ## Jobs -/

namespace Job

/-- The job has no `setup`, and either a list of steady steps, or no steps and a place of its
own. -/
def Steady (own : Edit → Prop) (job : Value) : Prop :=
  ∃ fields, Opens own job fields ∧ Fields.get? "setup" fields = none ∧
    (Fields.get? "steps" fields = none ∧ job = .record fields ∨
      ∃ vs, Fields.get? "steps" fields = some (.list vs) ∧ ∀ v ∈ vs, Step.Steady own v)

/-- The job, with an empty list of steps if it has no steps. -/
def withSteps (job : Value) : Value :=
  match job.part "steps" with
  | some _ => job
  | none => .record (Fields.put "steps" (.list []) (job.fields?.getD []))

/-- The steps that a job lists in its fields. -/
def listedSteps (fields : Fields) : List Value :=
  match Fields.get? "steps" fields with
  | some (.list vs) => vs
  | _ => []

theorem Steady.stays (h : Steady own job) : job.Stays own := by
  obtain ⟨fields, hopens, -⟩ := h
  exact hopens.stays

/-- Writing the steps into a steady job. -/
theorem Steady.withFields (h : Steady own job) : ∃ fields, Opens own job fields ∧
    Fields.get? "setup" fields = none ∧ (∀ v ∈ listedSteps fields, Step.Steady own v) ∧
    (withSteps job).Stays own ∧ ∃ edits, (∀ e ∈ edits, own e) ∧
      job.withFields (Fields.put "steps" (.list (listedSteps fields)) fields) =
        (withSteps job, edits) := by
  obtain ⟨fields, hopens, hsetup, ⟨hnone, rfl⟩ | ⟨vs, hlist, hvs⟩⟩ := h
  · have hsteps : withSteps (.record fields) = .record (Fields.put "steps" (.list []) fields) := by
      rw [withSteps, hopens.part, hnone, hopens.reads]
      rfl
    refine ⟨fields, hopens, hsetup, by simp [listedSteps, hnone], ?_, [], by simp, ?_⟩
    · rw [hsteps]
      exact hopens.stays.put fun e _ => rfl
    · rw [hsteps, listedSteps, hnone]
      rfl
  · have hsteps : withSteps job = job := by rw [withSteps, hopens.part, hlist]
    refine ⟨fields, hopens, hsetup, by simpa [listedSteps, hlist] using hvs, ?_,
      _, hopens.edits, ?_⟩
    · rw [hsteps]
      exact hopens.stays
    · rw [listedSteps, hlist]
      dsimp only
      rw [Fields.put_of_get? hlist, hsteps]
      exact Prod.ext hopens.itself rfl

/-- The steps from which the graph of a steady job is built. -/
theorem Steady.source (h : Steady own job) (hopens : Opens own job fields) :
    Fields.get? "setup" fields = none ∧ (∀ v ∈ listedSteps fields, Step.Steady own v) ∧
      ((given? (Fields.get? "steps" fields) = none ∧ listedSteps fields = []) ∨
        (Fields.get? "steps" fields = some (.list (listedSteps fields)) ∧
          given? (Fields.get? "steps" fields) = some (.list (listedSteps fields)))) := by
  obtain ⟨fs, hopens', hsetup, hsteps⟩ := h
  obtain rfl : fields = fs := Option.some.inj (hopens.reads.symm.trans hopens'.reads)
  refine ⟨hsetup, ?_⟩
  rcases hsteps with ⟨hnone, -⟩ | ⟨vs, hlist, hvs⟩
  · simp [listedSteps, hnone, given?]
  · cases vs with
    | nil => simp [listedSteps, hlist, given?, isBlank]
    | cons v rest => simpa [listedSteps, hlist, given?, isBlank] using hvs

/-- **The graph of a steady job** is the chain of its steps. -/
theorem ofJob_steady (table : Value) (h : Steady own job) (hopens : Opens own job fields) :
    ∃ g edits, (∀ e ∈ edits, own e) ∧ Graph.ofJob table job = .ok (g, job, edits) ∧
      IsChain own (listedSteps fields) g := by
  suffices hadd : ∃ g edits, (∀ e ∈ edits, own e) ∧
      exec (addJob table job) {} = (.ok (job, edits), g) ∧ IsChain own (listedSteps fields) g by
    obtain ⟨g, edits, hedits, hadd, hchain⟩ := hadd
    refine ⟨g, edits, hedits, ?_, hchain⟩
    rw [Graph.ofJob, show (addJob table job).run.run {} = _ from hadd]
  obtain ⟨hsetup, hvs, hsource⟩ := h.source hopens
  have hgone := Fields.erase_of_get?_none hsetup
  obtain ⟨last, hwith⟩ : ∃ last, job.withFields fields = (job, last) :=
    ⟨_, Prod.ext hopens.itself rfl⟩
  have hlast : ∀ e ∈ last, own e := fun e he => hopens.edits e (by rwa [hwith])
  rw [addJob, hopens.field?, exec_bind_ok (exec_liftM_ok _)]
  rcases hsource with ⟨hnone, hnil⟩ | ⟨hlist, hsome⟩
  · rw [hnil]
    refine ⟨{}, last, hlast, ?_, isChain_empty own⟩
    rw [hnone]
    dsimp only
    rw [exec_bind_ok (exec_pure _)]
    dsimp only
    rw [applyAll_nil, hopens.fieldsOf, exec_bind_ok (exec_liftM_ok _)]
    simp only [Option.isSome_none, Bool.false_eq_true, if_false, hgone, hwith, hsetup]
    rw [exec_bind_ok ((isChain_empty own).steady.replay hlast)]
    rfl
  · obtain ⟨edits, g, hedits, hsteps, hchain⟩ :=
      exec_addSteps table (isChain_empty own) (List.forall_mem_nil own) hvs
    rw [List.nil_append] at hchain
    rw [List.length_nil] at hsteps
    refine ⟨g, edits ++ last, List.forall_mem_append.mpr ⟨hedits, hlast⟩, ?_, hchain⟩
    rw [hsome]
    dsimp only
    rw [show (Value.list (listedSteps fields)).members = .ok (listedSteps fields) from rfl]
    rw [exec_bind_ok (exec_liftM_ok _), exec_bind_ok hsteps]
    dsimp only
    rw [hopens.stays.applyAll hedits, hopens.fieldsOf, exec_bind_ok (exec_liftM_ok _)]
    simp only [Option.isSome_some, if_true, hgone, Fields.put_of_get? hlist, hwith, hsetup]
    rw [exec_bind_ok (hchain.steady.replay hlast)]
    rw [exec_bind_ok (show exec (awaitSetups _ _ none []) _ = (.ok (), _) from rfl)]
    rw [exec_bind_ok hchain.awaitCheckout]
    rfl

/-- **A steady job compiles to itself**, with an empty list of steps if it has none. -/
theorem exec_compile_steady (table : Value) (r : Registry) (h : Steady own job) :
    ∃ edits, (∀ e ∈ edits, own e) ∧
      exec (compile table job) r = (.ok (withSteps job, edits), r) := by
  obtain ⟨fields, hopens, -, hvs, -, last, hlast, hwith⟩ := h.withFields
  obtain ⟨g, log, hlog, hof, hchain⟩ := ofJob_steady table h hopens
  obtain ⟨edits, hedits, hresolve⟩ := Bail.resolveAll_steady hvs
  refine ⟨log ++ edits ++ last, List.forall_mem_append.mpr
    ⟨List.forall_mem_append.mpr ⟨hlog, hedits⟩, hlast⟩, ?_⟩
  have hfinish : finish job log (listedSteps fields) =
      .ok (withSteps job, log ++ edits ++ last) := by
    rw [finish, hresolve]
    simp only [bind, Except.bind, hopens.stays.applyAll hedits, hopens.fieldsOf, hwith]
    rfl
  rw [exec_compile, hof]
  dsimp only
  rw [hchain.order]
  dsimp only
  rw [Block.join_chain hchain]
  dsimp only
  rw [hfinish]

end Job

end StepLoom
