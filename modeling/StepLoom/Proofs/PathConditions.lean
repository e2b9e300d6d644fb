import StepLoom.Proofs.Graph.References

/-!
# Path conditions are reachability

The graph of a job is built step by step, and conditions are attached, widened and dropped on the
way. What comes out depends on references alone.

**Theorem (`path_conditions`).** A setup is unconditional exactly when it is the checkout, is
reached from a step without paths or from the job itself, or is reached from a checkout that the job
needs. Otherwise it is conditioned on the path checks of those steps with paths that reach it, in
the order of the steps. A step is conditioned on its own path check. Jobs that ask for the same
setups, listed in any order, get the same conditions.
-/

namespace StepLoom

open Setup Relation

/-! ## Conditions from references -/

/-- The path checks of the steps with paths that reach a setup, in the order of the steps. -/
def Job.checksOfSteps (reaching : Value → Bool) (job : Value) : List String :=
  distinct (((steps job).filter fun st => Step.patterns st ≠ [] ∧ reaching st).map fun st =>
    Check.nodeId (Step.patterns st))

namespace Graph

variable {table table' job : Value} {g g' : Graph} {s : String} {sites sites' : List Site}

theorem exists_site_iff : (∃ site ∈ Job.sites job, ReachedFrom table site.names s) ↔
    Job.Reached table job s := by
  rw [Job.reached_iff]
  simp [Job.sites, or_and_right, exists_or, Step.site]

/-- Some site of a job clears a setup for one of four reasons. -/
theorem exists_frees_iff (hs : Job.Reached table job s) :
    (∃ site ∈ Job.sites job, site.Frees table s) ↔ s = checkoutSetup ∨
      (∃ st ∈ Job.steps job, Step.patterns st = [] ∧ ReachedFrom table (Step.setups st) s) ∨
      ReachedFrom table (Job.setups job) s ∨
      (Job.Reached table job checkoutSetup ∧ Reaches table checkoutSetup s) := by
  have hbehind : Job.Reached table job checkoutSetup → Reaches table checkoutSetup s →
      ∃ site ∈ Job.sites job, site.Frees table s := by
    intro hco hback
    obtain ⟨site, hmem, n, hn, hr⟩ := exists_site_iff.mpr hco
    exact ⟨site, hmem, ⟨n, hn, hr.trans hback⟩, Or.inr ⟨⟨n, hn, hr⟩, hback⟩⟩
  constructor
  · rintro ⟨site, hmem, hr, hc⟩
    rcases List.mem_append.mp hmem with hmem | hmem
    · obtain ⟨st, hst, rfl⟩ := List.mem_map.mp hmem
      rcases hc with hnil | ⟨hco, hback⟩
      · have hpat : Step.patterns st = [] := by
          by_contra hne
          simp [Step.site, Step.checks, hne] at hnil
        exact Or.inr (Or.inl ⟨st, hst, hpat, hr⟩)
      · exact Or.inr (Or.inr (Or.inr ⟨Job.reached_of_step hst hco, hback⟩))
    · obtain rfl := List.mem_singleton.mp hmem
      exact Or.inr (Or.inr (Or.inl hr))
  · rintro (rfl | ⟨st, hst, hnil, hr⟩ | hr | ⟨hco, hback⟩)
    · exact hbehind hs .refl
    · refine ⟨Step.site st, List.mem_append_left _ (List.mem_map_of_mem hst), hr, Or.inl ?_⟩
      rw [Step.site, Step.checks, if_pos hnil]
    · exact ⟨⟨[], Job.setups job⟩, by simp [Job.sites], hr, Or.inl rfl⟩
    · exact hbehind hco hback

open Classical in
theorem checksFor_sites : Site.checksFor table (Job.sites job) s =
    Job.checksOfSteps (fun st => ReachedFrom table (Step.setups st) s) job := by
  unfold Site.checksFor Job.checksOfSteps Job.sites
  congr 1
  have hown : (([⟨[], Job.setups job⟩] : List Site).filter fun site =>
      ReachedFrom table site.names s).flatMap (·.checks) = [] := by
    by_cases hr : ReachedFrom table (Job.setups job) s <;> simp [hr]
  rw [List.filter_append, List.flatMap_append, hown, List.append_nil]
  induction Job.steps job with
  | nil => rfl
  | cons st rest ih =>
    rw [List.map_cons, List.filter_cons, List.filter_cons]
    by_cases hr : ReachedFrom table (Step.setups st) s
    · by_cases hnil : Step.patterns st = []
      · simpa [Step.site, hr, hnil, Step.checks] using ih
      · simpa [Step.site, hr, hnil, Step.checks] using ih
    · simpa [Step.site, hr] using ih

/-- Sites under the same path checks that reach the same. -/
def SameSites (table table' : Value) : List Site → List Site → Prop :=
  List.Forall₂ fun a b => a.checks = b.checks ∧
    ∀ s, ReachedFrom table a.names s ↔ ReachedFrom table' b.names s

theorem SameSites.exists_iff {p q : Site → Prop} (h : SameSites table table' sites sites')
    (hpq : ∀ a b : Site, a.checks = b.checks →
      (∀ s, ReachedFrom table a.names s ↔ ReachedFrom table' b.names s) → (p a ↔ q b)) :
    (∃ a ∈ sites, p a) ↔ ∃ b ∈ sites', q b := by
  induction h with
  | nil => simp
  | cons hab _ ih =>
    simp only [List.mem_cons, exists_eq_or_imp, hpq _ _ hab.1 hab.2]
    exact or_congr_right ih

theorem SameSites.checksFor (h : SameSites table table' sites sites') :
    Site.checksFor table sites s = Site.checksFor table' sites' s := by
  unfold Site.checksFor
  congr 1
  induction h with
  | nil => rfl
  | @cons a b _ _ hab _ ih =>
    rw [List.filter_cons, List.filter_cons]
    by_cases hr : ReachedFrom table a.names s
    · rw [if_pos (by simpa using hr), if_pos (by simpa using (hab.2 s).mp hr), List.flatMap_cons,
        List.flatMap_cons, hab.1, ih]
    · rw [if_neg (by simpa using hr), if_neg (by simpa using fun hr' => hr ((hab.2 s).mpr hr')), ih]

/-- Conditions depend on what the sites reach and on nothing else. -/
theorem Conditioned.eq_of_same (h : Conditioned table sites g) (h' : Conditioned table' sites' g')
    (hsame : SameSites table table' sites sites')
    (hco : ∀ s, Reaches table checkoutSetup s ↔ Reaches table' checkoutSetup s) :
    cond g s = cond g' s := by
  have hreach : (∃ a ∈ sites, ReachedFrom table a.names s) ↔
      ∃ b ∈ sites', ReachedFrom table' b.names s := hsame.exists_iff fun a b _ hr => hr s
  have hfree : (∃ a ∈ sites, a.Frees table s) ↔ ∃ b ∈ sites', b.Frees table' s :=
    hsame.exists_iff fun a b hc hr => by
      unfold Site.Frees Clears
      rw [hc, hr, hr, hco]
  by_cases hr : ∃ a ∈ sites, ReachedFrom table a.names s
  · by_cases hf : ∃ a ∈ sites, a.Frees table s
    · rw [h.freed hf, h'.freed (hfree.mp hf)]
    · have hf' := fun hf' => hf (hfree.mpr hf')
      rw [h.conditional hr fun a ha hfa => hf ⟨a, ha, hfa⟩,
        h'.conditional (hreach.mp hr) fun b hb hfb => hf' ⟨b, hb, hfb⟩, hsame.checksFor]
  · have hr' := fun hr' => hr (hreach.mpr hr')
    rw [h.absent fun a ha hra => hr ⟨a, ha, hra⟩, h'.absent fun b hb hrb => hr' ⟨b, hb, hrb⟩]

end Graph

/-! ## The same references in another order -/

/-- Two jobs with their tables ask for the same: their steps have the same patterns one by one, and
steps, jobs and setups name the same setups, whatever the order. -/
structure Job.SameReferences (table job table' job' : Value) : Prop where
  steps : List.Forall₂ (fun st st' => Step.patterns st = Step.patterns st' ∧
    ∀ n, n ∈ Step.setups st ↔ n ∈ Step.setups st') (Job.steps job) (Job.steps job')
  job : ∀ n, n ∈ Job.setups job ↔ n ∈ Job.setups job'
  needs : ∀ s t, t ∈ needs table s ↔ t ∈ needs table' s

theorem Job.SameReferences.reaches {table job table' job' : Value}
    (h : SameReferences table job table' job') (a b : String) :
    Reaches table a b ↔ Reaches table' a b := by
  have hrel : (fun a b => b ∈ Setup.needs table a) = fun a b => b ∈ Setup.needs table' a := by
    funext a b
    exact propext (h.needs a b)
  rw [Reaches, hrel, Reaches]

theorem Job.SameReferences.sites {table job table' job' : Value}
    (h : SameReferences table job table' job') :
    Graph.SameSites table table' (Job.sites job) (Job.sites job') := by
  have hfrom : ∀ {names names' : List String}, (∀ n, n ∈ names ↔ n ∈ names') →
      ∀ s, ReachedFrom table names s ↔ ReachedFrom table' names' s := by
    intro names names' hn s
    unfold ReachedFrom
    simp only [hn, h.reaches]
  refine List.rel_append ?_ (.cons ⟨rfl, hfrom h.job⟩ .nil)
  rw [List.forall₂_map_left_iff, List.forall₂_map_right_iff]
  refine h.steps.imp fun st st' hst => ⟨?_, hfrom hst.2⟩
  simp only [Step.site, Step.checks, hst.1]

theorem Job.SameReferences.reached {table job table' job' : Value} {s : String}
    (h : SameReferences table job table' job') : Reached table job s ↔ Reached table' job' s := by
  rw [← Graph.exists_site_iff, ← Graph.exists_site_iff]
  exact h.sites.exists_iff fun _ _ _ hr => hr s

/-! ## The graph of a job -/

namespace Graph

theorem cond_of_find? {g : Graph} {s : String} {n : Node} (h : g.find? (setupId s) = some n) :
    cond g s = some n.pathDeps := by
  rw [cond, look, h]
  rfl

end Graph

open Classical StepLoom.Graph in
/-- **The conditions in the graph of a job, from references alone.** -/
theorem path_conditions {table job : Value} (htext : Job.TextNames table job) (hun : job.Unmarked)
    {r : Graph × Value × List Edit} (hr : Graph.ofJob table job = .ok r)
    (hac : ∀ s, Job.Reached table job s → ∀ t ∈ needs table s, ¬ Reaches table t s) :
    (∀ s, r.1.has (setupId s) ↔ Job.Reached table job s) ∧
    (∀ s n, r.1.find? (setupId s) = some n →
      (n.pathDeps = none ↔ s = checkoutSetup ∨
        (∃ st ∈ Job.steps job, Step.patterns st = [] ∧ ReachedFrom table (Step.setups st) s) ∨
        ReachedFrom table (Job.setups job) s ∨
        (Job.Reached table job checkoutSetup ∧ Reaches table checkoutSetup s)) ∧
      (n.pathDeps ≠ none → n.pathDeps =
        some (Job.checksOfSteps (fun st => ReachedFrom table (Step.setups st) s) job))) ∧
    (∀ i st, (Job.steps job)[i]? = some st → ∃ n, r.1.find? (stepId i) = some n ∧
      n.pathDeps = if Step.patterns st = [] then none
        else some [Check.nodeId (Step.patterns st)]) ∧
    (∀ table' job' r', Job.TextNames table' job' → job'.Unmarked →
      Graph.ofJob table' job' = .ok r' → Job.SameReferences table job table' job' →
      ∀ s n n', r.1.find? (setupId s) = some n → r'.1.find? (setupId s) = some n' →
        n.pathDeps = n'.pathDeps) := by
  obtain ⟨hb, -⟩ := built_of_ofJob htext hun hr
  have hc := hb.conditioned hac
  refine ⟨fun s => hb.has_setup, fun s n hn => ?_, fun i st hi => ?_, ?_⟩
  · have hreached : Job.Reached table job s := hb.has_setup.mp (has_iff.mpr ⟨n, hn⟩)
    have hcond := cond_of_find? hn
    rw [← exists_frees_iff hreached]
    by_cases hfree : ∃ site ∈ Job.sites job, site.Frees table s
    · obtain hnone : n.pathDeps = none := Option.some.inj (hcond.symm.trans (hc.freed hfree))
      exact ⟨iff_of_true hnone hfree, fun hne => absurd hnone hne⟩
    · have hsome := hc.conditional (exists_site_iff.mpr hreached)
        fun site hm hf => hfree ⟨site, hm, hf⟩
      rw [checksFor_sites] at hsome
      have hdeps := Option.some.inj (hcond.symm.trans hsome)
      exact ⟨iff_of_false (by simp [hdeps]) hfree, fun _ => hdeps⟩
  · obtain ⟨n, hn, -, -, hd, -⟩ := hb.step hi
    obtain ⟨m, hm, rfl⟩ := Option.map_eq_some_iff.mp hn
    refine ⟨m, hm, ?_⟩
    rw [show m.pathDeps = conditions (Step.checks st) from hd, Step.checks]
    split_ifs <;> rfl
  · intro table' job' r' htext' hun' hr' hsame s n n' hn hn'
    obtain ⟨hb', -⟩ := built_of_ofJob htext' hun' hr'
    have hac' : AcyclicFrom table' (Job.named job') := by
      intro s hs t ht hback
      have hneeds := (hsame.needs s t).mpr ht
      exact hac s (hsame.reached.mpr hs) t hneeds ((hsame.reaches t s).mpr hback)
    have heq := hc.eq_of_same (hb'.conditioned hac') hsame.sites (hsame.reaches checkoutSetup)
      (s := s)
    rw [cond_of_find? hn, cond_of_find? hn'] at heq
    exact Option.some.inj heq

open Classical StepLoom.Graph in
theorem path_conditions_sample : ∃ r, Graph.ofJob Job.sampleTable Job.sampleJob = .ok r ∧
    Job.TextNames Job.sampleTable Job.sampleJob ∧ Job.sampleJob.Unmarked ∧
    (∀ s, Job.Reached Job.sampleTable Job.sampleJob s → ∀ t ∈ needs Job.sampleTable s,
      ¬ Reaches Job.sampleTable t s) ∧
    ∃ n, r.1.find? (setupId "tools") = some n ∧
      n.pathDeps = some ["paths-src/*", "paths-docs/*"] ∧
      n.pathDeps = some (Job.checksOfSteps
        (fun st => ReachedFrom Job.sampleTable (Step.setups st) "tools") Job.sampleJob) := by
  have hok : (Graph.ofJob Job.sampleTable Job.sampleJob).toOption.isSome = true := by decide
  obtain ⟨r, hr⟩ : ∃ r, Graph.ofJob Job.sampleTable Job.sampleJob = .ok r := by
    cases h : Graph.ofJob Job.sampleTable Job.sampleJob with
    | ok r => exact ⟨r, rfl⟩
    | error e => simp [h, Except.toOption] at hok
  have hdeps : ((Graph.ofJob Job.sampleTable Job.sampleJob).toOption.bind
      fun r => r.1.find? (setupId "tools")).map (·.pathDeps) =
      some (some ["paths-src/*", "paths-docs/*"]) := by decide
  rw [hr] at hdeps
  obtain ⟨n, hn, hd⟩ := Option.map_eq_some_iff.mp hdeps
  have hac : ∀ s, Job.Reached Job.sampleTable Job.sampleJob s → ∀ t ∈ needs Job.sampleTable s,
      ¬ Reaches Job.sampleTable t s := fun s _ t ht => Job.sampleTable_acyclic ht
  have h := path_conditions Job.sampleJob_textNames Job.sampleJob_unmarked hr hac
  exact ⟨r, hr, Job.sampleJob_textNames, Job.sampleJob_unmarked, hac, n, hn, hd,
    (h.2.1 "tools" n hn).2 (by simp [hd])⟩

end StepLoom
