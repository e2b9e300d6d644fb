import StepLoom.Proofs.Graph.Built

/-!
# Conditions and ties of a whole job

A job refers to setups at several sites: in each step, under the path check of the step, and in its
own `setup` field, under none. This file adds up what the visits of all sites do.

**Theorem (`Built.conditioned`).** If nothing that is reached needs itself, a setup is unconditional
when some site clears it, and otherwise conditioned on the path checks of the sites that reach it,
in the order of the sites.

**Theorem (`Built.met`).** The setups that wait for a path check are those that were first met on a
walk under path checks, except the checkout.
-/

namespace StepLoom

open Setup

/-- A place where setups are named, with the path checks that it stands under. -/
structure Site where
  checks : List String
  names : List String

/-- The site in a step. -/
def Step.site (step : Value) : Site := ⟨Step.checks step, Step.setups step⟩

/-- The sites of a job in order. -/
def Job.sites (job : Value) : List Site := (Job.steps job).map Step.site ++ [⟨[], Job.setups job⟩]

/-- The walks that start at some steps, counted from the `i`-th. -/
def Walk.fromSteps : (i : Nat) → List Value → List Walk
  | _, [] => []
  | i, step :: rest => Walk.each (some i) [] (Step.setups step) ++ fromSteps (i + 1) rest

/-- The walks that start in a job, in order. -/
def Job.walks (job : Value) : List Walk :=
  Walk.fromSteps 0 (Job.steps job) ++ Walk.each none [] (Job.setups job)

/-- The walk starts at a step with patterns. -/
def Job.HasPaths (job : Value) (start : Option Nat) : Prop :=
  ∃ i step, start = some i ∧ (Job.steps job)[i]? = some step ∧ Step.patterns step ≠ []

namespace Site

/-- The site takes the conditions of the setup away. -/
def Frees (table : Value) (s : String) (site : Site) : Prop :=
  ReachedFrom table site.names s ∧ Graph.Clears table site.checks site.names s

open Classical in
/-- The path checks of the sites that reach a setup. -/
noncomputable def checksFor (table : Value) (sites : List Site) (s : String) : List String :=
  distinct ((sites.filter fun site => ReachedFrom table site.names s).flatMap (·.checks))

end Site

namespace Graph

open Relation

variable {table job step : Value} {g g' : Graph} {i : Nat} {s : String} {sites : List Site}
  {site : Site}

/-! ## Conditions -/

/-- The conditions are what some sites make of them. -/
structure Conditioned (table : Value) (sites : List Site) (g : Graph) : Prop where
  absent : ∀ {s}, (∀ site ∈ sites, ¬ ReachedFrom table site.names s) → cond g s = none
  freed : ∀ {s}, (∃ site ∈ sites, site.Frees table s) → cond g s = some none
  conditional : ∀ {s}, (∃ site ∈ sites, ReachedFrom table site.names s) →
    (∀ site ∈ sites, ¬ site.Frees table s) → cond g s = some (some (Site.checksFor table sites s))

theorem addAll_append (xs ys zs : List String) : addAll xs (ys ++ zs) = addAll (addAll xs ys) zs :=
  List.foldl_append

theorem checksFor_append_of_reached (h : ReachedFrom table site.names s) :
    Site.checksFor table (sites ++ [site]) s =
      addAll (Site.checksFor table sites s) site.checks := by
  unfold Site.checksFor
  rw [List.filter_append, List.flatMap_append, distinct_eq_addAll, addAll_append]
  simp [h, distinct_eq_addAll]

theorem checksFor_append_of_not_reached (h : ¬ ReachedFrom table site.names s) :
    Site.checksFor table (sites ++ [site]) s = Site.checksFor table sites s := by
  unfold Site.checksFor
  rw [List.filter_append, List.flatMap_append]
  simp [h]

/-- Without sites there are no setups. -/
theorem conditioned_empty : Conditioned table [] {} where
  absent _ := rfl
  freed h := by simp at h
  conditional h := by simp at h

/-- **One more site widens the conditions once more.** -/
theorem Conditioned.snoc (h : Conditioned table sites g)
    (hw : Widens table site.checks site.names g g') : Conditioned table (sites ++ [site]) g' where
  absent {s} hs := by
    rw [hw.others (hs site (by simp))]
    exact h.absent fun other ho => hs other (List.mem_append_left _ ho)
  freed {s} hs := by
    obtain ⟨other, ho, hfree⟩ := hs
    rcases List.mem_append.mp ho with ho | ho
    · have hold := h.freed ⟨other, ho, hfree⟩
      by_cases hr : ReachedFrom table site.names s
      · by_cases hc : Clears table site.checks site.names s
        · exact hw.cleared hr hc
        · rw [hw.widened hr hc, hold]
          rfl
      · rw [hw.others hr, hold]
    · obtain rfl := List.mem_singleton.mp ho
      exact hw.cleared hfree.1 hfree.2
  conditional {s} hs hfree := by
    have hfree' : ∀ other ∈ sites, ¬ other.Frees table s :=
      fun other ho => hfree other (List.mem_append_left _ ho)
    by_cases hr : ReachedFrom table site.names s
    · have hc : ¬ Clears table site.checks site.names s := fun hc => hfree site (by simp) ⟨hr, hc⟩
      rw [hw.widened hr hc, checksFor_append_of_reached hr]
      by_cases hold : ∃ other ∈ sites, ReachedFrom table other.names s
      · rw [h.conditional hold hfree']
        rfl
      · have hnone : Site.checksFor table sites s = [] := by
          unfold Site.checksFor
          rw [List.filter_eq_nil_iff.mpr]
          · rfl
          · intro other ho
            simpa using fun hr' => hold ⟨other, ho, hr'⟩
        rw [h.absent fun other ho hr' => hold ⟨other, ho, hr'⟩, hnone]
        rfl
    · rw [hw.others hr, checksFor_append_of_not_reached hr]
      refine h.conditional ?_ hfree'
      obtain ⟨other, ho, hr'⟩ := hs
      rcases List.mem_append.mp ho with ho | ho
      · exact ⟨other, ho, hr'⟩
      · obtain rfl := List.mem_singleton.mp ho
        exact absurd hr' hr

/-- Once the checkout is there, it and all that it reaches are unconditional. -/
theorem Conditioned.checkout (h : Conditioned table sites g) (hg : g.has checkoutId)
    (hs : Reaches table checkoutSetup s) : cond g s = some none := by
  by_contra hne
  have hreached : ∀ site ∈ sites, ¬ ReachedFrom table site.names checkoutSetup := by
    intro site hsite hr
    obtain ⟨n, hn, hco⟩ := hr
    exact hne (h.freed ⟨site, hsite, ⟨n, hn, hco.trans hs⟩, Or.inr ⟨⟨n, hn, hco⟩, hs⟩⟩)
  have hnone := h.absent hreached
  rw [cond, Option.map_eq_none_iff] at hnone
  obtain ⟨n, hn⟩ := has_iff_look.mp hg
  cases hnone.symm.trans hn

theorem cond_congr (h : g'.look (setupId s) = g.look (setupId s)) : cond g' s = cond g s := by
  rw [cond, h, cond]

theorem has_congr {x : String} (h : g'.look x = g.look x) : g'.has x ↔ g.has x := by
  rw [has_iff_look, has_iff_look, h]

/-- Adding a step widens the conditions of what it names. -/
theorem StepAdded.widens (h : StepAdded table i step g g') (hg : HasSteps table i g)
    (ht : Tidy table (Step.checks step) (Step.setups step) g) :
    Widens table (Step.checks step) (Step.setups step) g g' := by
  obtain ⟨v, w, g₁, hv, rfl⟩ := h
  have hstart : ∀ s, cond (g.withStep i step v w) s = cond g s :=
    fun s => cond_congr (look_setup_withStep hg s)
  have hend : ∀ s, cond ((g₁.setContent (stepId i) (Step.plain step)).linkPrior i) s = cond g₁ s :=
    fun s => cond_congr (look_setup_finish s)
  have ht' : Tidy table (Step.checks step) (Step.setups step) (g.withStep i step v w) := by
    refine ⟨ht.acyclic, fun _ hs => allResolved_withStep hg _ hs, fun hne hco s hs => ?_⟩
    rw [hstart]
    exact ht.checkout hne ((has_congr (look_setup_withStep hg checkoutSetup)).mp hco) s hs
  have hw := hv.widens (ready_withStep hg.sound hg.new) ht'
  refine ⟨fun hs hc => ?_, fun hs hc => ?_, fun hs => ?_⟩
  · rw [hend, hw.cleared hs hc]
  · rw [hend, hw.widened hs hc, hstart]
  · rw [hend, hw.others hs, hstart]

/-- Nothing that the names reach needs itself. -/
def AcyclicFrom (table : Value) (names : List String) : Prop :=
  ∀ s, ReachedFrom table names s → ∀ t ∈ needs table s, ¬ Reaches table t s

/-- Names may be visited in a graph that other sites have made. -/
theorem Conditioned.tidy {ids names : List String} (h : Conditioned table sites g)
    (hres : AllResolved table g) (hac : AcyclicFrom table names) : Tidy table ids names g where
  acyclic hs := hac _ hs
  resolved _ := hres _
  checkout _ hco _ hs := h.checkout hco hs

theorem StepsAdded.conditioned {steps : List Value} (h : StepsAdded table i steps g g')
    (hg : HasSteps table i g) (hc : Conditioned table sites g)
    (hac : ∀ step ∈ steps, AcyclicFrom table (Step.setups step)) :
    Conditioned table (sites ++ steps.map Step.site) g' := by
  induction h generalizing sites with
  | nil => simpa using hc
  | @cons i step rest g g₁ g₂ h _ ih =>
    have hw : Widens table (Step.site step).checks (Step.site step).names g g₁ :=
      h.widens hg (hc.tidy hg.resolved (hac step (by simp)))
    have := ih (h.hasSteps hg) (hc.snoc hw) fun s hs => hac s (List.mem_cons_of_mem _ hs)
    rwa [List.map_cons, List.append_cons]

/-- **The conditions of a job's setups.** -/
theorem Built.conditioned (h : Built table job g) (hac : AcyclicFrom table (Job.named job)) :
    Conditioned table (Job.sites job) g := by
  obtain ⟨g₁, hcol, hlook⟩ := h.look_setup
  have hcond : ∀ s, cond g s = cond g₁ s := fun s => cond_congr (hlook s)
  obtain ⟨g₀, hs, hv⟩ := hcol
  have h₀ : Conditioned table ((Job.steps job).map Step.site) g₀ :=
    hs.conditioned hasSteps_empty conditioned_empty fun step hstep s hr =>
      hac s (Job.reached_of_step hstep hr)
  have hac' : AcyclicFrom table (Job.setups job) := fun s hr => hac s (Job.reached_of_setups hr)
  have hw : Widens table (Site.mk [] (Job.setups job)).checks _ g₀ g₁ := hv.widens hs.ready
    (h₀.tidy (hs.hasSteps hasSteps_empty).resolved hac')
  have hall := h₀.snoc hw
  exact ⟨fun hs => by rw [hcond]; exact hall.absent hs,
    fun hs => by rw [hcond]; exact hall.freed hs,
    fun hs hf => by rw [hcond]; exact hall.conditional hs hf⟩

/-! ## Ties -/

theorem Met.congr {hasPaths : Option Nat → Prop} {met : List Walk} (h : Met hasPaths met g)
    (hlook : ∀ s, g'.look (setupId s) = g.look (setupId s)) : Met hasPaths met g' where
  has s := by rw [has_congr (hlook s), h.has]
  tied w hw := by
    rw [← h.tied w hw]
    unfold Tied
    simp only [waits_iff_look, hlook]

theorem StepAdded.meets (h : StepAdded table i step g g') (hg : HasSteps table i g)
    {hasPaths : Option Nat → Prop} {met : List Walk} (hm : Met hasPaths met g)
    (hp : hasPaths (some i) ↔ Step.patterns step ≠ []) :
    Met hasPaths (Walk.firstMet table met (Walk.each (some i) [] (Step.setups step))) g' := by
  obtain ⟨v, w, g₁, hv, rfl⟩ := h
  have hids : Step.checks step ≠ [] ↔ hasPaths (some i) ∧ checkoutSetup ∉ ([] : List String) := by
    rw [hp, Step.checks]
    split_ifs with hnil <;> simp [hnil]
  exact (hv.meets (ready_withStep hg.sound hg.new) (hm.congr (look_setup_withStep hg)) hids).congr
    look_setup_finish

theorem StepsAdded.meets {steps : List Value} (h : StepsAdded table i steps g g')
    (hg : HasSteps table i g) {hasPaths : Option Nat → Prop} {met : List Walk}
    (hm : Met hasPaths met g) (hp : ∀ j step, steps[j]? = some step →
      (hasPaths (some (i + j)) ↔ Step.patterns step ≠ [])) :
    Met hasPaths (Walk.firstMet table met (Walk.fromSteps i steps)) g' := by
  induction h generalizing met with
  | nil => rwa [Walk.fromSteps, Walk.firstMet_nil]
  | @cons i step rest g g₁ g₂ h _ ih =>
    rw [Walk.fromSteps, Walk.firstMet_append]
    refine ih (h.hasSteps hg) (h.meets hg hm (hp 0 step rfl)) fun j st hj => ?_
    rw [show i + 1 + j = i + (j + 1) by omega]
    exact hp (j + 1) st hj

theorem hasPaths_iff {st : Value} (hi : (Job.steps job)[i]? = some st) :
    Job.HasPaths job (some i) ↔ Step.patterns st ≠ [] := by
  constructor
  · rintro ⟨j, other, hj, hother, hne⟩
    obtain rfl := Option.some.inj hj
    rwa [Option.some.inj (hi.symm.trans hother)]
  · exact fun hne => ⟨i, st, rfl, hi, hne⟩

/-- **The ties of a job's setups.** -/
theorem Built.met (h : Built table job g) :
    Met (Job.HasPaths job) (Walk.firstMet table [] (Job.walks job)) g := by
  obtain ⟨g₁, hcol, hlook⟩ := h.look_setup
  refine Met.congr ?_ hlook
  obtain ⟨g₀, hs, hv⟩ := hcol
  have hempty : Met (Job.HasPaths job) [] {} := ⟨fun s => by simp [has, find?, Walk.ends], by simp⟩
  have h₀ := hs.meets hasSteps_empty hempty fun j st hj => by
    rw [Nat.zero_add]
    exact hasPaths_iff hj
  rw [Job.walks, Walk.firstMet_append]
  refine hv.meets hs.ready h₀ ?_
  simp [Job.HasPaths]

end Graph

end StepLoom
