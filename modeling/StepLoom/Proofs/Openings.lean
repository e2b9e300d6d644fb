import StepLoom.Proofs.Compile.Woven
import StepLoom.Proofs.PathConditions

/-!
# No step without its setups

The compiler puts a gate on each step: the condition on the path checks of its node, and the negated
bail conditions of all earlier steps. A slot is `Open` if its gate lets it run, whatever `if` the
step was written with.

**Theorem (`opens_setups`).** Whenever a step of the job is open, so is the first step of every
setup that it needs, directly or through others, and of every setup that the job itself needs.
-/

namespace StepLoom

open Setup Relation
open StepLoom.Graph (stepId setupId)

/-- Where the block of a label begins, among the steps of all blocks. -/
def Block.place (blocks : List (String × List Slot)) (x : String) : Nat :=
  ((blocks.take ((blocks.map Prod.fst).idxOf x)).flatMap Prod.snd).length

namespace Slot

variable (changed : String → Bool) (bails : Nat → Bool) (checkId : String → String)

/-- Some path check that the slot is conditioned on found a change. -/
def Met (s : Slot) : Prop := ∀ l, s.checks = some l → ∃ x ∈ l, changed (checkId x) = true

/-- The gate of the `k`-th slot lets it run, for these outputs of path checks and these outcomes of
the bail conditions of slots. -/
def Open (slots : List Slot) (k : Nat) (s : Slot) : Prop :=
  s.Met changed checkId ∧ ∀ j < k, ∀ e, slots[j]? = some e → e.bail? ≠ none → bails j = false

end Slot

variable {table job job' step : Value} {g : Graph} {r r' : Registry} {edits : List Edit}
  {blocks : List (String × List Slot)} {checkId : String → String} {x y t : String} {c : List Slot}
  {s first : Slot} {i k : Nat} {slots : List Slot} {changed : String → Bool} {bails : Nat → Bool}

/-! ## Positions -/

theorem Block.place_mono (h : Before (blocks.map Prod.fst) x y) :
    place blocks x ≤ place blocks y := by
  have hprefix : blocks.take _ <+: blocks.take _ := List.take_prefix_take_left h.2.le
  obtain ⟨rest, hrest⟩ := hprefix
  rw [place, place, ← hrest, List.flatMap_append, List.length_append]
  exact Nat.le_add_right _ _

/-- The first step of a block stands where the block begins. -/
theorem Block.getElem?_place (hnd : (blocks.map Prod.fst).Nodup) (h : (x, c) ∈ blocks)
    (hc : c.head? = some first) : (blocks.flatMap Prod.snd)[place blocks x]? = some first := by
  obtain ⟨pre, post, rfl⟩ := List.append_of_mem h
  have hpre : x ∉ pre.map Prod.fst := by
    rw [List.map_append, List.map_cons, List.nodup_append] at hnd
    exact fun hx => hnd.2.2 x hx x (by simp) rfl
  have hidx : ((pre ++ (x, c) :: post).map Prod.fst).idxOf x = pre.length := by
    rw [List.map_append, List.map_cons, List.idxOf_append_of_notMem hpre, List.idxOf_cons_self,
      List.length_map, Nat.add_zero]
  obtain ⟨rest, rfl⟩ := List.head?_eq_some_iff.mp hc
  rw [place, hidx, List.take_left, List.flatMap_append, List.flatMap_cons]
  simp

/-! ## Openness -/

/-- A slot under fewer path checks and bail conditions is open as well. -/
theorem Slot.Open.mono (h : Slot.Open changed bails checkId slots k s) (hi : i ≤ k)
    (hmet : s.Met changed checkId → first.Met changed checkId) :
    Slot.Open changed bails checkId slots i first :=
  ⟨hmet h.1, fun j hj => h.2 j (Nat.lt_of_lt_of_le hj hi)⟩

namespace Graph

variable {st : Value} {n m : Node}

/-- Nothing that a job reaches needs itself if its graph can be put in order. -/
theorem Built.acyclicFrom (h : Built table job g) {ids : List String} (ho : g.order = .ok ids) :
    AcyclicFrom table (Job.named job) := by
  intro a ha b hb hback
  obtain ⟨hnd, hmem, hord⟩ := order_ok h.wf ho
  have hloop := h.waits_of_transGen ha (TransGen.head' hb hback)
  exact hord.acyclic hnd ((hmem _).mpr (h.has_setup.mpr ha)) hloop

theorem Conditioned.freed_deps (h : Conditioned table (Job.sites job) g)
    (hf : ∃ site ∈ Job.sites job, site.Frees table t) (hm : g.find? (setupId t) = some m) :
    m.pathDeps = none :=
  Option.some.inj ((cond_of_find? hm).symm.trans (h.freed hf))

/-- A setup that is reached from a step is unconditional, or the step is under a path check that is
among its conditions. -/
theorem Conditioned.of_step (h : Conditioned table (Job.sites job) g) (hst : st ∈ Job.steps job)
    (hr : ReachedFrom table (Step.setups st) t) (hm : g.find? (setupId t) = some m) :
    m.pathDeps = none ∨ ∃ l, m.pathDeps = some l ∧ ∃ x ∈ l, Step.checks st = [x] := by
  have hsite : Step.site st ∈ Job.sites job := List.mem_append_left _ (List.mem_map_of_mem hst)
  by_cases hf : ∃ site ∈ Job.sites job, site.Frees table t
  · exact Or.inl (h.freed_deps hf hm)
  · right
    have hdeps := Option.some.inj ((cond_of_find? hm).symm.trans
      (h.conditional ⟨_, hsite, hr⟩ fun site hmem hfree => hf ⟨site, hmem, hfree⟩))
    have hne : Step.patterns st ≠ [] := by
      intro hnil
      exact hf ⟨_, hsite, hr, Or.inl (by rw [Step.site, Step.checks, if_pos hnil])⟩
    have hchecks : Step.checks st = [Check.nodeId (Step.patterns st)] := if_neg hne
    refine ⟨_, hdeps, _, ?_, hchecks⟩
    unfold Site.checksFor
    rw [distinct_eq_addAll, mem_addAll, List.mem_flatMap]
    exact Or.inr ⟨_, List.mem_filter.mpr ⟨hsite, by simp [Step.site, hr]⟩,
      by simp [Step.site, hchecks]⟩

/-- A setup that is reached from the job itself is unconditional. -/
theorem Conditioned.of_own (h : Conditioned table (Job.sites job) g)
    (hr : ReachedFrom table (Job.setups job) t) (hm : g.find? (setupId t) = some m) :
    m.pathDeps = none :=
  h.freed_deps ⟨⟨[], Job.setups job⟩, by simp [Job.sites], hr, Or.inl rfl⟩ hm

end Graph

/-! ## The job -/

/-- **A step that is open finds its setups open.** -/
theorem opens_setups (htext : Job.TextNames table job) (hun : job.Unmarked)
    (htexts : Job.Texts table job)
    (h : (Job.compile table job).run.run r = (.ok (job', edits), r')) :
    ∃ (g : Graph) (checkId : String → String) (blocks : List (String × List Slot))
      (slots : List Slot), (∃ left, Graph.ofJob table job = .ok (g, left)) ∧
      Job.Slots table job g checkId blocks ∧ slots = blocks.flatMap Prod.snd ∧
      job'.part "steps" = some (.list (slots.map Slot.compiled)) ∧
      (∀ k (s : Slot), slots[k]? = some s → Step.gate? s.compiled =
        Gate.stacked (Slot.bailsBefore slots k)
          (Gate.guarded (s.condition checkId) (Step.gate? s.written))) ∧
      ∀ i step, (Job.steps job)[i]? = some step → ∃ s, (stepId i, [s]) ∈ blocks ∧
        s.written = Step.plain step ∧ slots[Block.place blocks (stepId i)]? = some s ∧
        ∀ t, ReachedFrom table (Step.setups step) t ∨ ReachedFrom table (Job.setups job) t →
          ∃ c, (setupId t, c) ∈ blocks ∧ ∀ first, c.head? = some first →
            slots[Block.place blocks (setupId t)]? = some first ∧
            ∀ changed bails,
              s.Open changed bails checkId slots (Block.place blocks (stepId i)) →
              first.Open changed bails checkId slots (Block.place blocks (setupId t)) := by
  obtain ⟨g, checkId, blocks, us, resolved, hmade, hb, hslots, hwoven, hsteps⟩ :=
    compile_slots htext hun htexts h
  obtain ⟨hnd, hmem, hord⟩ := Graph.order_ok hb.wf hslots.order
  have hcond := hb.conditioned (hb.acyclicFrom hslots.order)
  refine ⟨g, checkId, blocks, _, hmade, hslots, rfl, hsteps, fun k s hs => hwoven.gate_eq hs,
    fun i step hi => ?_⟩
  obtain ⟨s, hs, hwritten, hchecks⟩ := hslots.of_step hb hi
  refine ⟨s, hs, hwritten, Block.getElem?_place hnd hs rfl, fun t ht => ?_⟩
  have hlen := (List.getElem?_eq_some_iff.mp hi).1
  have hwaits : TransGen g.Waits (stepId i) (setupId t) :=
    ht.elim (hb.waits_setups hi) (hb.waits_own hlen)
  have hstep : stepId i ∈ blocks.map Prod.fst := (hmem _).mpr (hb.has_step.mpr hlen)
  have hreached : Job.Reached table job t :=
    ht.elim (Job.reached_of_step (List.mem_of_getElem? hi)) Job.reached_of_setups
  obtain ⟨⟨x, c⟩, hc, rfl⟩ := List.mem_map.mp ((hmem _).mpr (hb.has_setup.mpr hreached))
  refine ⟨c, hc, fun first hfirst =>
    ⟨Block.getElem?_place hnd hc hfirst, fun changed bails ho => ?_⟩⟩
  refine ho.mono (Block.place_mono ⟨hstep, (hord.idxOf_lt hnd hstep hwaits).2⟩) fun hmet l hl => ?_
  obtain ⟨m, hm, hdeps⟩ := (hslots.filled _ hc).checks
  rw [hdeps first (List.mem_of_mem_head? hfirst)] at hl
  rcases ht with ht | ht
  · rcases hcond.of_step (List.mem_of_getElem? hi) ht hm with hnone | ⟨l', hl', x, hx, hown⟩
    · cases hnone.symm.trans hl
    · obtain rfl := Option.some.inj (hl'.symm.trans hl)
      obtain ⟨y, hy, hfound⟩ := hmet [x] (by rw [hchecks, hown]; rfl)
      obtain rfl := List.mem_singleton.mp hy
      exact ⟨y, hx, hfound⟩
  · cases (hcond.of_own ht hm).symm.trans hl

theorem opens_setups_sample : ∃ (job' : Value) (edits : List Edit) (r' : Registry)
    (blocks : List (String × List Slot)) (checkId : String → String) (s first : Slot),
    (Job.compile Job.sampleTable Job.sampleJob).run.run {} = (.ok (job', edits), r') ∧
    Job.TextNames Job.sampleTable Job.sampleJob ∧ Job.sampleJob.Unmarked ∧
    Job.Texts Job.sampleTable Job.sampleJob ∧
    ReachedFrom Job.sampleTable (Step.setups Job.sampleSteps[0]) "tools" ∧
    s.written = Step.plain Job.sampleSteps[0] ∧ first.written.part "run" = some (.str "make") ∧
    ∀ changed bails,
      s.Open changed bails checkId (blocks.flatMap Prod.snd) (Block.place blocks (stepId 0)) →
      first.Open changed bails checkId (blocks.flatMap Prod.snd)
        (Block.place blocks (setupId "tools")) := by
  obtain ⟨job', edits, r', h⟩ := Job.sampleJob_compiles
  obtain ⟨g, checkId, blocks, slots, -, hslots, rfl, -, -, hopens⟩ :=
    opens_setups Job.sampleJob_textNames Job.sampleJob_unmarked Job.sampleJob_texts h
  obtain ⟨s, -, hwritten, -, hall⟩ := hopens 0 Job.sampleSteps[0] rfl
  have hreach : ReachedFrom Job.sampleTable (Step.setups Job.sampleSteps[0]) "tools" :=
    ⟨"tools", by decide, .refl⟩
  obtain ⟨c, hc, hfirst⟩ := hall "tools" (Or.inl hreach)
  obtain ⟨d, hd, hcopies⟩ := (hslots.filled _ hc).written.of_setup
  rw [Job.definition?_sampleTable, if_neg (by decide), if_pos rfl] at hd
  obtain rfl := Option.some.inj hd
  obtain ⟨first, rfl, hmake⟩ := List.map_eq_singleton_iff.mp (Except.ok.inj hcopies).symm
  obtain ⟨-, hopen⟩ := hfirst first rfl
  exact ⟨job', edits, r', blocks, checkId, s, first, h, Job.sampleJob_textNames,
    Job.sampleJob_unmarked, Job.sampleJob_texts, hreach, hwritten, by rw [hmake]; rfl, hopen⟩

end StepLoom
