import StepLoom.Proofs.Compile.Slots
import StepLoom.Proofs.Layout

/-!
# The steps of a compiled job, slot by slot

The blocks of a compiled job hold a slot for each step that came out. The `if` of a compiled step is
the `if` that the step was written with, under the condition on the path checks of its node and
under the negated bail conditions of all earlier slots.

**Theorem (`compile_slots`).** Compiling a job fills the blocks of its nodes with slots, and every
`if` is composed in this way.
-/

namespace StepLoom

open Value Condition
open Block (Guarded)
open StepLoom.Graph (stepId)

/-- The steps of a block, as the node that it belongs to stands for them. -/
structure Block.Filled (table job : Value) (g : Graph) (checkId : String → String) (x : String)
    (c : List Slot) : Prop where
  written : Job.Writes table job checkId x (c.map Slot.written)
  checks : ∃ n, g.find? x = some n ∧ ∀ s ∈ c, s.checks = n.pathDeps
  kept : ∀ s ∈ c, Bail.Kept s.written s.compiled

/-- Labelled blocks of slots as the nodes of a job's graph stand for them. -/
structure Job.Slots (table job : Value) (g : Graph) (checkId : String → String)
    (blocks : List (String × List Slot)) : Prop where
  order : g.order = .ok (blocks.map Prod.fst)
  filled : ∀ b ∈ blocks, Block.Filled table job g checkId b.1 b.2
  /-- A step comes after the path checks that it is conditioned on. -/
  known : ∀ b ∈ blocks, ∀ s ∈ b.2, ∀ l, s.checks = some l →
    ∀ x ∈ l, Graph.IsCheck x ∧ Before (blocks.map Prod.fst) x b.1

/-- The bail conditions of the first `k` slots, qualified with the ids of their steps. -/
def Slot.bailsBefore (slots : List Slot) (k : Nat) : List String :=
  (slots.take k).filterMap Slot.bail?

/-- The condition on the path checks of a slot. -/
def Slot.condition (checkId : String → String) (s : Slot) : Option String :=
  checked (s.checks.map (List.map checkId))

variable {table job job' step : Value} {g : Graph} {r r' : Registry} {ids : List String}
  {edits : List Edit} {blocks : List (String × List Slot)} {b f us resolved : List Value}
  {outs : List (String × String)} {x q : String} {checkId : String → String} {slots : List Slot}
  {s : Slot} {w : Value} {i k : Nat}

theorem Slot.mem_bailsBefore : q ∈ bailsBefore slots k ↔ ∃ e ∈ slots.take k, e.bail? = some q := by
  simp [bailsBefore]

/-! ## One block -/

theorem Block.BlockOf.filled (h : BlockOf g outs x b) (hb : Graph.Built table job g) (hx : g.has x)
    (hw : Job.Texts table job) (hs : ∀ step ∈ Job.steps job, step.IsRecord)
    (hids : StepIds outs ids) (hnd : ids.Nodup) (hk : List.Forall₂ Bail.Kept b f) :
    ∃ c, Filled table job g (Block.checkId outs) x c ∧
      List.Forall₂ (fun s u => Guarded (Block.checkId outs) s.checks s.written u) c b ∧
      c.map Slot.compiled = f := by
  obtain ⟨m, vs, hm, hwrites, hguarded⟩ := h.writes hb hx hw hs hids hnd
  obtain ⟨n, hn, rfl⟩ := Option.map_eq_some_iff.mp hm
  have hpick : ∀ v u w, Guarded (Block.checkId outs) n.pathDeps v u → Bail.Kept u w → ∃ s : Slot,
      (s.written = v ∧ s.checks = n.pathDeps ∧ Bail.Kept s.written s.compiled) ∧
      Guarded (Block.checkId outs) s.checks s.written u ∧ w = s.compiled := by
    intro v u w hvu huw
    refine ⟨⟨v, n.pathDeps, w⟩, ⟨rfl, rfl, (hvu.same.mono (by simp)).trans huw.1, fun hnone => ?_⟩,
      hvu, rfl⟩
    have hbail : u.part "bail_if" = v.part "bail_if" := hvu.same.part (by simp)
    exact hvu.same.trans (huw.2 (hbail.trans hnone))
  obtain ⟨c, hwritten, hguards, hcompiled⟩ := forall₂_between hpick hguarded hk
  have hvs : c.map Slot.written = vs := map_of_forall₂ (hwritten.imp fun _ _ h => h.1)
  have hspec : ∀ s ∈ c, s.checks = n.pathDeps ∧ Bail.Kept s.written s.compiled := by
    intro s hs
    obtain ⟨v, -, hv⟩ := forall₂_exists_left hwritten hs
    exact hv.2
  refine ⟨c, ⟨hvs ▸ hwrites, ⟨n, hn, fun s hs => (hspec s hs).1⟩, fun s hs => (hspec s hs).2⟩,
    hguards, ?_⟩
  exact map_of_forall₂ (hcompiled.flip.imp fun _ _ h => h.symm)

/-- The slot of a step of the job. -/
theorem Job.Slots.of_step (h : Job.Slots table job g checkId blocks) (hb : g.Built table job)
    (hi : (Job.steps job)[i]? = some step) : ∃ s, (stepId i, [s]) ∈ blocks ∧
      s.written = Step.plain step ∧ s.checks = Graph.conditions (Step.checks step) := by
  have hhas : stepId i ∈ blocks.map Prod.fst :=
    ((Graph.order_ok hb.wf h.order).2.1 _).mpr
      (hb.has_step.mpr (List.getElem?_eq_some_iff.mp hi).1)
  obtain ⟨⟨x, c⟩, hmem, rfl⟩ := List.mem_map.mp hhas
  obtain ⟨hwrites, ⟨n, hn, hchecks⟩, -⟩ := h.filled _ hmem
  obtain ⟨s, rfl, hs⟩ := List.map_eq_singleton_iff.mp (hwrites.of_step hi)
  obtain ⟨m, hm, -, -, hdeps, -⟩ := hb.step hi
  obtain rfl := Option.some.inj (hm.symm.trans (Graph.look_of_find? hn))
  exact ⟨s, hmem, hs, (hchecks s (by simp)).trans hdeps⟩

/-- The slot of a path check. -/
theorem Job.Slots.of_check (h : Job.Slots table job g checkId blocks) (hb : g.Built table job)
    (hx : Graph.IsCheck x) (hhas : g.has x) : ∃ e check, (x, [e]) ∈ blocks ∧
      Check.step (checkId x) (Job.checkPatterns job x) = .ok check ∧ e.written = .record check ∧
      Same ["if"] e.written e.compiled := by
  obtain ⟨⟨y, c⟩, hmem, rfl⟩ :=
    List.mem_map.mp (((Graph.order_ok hb.wf h.order).2.1 x).mpr hhas)
  obtain ⟨hwrites, -, hkept⟩ := h.filled _ hmem
  obtain ⟨check, hstep, hwritten⟩ := hwrites.of_check hx
  obtain ⟨e, rfl, he⟩ := List.map_eq_singleton_iff.mp hwritten
  refine ⟨e, check, hmem, hstep, he, (hkept e (by simp)).2 ?_⟩
  rw [he]
  exact (Block.texts_of_check hstep).2

/-! ## One step -/

/-- Slots under the conditions on path checks, and what comes out when bail conditions are
resolved. -/
structure Woven (checkId : String → String) (slots : List Slot) (us resolved : List Value) :
    Prop where
  guarded : List.Forall₂ (fun s u => Guarded checkId s.checks s.written u) slots us
  resolves : Bail.Resolves 1 us resolved
  compiled : slots.map Slot.compiled = resolved.map Bail.dropped

namespace Woven

variable (h : Woven checkId slots us resolved)

include h

theorem typed : ∀ u ∈ us, Step.Typed u := by
  intro u hu
  obtain ⟨s, -, hs⟩ := forall₂_exists_left h.guarded hu
  exact hs.typed

theorem dropped_same (hw : w ∈ resolved) : Same ["bail_if"] w (Bail.dropped w) :=
  (Bail.dropped_same (h.resolves.records (fun u hu => (h.typed u hu).record) w hw)).1

/-- A slot with the step under its condition on path checks, and what became of that one. -/
theorem exists_steps (hs : slots[k]? = some s) : ∃ u w, us[k]? = some u ∧ resolved[k]? = some w ∧
    Guarded checkId s.checks s.written u ∧ Same ["bail_if"] w s.compiled ∧
    (Step.bail? u ≠ none → ∃ x, w.part "id" = some x ∧
      (given? (u.part "id") = some x ∨ ∃ m, x = .str (Bail.defaultId m))) := by
  obtain ⟨u, hu, hguarded⟩ := forall₂_getElem? h.guarded hs
  obtain ⟨w, hw, hid⟩ := forall₂_getElem? (h.resolves.ids h.typed) hu
  have hcompiled := congrArg (fun l => l[k]?) h.compiled
  simp only [List.getElem?_map, hs, hw, Option.map_some, Option.some.injEq] at hcompiled
  exact ⟨u, w, hu, hw, hguarded, hcompiled ▸ h.dropped_same (List.mem_of_getElem? hw), hid⟩

/-- The id through which the bail condition of a slot is qualified. -/
theorem bail_id (hs : s ∈ slots) : Step.bail? s.written ≠ none →
    ∃ x, s.compiled.part "id" = some x ∧
      (given? (s.written.part "id") = some x ∨ ∃ m, x = .str (Bail.defaultId m)) := by
  obtain ⟨k, hk⟩ := List.mem_iff_getElem?.mp hs
  obtain ⟨u, w, -, -, hguarded, hsame, hid⟩ := h.exists_steps hk
  have hbail : u.part "bail_if" = s.written.part "bail_if" := hguarded.same.part (by simp)
  have hgiven : u.part "id" = s.written.part "id" := hguarded.same.part (by simp)
  have hcompiled : s.compiled.part "id" = w.part "id" := hsame.part (by simp)
  rw [Step.bail?, hbail, hgiven, ← hcompiled] at hid
  exact hid

/-- The bail conditions of slots are those that were taken out. -/
theorem bails_eq : us.zipWith Bail.rewritten resolved = slots.map Slot.bail? := by
  have hbails : List.Forall₂ (fun u v => v.part "bail_if" = u.part "bail_if") us
      (slots.map Slot.written) :=
    List.forall₂_map_right_iff.mpr (h.guarded.flip.imp fun u s hs => (hs.same.part (by simp)).symm)
  have hids : List.Forall₂ (fun w w' => w'.part "id" = w.part "id") resolved
      (slots.map Slot.compiled) := by
    rw [h.compiled]
    refine List.forall₂_map_right_iff.mpr (List.forall₂_same.mpr fun w hw => ?_)
    exact (h.dropped_same hw).part (by simp)
  rw [← Bail.zipWith_rewritten hbails hids, List.zipWith_map, List.zipWith_self]
  rfl

theorem conditionsBefore_eq : Bail.conditionsBefore k us resolved = Slot.bailsBefore slots k := by
  rw [Bail.conditionsBefore, h.bails_eq, ← List.map_take, Slot.bailsBefore, List.reduceOption,
    List.filterMap_map]
  rfl

/-- **The `if` of a compiled step.** -/
theorem gate_eq (hs : slots[k]? = some s) : Step.gate? s.compiled =
    Gate.stacked (Slot.bailsBefore slots k)
      (Gate.guarded (s.condition checkId) (Step.gate? s.written)) := by
  obtain ⟨u, w, hu, hw, hguarded, hsame, -⟩ := h.exists_steps hs
  rw [Slot.condition, ← hguarded.gate, ← h.conditionsBefore_eq, ← h.resolves.gate? h.typed hu hw,
    Step.gate?, hsame.part (by simp), Step.gate?]

/-- A condition on path checks names some of them. -/
theorem checks_named (hs : s ∈ slots) : ∀ l, s.checks = some l →
    l ≠ [] ∧ ∀ x ∈ l, isName (checkId x).toList := by
  obtain ⟨k, hk⟩ := List.mem_iff_getElem?.mp hs
  obtain ⟨u, w, -, -, hguarded, -⟩ := h.exists_steps hk
  exact hguarded.checks

end Woven

/-! ## The job -/

/-- **The steps of a compiled job, slot by slot.** -/
theorem compile_slots (htext : Job.TextNames table job) (hun : job.Unmarked)
    (hconds : Job.Texts table job) (h : exec (Job.compile table job) r = (.ok (job', edits), r')) :
    ∃ (g : Graph) (checkId : String → String) (blocks : List (String × List Slot))
      (us resolved : List Value), (∃ left, Graph.ofJob table job = .ok (g, left)) ∧
      g.Built table job ∧ Job.Slots table job g checkId blocks ∧
      Woven checkId (blocks.flatMap Prod.snd) us resolved ∧
      job'.part "steps" = some (.list ((blocks.flatMap Prod.snd).map Slot.compiled)) := by
  obtain ⟨-, g, ids, outs, gated, resolved, hc⟩ := compile_ok htext hun h
  obtain ⟨hnd, hmem, hord⟩ := Graph.order_ok hc.built.wf hc.order
  have hkept : List.Forall₂ Bail.Kept gated.flatten (resolved.map Bail.dropped) :=
    List.forall₂_map_right_iff.mpr (hc.bails.kept hc.gated)
  obtain ⟨final, hfinal, hblocks⟩ := forall₂_flatten hkept
  have hmembers : List.Forall₂ (fun x b => x ∈ ids ∧ Block.BlockOf g outs x b) ids gated :=
    (List.forall₂_and_left _ _).mpr ⟨fun _ hx => hx, hc.each⟩
  have hpick : ∀ x b f, x ∈ ids ∧ Block.BlockOf g outs x b → List.Forall₂ Bail.Kept b f →
      ∃ c, Block.Filled table job g (Block.checkId outs) x c ∧
        List.Forall₂ (fun s u => Guarded (Block.checkId outs) s.checks s.written u) c b ∧
        c.map Slot.compiled = f := fun x b f hx hk =>
    hx.2.filled hc.built ((hmem x).mp hx.1) hconds hc.records.2 hc.known hnd hk
  obtain ⟨cs, hfilled, hguarded, hcompiled⟩ := forall₂_between hpick hmembers hblocks
  have hlen := hfilled.length_eq
  have hfst : (ids.zip cs).map Prod.fst = ids := List.map_fst_zip hlen.le
  have hsnd : (ids.zip cs).flatMap Prod.snd = cs.flatten := by
    rw [List.flatMap_def, List.map_snd_zip hlen.ge]
  have hslots : cs.flatten.map Slot.compiled = resolved.map Bail.dropped := by
    rw [hfinal, List.map_flatten, map_of_forall₂ (hcompiled.flip.imp fun _ _ h => h)]
  have hwoven : Woven (Block.checkId outs) cs.flatten gated.flatten resolved :=
    ⟨List.rel_flatten hguarded, hc.bails, hslots⟩
  have hof : ∀ b ∈ ids.zip cs, Block.Filled table job g (Block.checkId outs) b.1 b.2 := fun b hb =>
    (List.forall₂_iff_zip.mp hfilled).2 hb
  refine ⟨g, Block.checkId outs, ids.zip cs, gated.flatten, resolved, hc.made, hc.built,
    ⟨by rw [hfst, hc.order], hof, ?_⟩, hsnd ▸ hwoven, ?_⟩
  · intro b hb s hs l hl x hx
    obtain ⟨n, hn, hchecks⟩ := (hof b hb).checks
    obtain ⟨-, hall⟩ := hc.built.deps (Graph.look_of_find? hn) ((hchecks s hs).symm.trans hl)
    obtain ⟨hbefore, hcheck⟩ := hall x hx
    have hwaits : g.Waits b.1 x := ⟨n, hn, hbefore⟩
    have hid : b.1 ∈ ids := (List.of_mem_zip hb).1
    rw [hfst]
    exact ⟨hcheck, hid, (hord.idxOf_lt hnd hid (.single hwaits)).2⟩
  · obtain ⟨fields, -, rfl⟩ := hc.steps
    rw [hsnd, hslots]
    exact Fields.get?_put_self

/-- The texts under a key of a job's steps. -/
def Job.texts (key : String) (job : Value) : Option (List (Option String)) :=
  (job.part "steps").bind fun v =>
    v.members.toOption.map (List.map fun step => word? (step.part key))

end StepLoom
