import StepLoom.Proofs.Compile.Claims
import StepLoom.Proofs.Compile.Phases
import StepLoom.Proofs.Compile.Readable

/-!
# Which nodes cannot be joined

If all texts in steps and in definitions of setups are texts, only path checks can fail to become a
block: a pattern is bad, or there is no step id left.

**Theorem (`joinFrom_cases`).** Joining nodes in order succeeds, or fails at such a path check.
-/

namespace StepLoom

open Value Setup
open StepLoom.Graph (IsCheck stepId setupId checkoutId)

/-- A mapping whose `name`, `if`, `bail_if` and `id` are texts, the id without a backslash. -/
structure Step.Worded (step : Value) : Prop where
  fields : ∃ fields, step.fields? = some fields
  name : TextOrAbsent (step.part "name")
  gate : TextOrAbsent (step.part "if")
  bail : TextOrAbsent (step.part "bail_if")
  id : ∀ x, step.part "id" = some x → ∃ s, x = .str s ∧ '\\' ∉ s.toList

/-- The steps of a job and of the setups that it reaches are worded. -/
structure Job.Worded (table job : Value) : Prop where
  steps : ∀ step ∈ Job.steps job, Step.Worded step
  setups : ∀ s, Job.Reached table job s → ∀ d, definition? table s = some d →
    ∃ items, Setup.steps d = .ok items ∧ ∀ item ∈ items, Step.Worded item

variable {table job v w : Value} {g : Graph} {c : Option String} {outs : List (String × String)}
  {name x : String} {b : List Value}

/-! ## Blocks of setups -/

/-- A mapping with the texts of a worded step is readable. -/
theorem Step.Worded.readable {keys : List String} {step : Value} {fields : Fields}
    (h : Step.Worded step) (hf : step.fields? = some fields) (hs : Same keys (.record fields) w)
    (hkeys : ∀ key ∈ ["if", "bail_if", "id"], key ∉ keys) : Step.Readable w := by
  have hpart : ∀ key ∈ ["if", "bail_if", "id"], w.part (.str key) = step.part (.str key) := by
    intro key hkey
    rw [hs.part (hkeys key hkey), part, part, hf]
    rfl
  refine ⟨⟨hs.isRecord, ?_, ?_⟩, fun _ => ?_⟩
  · rw [hpart "if" (by simp)]
    exact h.gate
  · rw [hpart "bail_if" (by simp)]
    exact h.bail
  · rw [hpart "id" (by simp)]
    exact h.id

theorem Step.Worded.readable_plain {step : Value} (h : Step.Worded step) (hr : step.IsRecord) :
    Step.Readable (Step.plain step) := by
  obtain ⟨fields, rfl⟩ := hr
  exact h.readable rfl (Step.plain_same ⟨fields, rfl⟩) (by decide)

namespace Block

theorem readable_startMarker : Step.Readable (startMarker name) :=
  ⟨⟨⟨_, rfl⟩, textOrAbsent_none, textOrAbsent_none⟩, fun h => absurd rfl h⟩

theorem readable_finishMarker : Step.Readable (finishMarker name) :=
  ⟨⟨⟨_, rfl⟩, textOrAbsent_none, textOrAbsent_none⟩, fun h => absurd rfl h⟩

theorem mapM_copyStep {items : List Value} (h : ∀ item ∈ items, Step.Worded item) :
    ∃ vs, items.mapM copyStep = .ok vs := by
  induction items with
  | nil => exact ⟨[], rfl⟩
  | cons item rest ih =>
    obtain ⟨fields, hf⟩ := (h item (by simp)).fields
    obtain ⟨vs, hvs⟩ := ih fun i hi => h i (List.mem_cons_of_mem item hi)
    refine ⟨.record fields :: vs, ?_⟩
    rw [List.mapM_cons, copyStep, asFields_of_fields? hf, hvs]
    rfl

/-- The steps of a setup that is worded can be copied. -/
theorem copies_total (name : String) {definition : Value} {items : List Value}
    (hs : Setup.steps definition = .ok items) (h : ∀ item ∈ items, Step.Worded item) :
    ∃ vs, copies name definition = .ok vs := by
  rw [copies, hs]
  rcases items with _ | ⟨step, _ | ⟨second, rest⟩⟩
  · exact ⟨[], rfl⟩
  · -- One step: it keeps its name behind that of the setup.
    have hw := h step (by simp)
    obtain ⟨fields, hf⟩ := hw.fields
    have hfield : step.field? "name" = .ok (step.part "name") := by rw [field?, part, hf]; rfl
    have hspread : step.spread = .ok fields := by rw [spread, hf]
    have hname : nameText (step.part "name") = .ok ((word? (step.part "name")).getD "") := by
      rw [nameText, hw.name.given?_eq]
      cases word? (step.part "name") <;> rfl
    refine ⟨[.record (Fields.put "name" (.str (singleLabel name
      ((word? (step.part "name")).getD ""))) fields)], ?_⟩
    change (step.field? "name" >>= fun found => nameText found >>= fun text =>
      step.spread >>= fun fields => pure _) = _
    rw [hfield, hspread]
    change (nameText (step.part "name") >>= fun text => pure _) = _
    rw [hname]
    rfl
  · -- Several steps stand between the markers of the setup.
    obtain ⟨vs, hvs⟩ := mapM_copyStep h
    refine ⟨startMarker name :: vs ++ [finishMarker name], ?_⟩
    change ((step :: second :: rest).mapM copyStep >>= fun copies => pure _) = _
    rw [hvs]
    rfl

/-- The copies are readable. -/
theorem readable_copies {definition : Value} {items vs : List Value}
    (hs : Setup.steps definition = .ok items) (h : ∀ item ∈ items, Step.Worded item)
    (hc : copies name definition = .ok vs) : ∀ v ∈ vs, Step.Readable v := by
  intro v hv
  rcases mem_copies hc hs (fun item hitem => (h item hitem).fields) v hv with
    rfl | rfl | ⟨item, hitem, fields, hf, hsame⟩
  · exact readable_startMarker
  · exact readable_finishMarker
  · exact (h item hitem).readable hf hsame (by decide)

/-! ## Nodes -/

section

variable (hb : Graph.Built table job g) (hw : Job.Worded table job)
  (hs : ∀ step ∈ Job.steps job, step.IsRecord)

include hb hw hs

/-- The blocks of a worded job are readable. -/
theorem BlockOf.readable (h : BlockOf g outs x b) (hx : g.has x) : ∀ v ∈ b, Step.Readable v := by
  obtain ⟨n, hn⟩ := Graph.has_iff_look.mp hx
  rcases hb.cases hn with ⟨i, step, hi, rfl, -⟩ | ⟨hcheck, -⟩ | ⟨s, hreach, rfl, -⟩
  · obtain ⟨c, v, rfl, -, hv⟩ := h.of_step hb hi
    have hmem := List.mem_of_getElem? hi
    have hread := (hw.steps step hmem).readable_plain (hs step hmem)
    obtain ⟨w, hguard, htyped, hsame, -⟩ := hread.guardWith c
    obtain rfl := Except.ok.inj (hv.symm.trans hguard)
    simpa using hread.of_same htyped hsame
  · obtain ⟨outId, check, -, hcheck, rfl⟩ := h.of_check hcheck hb
    obtain ⟨found, -, rfl⟩ := Check.step_ok hcheck
    have hread : Step.Readable (.record [("id", Value.str outId), ("name", Value.str
        ("Check paths: " ++ ", ".intercalate (Job.checkPatterns job x))),
        ("run", Value.str (Check.script found))]) :=
      ⟨⟨⟨_, rfl⟩, textOrAbsent_none, textOrAbsent_none⟩, fun h => absurd rfl h⟩
    simpa using hread
  · obtain ⟨m, c, -, hd, -, hof⟩ := h.of_setup hb
    obtain ⟨items, hitems, hworded⟩ := hw.setups s hreach _ hd
    obtain ⟨vs, hvs⟩ := copies_total s hitems hworded
    have hread := readable_copies hitems hworded hvs
    obtain ⟨out, hout, hall⟩ := Step.mapM_guardWith (fun v hv => (hread v hv).toTyped) c
    rw [ofSetup_eq, hvs] at hof
    obtain rfl := Except.ok.inj (hof.symm.trans hout)
    intro v hv
    obtain ⟨u, hu, htyped, hsame, -⟩ := forall₂_exists_left hall hv
    exact (hread u hu).of_same htyped hsame

end

variable {r r' : Registry} {n : Node}

/-- A path check becomes a block if it gets a step id and its patterns are good. -/
theorem exec_ofNode_check (hb : Graph.Built table job g) (hx : IsCheck x)
    (hn : g.find? x = some n) (r : Registry) (outs : List (String × String)) :
    exec (ofNode n outs) r = match r.claim (Job.checkPatterns job x) with
    | .error e => (.error e, r)
    | .ok (outId, r') => ((Check.step outId (Job.checkPatterns job x)).map fun check =>
        ([.record check], outs ++ [(x, outId)]), r') := by
  obtain ⟨hk, hd, -, hc⟩ := hb.check hx (Graph.look_of_find? hn)
  have hdeps : Gate.anyChanged n.pathDeps outs = .ok none := by
    rw [show n.pathDeps = none from hd]
    rfl
  have hpatterns : (n.content.members >>= Value.strings) = .ok (Job.checkPatterns job x) := by
    rw [show n.content = _ from hc]
    exact Graph.strings_map _
  have hkind : n.kind = .paths := hk
  rw [exec_ofNode_paths hkind hdeps hpatterns, Graph.id_of_find? hn]
  cases r.claim (Job.checkPatterns job x) with
  | error e => rfl
  | ok claimed =>
    dsimp only
    cases Check.step claimed.1 (Job.checkPatterns job x) <;> rfl

/-- Steps and setups become blocks if they can be guarded, whatever the gate, and if the step ids of
their path checks are known. -/
theorem ofNode_of_guards {P : Value → Prop} (hb : Graph.Built table job g) (hx : ¬ IsCheck x)
    (hn : g.find? x = some n)
    (hdeps : ∀ l, n.pathDeps = some l → ∀ p ∈ l, ∃ outId, (p, outId) ∈ outs)
    (hsteps : ∀ step ∈ Job.steps job, ∀ c, ∃ w, Gate.guardWith c (Step.plain step) = .ok w ∧ P w)
    (hsetups : ∀ s d, Job.Reached table job s → definition? table s = some d → ∀ name c,
      ∃ out, ofSetup name d c = .ok out ∧ ∀ v ∈ out, P v) :
    ∃ b, exec (ofNode n outs) r = (.ok (b, outs), r) ∧ ∀ v ∈ b, P v := by
  obtain ⟨c, hc⟩ := anyChanged_total hdeps
  have hlook := Graph.look_of_find? hn
  rcases hb.cases hlook with ⟨i, step, hi, rfl, hk⟩ | ⟨hcheck, -⟩ | ⟨s, hreach, rfl, hk⟩
  · obtain ⟨m, hm, -, hcontent, -⟩ := hb.step hi
    obtain rfl := Option.some.inj (hm.symm.trans hlook)
    obtain ⟨w, hguard, hw⟩ := hsteps step (List.mem_of_getElem? hi) c
    have hkind : n.kind = .step := hk
    refine ⟨[w], ?_, List.forall_mem_singleton.mpr hw⟩
    rw [exec_ofNode_step hkind, hc, show n.content = Step.plain step from hcontent]
    change ((Gate.guardWith c (Step.plain step)).bind fun v => .ok ([v], outs), r) = _
    rw [hguard]
    rfl
  · exact absurd hcheck hx
  · obtain ⟨-, hd, -⟩ := hb.setup hlook
    obtain ⟨out, hout, hall⟩ := hsetups s _ hreach hd
      (String.ofList (n.id.toList.drop (Graph.setupId "").length)) c
    have hkind : n.kind = .setup := hk
    refine ⟨out, ?_, hall⟩
    rw [exec_ofNode_setup hkind, hc]
    change ((ofSetup _ n.content c).bind fun steps => .ok (steps, outs), r) = _
    rw [show ofSetup _ n.content c = .ok out from hout]
    rfl

/-- Steps and setups of a worded job become blocks if the step ids of their path checks are
known. -/
theorem ofNode_total (hb : Graph.Built table job g) (hw : Job.Worded table job)
    (hs : ∀ step ∈ Job.steps job, step.IsRecord) (hx : ¬ IsCheck x) (hn : g.find? x = some n)
    (hdeps : ∀ l, n.pathDeps = some l → ∀ p ∈ l, ∃ outId, (p, outId) ∈ outs) :
    ∃ b, exec (ofNode n outs) r = (.ok (b, outs), r) := by
  have hblock := ofNode_of_guards (P := fun _ => True) (r := r) hb hx hn hdeps
    (fun step hmem c => ?_) fun s d hreach hd name c => ?_
  · obtain ⟨b, hex, -⟩ := hblock
    exact ⟨b, hex⟩
  · obtain ⟨w, hguard, -⟩ := ((hw.steps step hmem).readable_plain (hs step hmem)).guardWith c
    exact ⟨w, hguard, trivial⟩
  · obtain ⟨items, hitems, hworded⟩ := hw.setups s hreach d hd
    obtain ⟨vs, hvs⟩ := copies_total name hitems hworded
    have hread := readable_copies hitems hworded hvs
    obtain ⟨out, hout, -⟩ := Step.mapM_guardWith (fun v hv => (hread v hv).toTyped) c
    refine ⟨out, ?_, fun _ _ => trivial⟩
    rw [ofSetup_eq, hvs]
    exact hout

/-! ## Joining -/

theorem nodeId_checkPatterns (hb : Graph.Built table job g) (hx : IsCheck x) (hg : g.has x) :
    Check.nodeId (Job.checkPatterns job x) = x := by
  obtain ⟨step, hstep, hmem⟩ := (hb.has_check hx).mp hg
  rw [Job.checkPatterns]
  cases hfirst : (Job.steps job).find? fun step => x ∈ Step.checks step with
  | none => simpa [hmem] using List.find?_eq_none.mp hfirst step hstep
  | some first =>
    have hchecks : x ∈ Step.checks first := by simpa using List.find?_some hfirst
    rw [Check.nodeId_sortTexts, ← (Graph.mem_checks hchecks).2]

open Classical in
/-- The pattern lists of the path checks among some nodes. -/
noncomputable def checksIn (job : Value) (ids : List String) : List (List String) :=
  (ids.filter IsCheck).map (Job.checkPatterns job)

theorem checksIn_cons_of_check {ids : List String} (hx : IsCheck x) :
    checksIn job (x :: ids) = Job.checkPatterns job x :: checksIn job ids := by
  rw [checksIn, List.filter_cons_of_pos (by simpa using hx), List.map_cons, checksIn]

theorem checksIn_cons_of_not {ids : List String} (hx : ¬ IsCheck x) :
    checksIn job (x :: ids) = checksIn job ids := by
  rw [checksIn, List.filter_cons_of_neg (by simpa using hx), checksIn]

open Registry (Holds namesakes maxTries)

/-- A path check becomes a block and claims a step id for its patterns, unless one of them is bad or
no step id is left. -/
theorem ofNode_check_cases (hb : Graph.Built table job g) (hx : IsCheck x) (hn : g.find? x = some n)
    {claimed : List (List String)} (hfresh : Job.checkPatterns job x ∉ claimed)
    (hr : Holds claimed r) :
    Ensures (ofNode n outs) r
      (fun b r' => ((∃ outId, b.2 = outs ++ [(x, outId)]) ∧
          Holds (claimed ++ [Job.checkPatterns job x]) r') ∧
        (namesakes claimed (Job.checkPatterns job x)).length < maxTries ∧
        ∃ rs, Check.regexes (Job.checkPatterns job x) = .ok rs)
      (fun e => Check.regexes (Job.checkPatterns job x) = .error e ∨
        e = .noFreeId (Job.checkPatterns job x) ∧
          maxTries ≤ (namesakes claimed (Job.checkPatterns job x)).length) := by
  have hex := exec_ofNode_check hb hx hn r outs
  rw [Ensures]
  by_cases hlt : (namesakes claimed (Job.checkPatterns job x)).length < maxTries
  · obtain ⟨outId, r', hclaim, hr'⟩ := hr.claim hfresh hlt
    rw [hex, hclaim]
    dsimp only
    rw [Check.step]
    cases hre : Check.regexes (Job.checkPatterns job x) with
    | error e => exact Or.inl rfl
    | ok rs => exact ⟨⟨⟨outId, rfl⟩, hr'⟩, hlt, rs, rfl⟩
  · have hfull := Nat.le_of_not_lt hlt
    rw [hex, hr.claim_error hfresh hfull]
    exact Or.inr ⟨rfl, hfull⟩

/-- **Joining fails at a path check only.** The registry holds the path checks that were joined
before, `claimed`, and the step ids of all of them are known. -/
theorem joinFrom_cases (hb : Graph.Built table job g) (hw : Job.Worded table job)
    (hs : ∀ step ∈ Job.steps job, step.IsRecord) {done ids : List String}
    {claimed : List (List String)} (hord : g.InOrder done ids) (hnd : ids.Nodup)
    (hids : ∀ x ∈ ids, g.has x ∧ x ∉ done)
    (hknown : ∀ x ∈ done, IsCheck x → ∃ outId, (x, outId) ∈ outs)
    (hclaimed : ∀ ps ∈ claimed, Check.nodeId ps ∈ done) (hr : Holds claimed r) :
    Ensures (joinFrom g outs ids) r
      (fun _ _ => (∀ x ∈ ids, IsCheck x → ∃ rs, Check.regexes (Job.checkPatterns job x) = .ok rs) ∧
        ∀ ps, (namesakes claimed ps).length ≤ maxTries →
          (namesakes (claimed ++ checksIn job ids) ps).length ≤ maxTries)
      (fun e => ∃ x ∈ ids, IsCheck x ∧ (Check.regexes (Job.checkPatterns job x) = .error e ∨
        e = .noFreeId (Job.checkPatterns job x) ∧
          maxTries <
            (namesakes (claimed ++ checksIn job ids) (Job.checkPatterns job x)).length)) := by
  induction ids generalizing done outs claimed r with
  | nil => exact ensures_pure ⟨by simp, fun ps h => by simpa [checksIn] using h⟩
  | cons x rest ih =>
    obtain ⟨hx, hnew⟩ := hids x (by simp)
    obtain ⟨hxrest, hndrest⟩ := List.nodup_cons.mp hnd
    have hrest : ∀ y ∈ rest, g.has y ∧ y ∉ x :: done := fun y hy => by
      obtain ⟨hy', hnot⟩ := hids y (List.mem_cons_of_mem x hy)
      exact ⟨hy', List.not_mem_cons_of_ne_of_not_mem (fun h => hxrest (h ▸ hy)) hnot⟩
    have hclaimed' : ∀ ps ∈ claimed, Check.nodeId ps ∈ x :: done := fun ps hps =>
      List.mem_cons_of_mem x (hclaimed ps hps)
    obtain ⟨n, hn⟩ := Graph.has_iff.mp hx
    rw [joinFrom, hn]
    dsimp only
    by_cases hc : IsCheck x
    · have hid := nodeId_checkPatterns hb hc hx
      have hfresh : Job.checkPatterns job x ∉ claimed := fun h => hnew (hid ▸ hclaimed _ h)
      rw [checksIn_cons_of_check hc]
      refine ((ofNode_check_cases hb hc hn hfresh hr).mono (fun _ _ h => h) fun e he => ?_).bind ?_
      · exact ⟨x, by simp, hc, he.imp_right fun h =>
          ⟨h.1, h.2.trans_lt (Registry.length_namesakes_lt _ _ _)⟩⟩
      · rintro ⟨b, _⟩ r₁ ⟨⟨⟨outId, rfl⟩, hr₁⟩, hlt, hgood⟩
        have hclaimed'' : ∀ ps ∈ claimed ++ [Job.checkPatterns job x],
            Check.nodeId ps ∈ x :: done :=
          List.forall_mem_append.mpr ⟨hclaimed', List.forall_mem_singleton.mpr (by simp [hid])⟩
        have hknown' := known_cons (x := x) [(x, outId)] hknown fun _ => ⟨outId, by simp⟩
        rw [List.append_cons claimed]
        refine ((ih hord.2 hndrest hrest hknown' hclaimed'' hr₁).mono ?_ ?_).bind
          fun _ _ h => ensures_pure h
        · rintro - - ⟨hrestgood, hcount⟩
          exact ⟨List.forall_mem_cons.mpr ⟨fun _ => hgood, hrestgood⟩,
            fun ps hps => hcount ps (Registry.length_namesakes_snoc_le hps hlt)⟩
        · rintro e ⟨y, hy, hfault⟩
          exact ⟨y, List.mem_cons_of_mem x hy, hfault⟩
    · have hdeps : ∀ l, n.pathDeps = some l → ∀ p ∈ l, ∃ outId, (p, outId) ∈ outs := by
        intro l hl p hp
        obtain ⟨hbefore, hcp⟩ := (hb.deps (Graph.look_of_find? hn) hl).2 p hp
        exact hknown p (hord.1 p ⟨n, hn, hbefore⟩) hcp
      obtain ⟨b, hex⟩ := ofNode_total (r := r) hb hw hs hc hn hdeps
      have hknown' := known_cons [] hknown fun h => absurd h hc
      rw [List.append_nil] at hknown'
      rw [checksIn_cons_of_not hc]
      refine ensures_bind_exec hex (((ih hord.2 hndrest hrest hknown' hclaimed' hr).mono ?_ ?_).bind
        fun _ _ h => ensures_pure h)
      · rintro - - ⟨hgood, hcount⟩
        exact ⟨List.forall_mem_cons.mpr ⟨fun h => absurd h hc, hgood⟩, hcount⟩
      · rintro e ⟨y, hy, hfault⟩
        exact ⟨y, List.mem_cons_of_mem x hy, hfault⟩

end Block

end StepLoom
