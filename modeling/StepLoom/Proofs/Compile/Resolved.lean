import StepLoom.Proofs.Compile.Detached
import StepLoom.Proofs.Compile.Stacked
import StepLoom.Proofs.Keys

/-!
# What becomes of each step when bail conditions are resolved

The conditions of a list of steps are written down in advance (`conditionsFrom`): a step that bails
is known by its number among those that do, and its own `if` has no part in its condition. So what
becomes of a step depends on the step and on the conditions in front of it, and on nothing else.

**Theorem (`resolveAll_exact`).** Distinct steps with texts for gates, bail conditions and ids are
resolved. Each keeps its place and its other fields (`Resolved`); its `if` is under the negations of
the conditions in front of it, the nearest one outermost. Where a step stands in a field of another
one or of its own, it is changed there as well, and nothing else is (`Resolved.others_same`).
-/

namespace StepLoom

open Value
open Fields (gateKeys)

namespace Bail

variable {v w : Value} {steps steps' out : List Value} {fields : Fields} {n k : Nat}
  {condition gate : String}

/-- The id under which the outputs of a step are referred to, if it is the `n`-th that bails. -/
def ownId (n : Nat) (v : Value) : String := (word? (v.part "id")).getD (defaultId n)

/-- The bail conditions of some steps, the first of them the `n`-th, with their outputs referred to
through ids. -/
def conditionsFrom : (n : Nat) → List Value → List String
  | _, [] => []
  | n, v :: rest =>
    match Step.bail? v with
    | some condition => qualified (ownId n v) condition :: conditionsFrom (n + 1) rest
    | none => conditionsFrom n rest

/-- An `if` under the negations of some conditions. Without conditions it stays, blank or not. -/
def under (conditions : List String) (v : Option Value) : Option Value :=
  if conditions = [] then v else (Gate.stacked conditions (word? v)).map .str

/-- The id of a step when bail conditions are resolved, the next one being the `n`-th. -/
def idAfter (n : Nat) (v : Value) : Option Value :=
  if Step.bail? v ≠ none ∧ word? (v.part "id") = none then some (.str (defaultId n))
  else v.part "id"

/-- Conditions only depend on bail conditions and ids. -/
theorem conditionsFrom_congr (h : List.Forall₂ (fun v w => Same ["if"] v w) steps steps') :
    conditionsFrom n steps' = conditionsFrom n steps := by
  induction h generalizing n with
  | nil => rfl
  | @cons v w rest rest' hs _ ih =>
    have hbail : Step.bail? w = Step.bail? v := by rw [Step.bail?, hs.part (by simp), Step.bail?]
    have hid : ownId n w = ownId n v := by rw [ownId, hs.part (by simp), ownId]
    rw [conditionsFrom, conditionsFrom, hbail, hid, ih, ih]

theorem bail?_of_bails (h : Step.Typed v) (hb : bails v = true) :
    ∃ condition, Step.bail? v = some condition := by
  rw [bails_iff h] at hb
  exact Option.isSome_iff_exists.mp hb

theorem bail?_of_not_bails (h : Step.Typed v) (hb : bails v = false) : Step.bail? v = none := by
  rw [bails_iff h] at hb
  exact Option.not_isSome_iff_eq_none.mp (by simp [hb])

theorem eq_of_word? {v : Option Value} {s : String} (h : TextOrAbsent v) (hs : word? v = some s) :
    v = some (.str s) := by
  have hgiven := h.given?_eq
  rw [hs] at hgiven
  exact (Option.filter_eq_some_iff.mp hgiven).1

theorem get?_id_withId (h : TextOrAbsent (Fields.get? "id" fields)) :
    Fields.get? "id" (withId n fields) = some (.str (ownId n (.record fields))) := by
  rw [ownId, show (Value.record fields).part "id" = Fields.get? "id" fields from rfl, withId,
    h.given?_eq]
  cases hword : word? (Fields.get? "id" fields) with
  | none => exact Fields.get?_put_self
  | some s => exact eq_of_word? h hword

theorem idAfter_of_bails (h : TextOrAbsent (v.part "id")) (hb : Step.bail? v ≠ none) :
    idAfter n v = some (.str (ownId n v)) := by
  rw [idAfter, ownId]
  cases hword : word? (v.part "id") with
  | none => rw [if_pos ⟨hb, rfl⟩]; rfl
  | some s => rw [if_neg (by simp), eq_of_word? h hword]; rfl

/-- The id for outputs is no template but itself. -/
theorem ownId_plain (h : ∀ x, v.part "id" = some x → ∃ s, x = .str s ∧ '\\' ∉ s.toList) :
    '\\' ∉ (ownId n v).toList := by
  rw [ownId]
  cases hword : word? (v.part "id") with
  | none => exact not_mem_defaultId n
  | some s =>
    have hid := eq_of_word? (fun x hx => (h x hx).imp fun _ hs => hs.1) hword
    obtain ⟨s', hs, hplain⟩ := h _ hid
    obtain rfl : s = s' := by simpa using hs
    exact hplain

/-- A step that bails, its id and the gate for later steps. -/
theorem split_exact (h : Step.Readable v) (hc : Step.bail? v = some condition)
    (hs : split n v = .ok (w, gate)) : w.part "if" = v.part "if" ∧
      w.part "id" = idAfter n v ∧ gate = negate (qualified (ownId n v) condition) := by
  have hbail := Step.bail?_eq_some h.toTyped hc
  have hid := h.id (by rw [hbail]; simp)
  have htextual : TextOrAbsent (v.part "id") := fun x hx => (hid x hx).imp fun _ hs => hs.1
  obtain ⟨fields, rfl⟩ := h.record
  obtain ⟨fs, x, bail, text, q, hfs, hx, hcondition, htext, hq, rfl, rfl⟩ := split_inv hs
  obtain rfl : fields = fs := Option.some.inj hfs
  obtain rfl : bail = .str condition := Option.some.inj (hcondition.symm.trans hbail)
  have hown := get?_id_withId (n := n) htextual
  refine ⟨?_, ?_, ?_⟩
  · exact (Fields.get?_erase_ne (by decide)).trans (get?_withId (by decide))
  · rw [idAfter_of_bails htextual (by rw [hc]; simp), ← hown]
    exact Fields.get?_erase_ne (by decide)
  · obtain rfl : x = .str (ownId n (.record fields)) := Option.some.inj (hx.symm.trans hown)
    obtain rfl : text = ownId n (.record fields) := (Except.ok.inj htext).symm
    rw [qualify_eq (ownId_plain hid)] at hq
    rw [← Except.ok.inj hq]

/-- A step under a gate. -/
theorem part_if_of_gated (h : Step.Typed w) (hg : Step.gate? w = some gate) :
    w.part "if" = some (.str gate) := eq_of_word? h.gate hg

theorem under_cons {c : String} {cs : List String} {x : Option Value} :
    under cs (some (.str (Gate.joined (negate c) (word? x)))) = under (c :: cs) x := by
  have hword := word?_str (Gate.joined_ne_empty (negate_ne_empty c) (word? x))
  rw [under, under, if_neg (List.cons_ne_nil c cs), hword]
  split_ifs with hcs
  · subst hcs
    rfl
  · rfl

/-- **The `if` and the id of a step after bail conditions are resolved.** -/
theorem Resolves.exact (h : Resolves n steps out) (hs : ∀ v ∈ steps, Step.Readable v)
    (hv : steps[k]? = some v) (hw : out[k]? = some w) :
    w.part "if" = under (conditionsFrom n (steps.take k)) (v.part "if") ∧
      w.part "id" = idAfter (n + (conditionsFrom n (steps.take k)).length) v := by
  induction h generalizing k v with
  | nil => simp at hv
  | @keep n u rest out hu _ ih =>
    obtain ⟨hread, hrest⟩ := List.forall_mem_cons.mp hs
    have hnone := bail?_of_not_bails hread.toTyped hu
    cases k with
    | zero =>
      obtain rfl := Option.some.inj hv
      obtain rfl := Option.some.inj hw
      exact ⟨rfl, by rw [idAfter, if_neg fun h => h.1 hnone]⟩
    | succ k =>
      rw [List.take_succ_cons, conditionsFrom, hnone]
      exact ih hrest hv hw
  | @bail n u u' gate rest rest' out hu hsplit hgate _ ih =>
    obtain ⟨hread, hrest⟩ := List.forall_mem_cons.mp hs
    obtain ⟨condition, hc⟩ := bail?_of_bails hread.toTyped hu
    obtain ⟨hif, hid, rfl⟩ := split_exact hread hc hsplit
    cases k with
    | zero =>
      obtain rfl := Option.some.inj hv
      obtain rfl := Option.some.inj hw
      exact ⟨hif, hid⟩
    | succ k =>
      obtain ⟨gated, hgated, hall⟩ := Step.gateAll_total (fun x hx => (hrest x hx).toTyped)
        (negate_ne_empty (qualified (ownId n u) condition))
      obtain rfl := Except.ok.inj (hgate.symm.trans hgated)
      rw [List.getElem?_cons_succ] at hv hw
      obtain ⟨v', hv', htyped, hsame, hgate'⟩ := forall₂_getElem? hall hv
      have hread' : ∀ x ∈ rest', Step.Readable x := by
        intro x hx
        obtain ⟨y, hy, hx, hyx, -⟩ := forall₂_exists_left hall hx
        exact (hrest y hy).of_same hx hyx
      have hconditions : conditionsFrom (n + 1) (rest'.take k) =
          conditionsFrom (n + 1) (rest.take k) :=
        conditionsFrom_congr (List.forall₂_take k (hall.imp fun _ _ h => h.2.1))
      have hids : ∀ m, idAfter m v' = idAfter m v := by
        intro m
        rw [idAfter, Step.bail?, hsame.part (by simp), hsame.part (by simp), idAfter, Step.bail?]
      obtain ⟨hif', hid'⟩ := ih hread' hv' hw
      rw [hconditions, part_if_of_gated htyped hgate', Step.gate?, under_cons] at hif'
      rw [hconditions, hids] at hid'
      rw [List.take_succ_cons, conditionsFrom, hc, List.length_cons]
      refine ⟨hif', ?_⟩
      rw [hid', Nat.add_assoc, Nat.add_comm 1]

/-- What becomes of a step with some conditions in front of it. Its other fields have the values
that they had, after the edits of steps that stand in them. -/
structure Resolved (conditions : List String) (edits : List Edit) (v w : Value) : Prop where
  mark : w.mark? = v.mark?
  others : ∃ fields fields', v.fields? = some fields ∧ w.fields? = some fields' ∧
    Fields.without gateKeys fields' = (Fields.without gateKeys fields).applyAll edits
  gate : w.part "if" = under conditions (v.part "if")
  id : w.part "id" = idAfter (conditions.length + 1) v
  bail : w.part "bail_if" = none

/-- Dropping a bail condition leaves nothing of it, and nothing else goes. -/
theorem dropped_part (h : v.IsRecord) (ho : v.HoldsOnce) : (dropped v).part "bail_if" = none ∧
    (dropped v).part "if" = v.part "if" ∧ (dropped v).part "id" = v.part "id" := by
  obtain ⟨hsame, -⟩ := dropped_same h
  obtain ⟨fields, rfl⟩ := h
  exact ⟨Fields.Once.get?_erase (holdsOnce_record.mp ho), hsame.part (by simp),
    hsame.part (by simp)⟩

/-- What becomes of steps that stand at one place only. -/
theorem resolveAll_records (hs : ∀ v ∈ steps, Step.Readable v) (ho : ∀ v ∈ steps, v.HoldsOnce) :
    ∃ out, resolveAll steps = .ok (out, []) ∧ ∀ k v w, steps[k]? = some v → out[k]? = some w →
      Resolved (conditionsFrom 1 (steps.take k)) [] v w := by
  have hrecord : ∀ v ∈ steps, v.IsRecord := fun v hv => (hs v hv).record
  obtain ⟨out, hok⟩ := resolveAll_total hs
  obtain ⟨res, heq, hres⟩ := resolveAll_ok hrecord hok
  obtain ⟨rfl, -⟩ := Prod.mk.inj heq
  refine ⟨_, hok, fun k v w hv hw => ?_⟩
  rw [List.getElem?_map] at hw
  obtain ⟨u, hu, rfl⟩ := Option.map_eq_some_iff.mp hw
  have humem := List.mem_of_getElem? hu
  obtain ⟨hbail, hif, hid⟩ := dropped_part (hres.records hrecord u humem)
    (hres.holdsOnce ho u humem)
  obtain ⟨hgate, hown⟩ := hres.exact hs hv hu
  obtain ⟨u', hu', ⟨fields, fields', rfl, hfields', hsame⟩, -⟩ :=
    forall₂_getElem? (hres.kept hrecord) hv
  obtain rfl : u = u' := Option.some.inj (hu.symm.trans hu')
  refine ⟨by rw [hfields']; rfl, ⟨fields, fields', rfl, by rw [hfields']; rfl, ?_⟩,
    hif.trans hgate, ?_, hbail⟩
  · rw [Fields.applyAll_nil]
    exact hsame.symm
  · rw [hid, hown, Nat.add_comm]

/-! ## Steps that may also stand elsewhere -/

/-- Gate, bail condition and id of the step are texts, and no key stands twice. -/
structure Textual (v : Value) : Prop where
  gate : TextOrAbsent (v.part "if")
  bail : TextOrAbsent (v.part "bail_if")
  id : ∀ x, v.part "id" = some x → ∃ s, x = .str s ∧ '\\' ∉ s.toList
  once : v.HoldsOnce

theorem Textual.readable (h : Textual v) (hv : v.isMap) : Step.Readable v.detached := by
  obtain ⟨hgate, hbail, hid, -⟩ := h
  rw [← part_detached hv] at hgate hbail hid
  obtain ⟨fields, hf⟩ := isMap_iff.mp hv
  exact { record := ⟨fields, detached_eq hf⟩, gate := hgate, bail := hbail, id := fun _ => hid }

theorem Textual.once_detached (h : Textual v) (hv : v.isMap) : v.detached.HoldsOnce := by
  obtain ⟨fields, hf⟩ := isMap_iff.mp hv
  rw [detached_eq hf]
  exact holdsOnce_record.mpr (h.once fields hf)

theorem Textual.textsUnder (h : Textual v) (hf : v.fields? = some fields) :
    fields.TextsUnder gateKeys := by
  have hpart : ∀ a ∈ gateKeys, TextOrAbsent (Fields.get? (.str a) fields) := by
    have hget : ∀ key, v.part key = Fields.get? key fields := fun key => by rw [Value.part, hf]; rfl
    simp only [gateKeys, List.forall_mem_cons, List.not_mem_nil, false_implies, implies_true,
      and_true, ← hget]
    exact ⟨fun x hx => (h.id x hx).imp fun _ hs => hs.1, h.gate, h.bail⟩
  rintro ⟨k, x⟩ hmem a ha rfl
  exact hpart a ha x ((h.once fields hf).get?_of_mem hmem)

/-- Marks have no part in conditions. -/
theorem conditionsFrom_detached (h : ∀ v ∈ steps, v.isMap) :
    conditionsFrom n (steps.map Value.detached) = conditionsFrom n steps := by
  induction steps generalizing n with
  | nil => rfl
  | cons v rest ih =>
    obtain ⟨hv, hrest⟩ := List.forall_mem_cons.mp h
    have hpart := part_detached hv
    rw [List.map_cons, conditionsFrom, conditionsFrom, Step.bail?, hpart, Step.bail?, ownId, hpart,
      ownId, ih hrest, ih hrest]

/-- What becomes of a step is what becomes of it without its mark. -/
theorem Resolved.of_detached {conditions : List String} {edits : List Edit} {w' : Value}
    (h : Resolved conditions [] v.detached w') (hv : v.isMap) (hw : Follows edits w' w)
    (hmark : w.mark? = v.mark?) : Resolved conditions edits v w := by
  obtain ⟨-, ⟨fields, _, hfields, hfs, hsame⟩, hgate, hid, hbail⟩ := h
  obtain ⟨fs, rfl, hw, ht⟩ := hw
  obtain rfl := Option.some.inj hfs
  have hread : ∀ a ∈ gateKeys, w.part (.str a) = (Value.record fs).part (.str a) := fun a ha => by
    rw [Value.part, hw]
    exact ht.get?_applyAll ha
  have hpart := part_detached hv
  obtain ⟨fields₀, hf⟩ := isMap_iff.mp hv
  rw [detached_eq hf] at hfields
  obtain rfl := Option.some.inj hfields
  refine ⟨hmark, ⟨fields₀, fs.applyAll edits, hf, hw, ?_⟩, ?_, ?_, ?_⟩
  · rw [Fields.without_applyAll, hsame, Fields.applyAll_nil]
  · rw [hread "if" (by decide), hgate, hpart]
  · rw [hread "id" (by decide), hid, idAfter, idAfter, Step.bail?, Step.bail?, hpart, hpart]
  · rw [hread "bail_if" (by decide), hbail]

/-- **What becomes of each step is known in advance.** Distinct steps with texts are resolved, and
only these steps are edited. -/
theorem resolveAll_exact (hs : Distinct steps) (ht : ∀ v ∈ steps, Textual v) :
    ∃ out log, resolveAll steps = .ok (out, log) ∧ out.length = steps.length ∧
      (∀ e ∈ log, some e.mark ∈ steps.map mark?) ∧
      ∀ k v w, steps[k]? = some v → out[k]? = some w →
        Resolved (conditionsFrom 1 (steps.take k)) log v w := by
  obtain ⟨out', hok, hspec⟩ := resolveAll_records
    (List.forall_mem_map.mpr fun v hv => (ht v hv).readable (hs.isMap v hv))
    (List.forall_mem_map.mpr fun v hv => (ht v hv).once_detached (hs.isMap v hv))
  obtain ⟨out, log, hrun, htwin⟩ := hs.resolveAll (fun v hv _ hf => (ht v hv).textsUnder hf) hok
  refine ⟨out, log, hrun, ?_, htwin.own, fun k v w hv hw => ?_⟩
  · simpa using congrArg List.length htwin.same
  have hvmem := List.mem_of_getElem? hv
  have hmark : (out.map mark?)[k]? = (steps.map mark?)[k]? := by rw [htwin.same]
  rw [List.getElem?_map, List.getElem?_map, hv, hw] at hmark
  have hk : k < out'.length := by
    rw [htwin.follows.length_eq]
    exact (List.getElem?_eq_some_iff.mp hw).1
  obtain ⟨w₀, hw₀, hfollows⟩ := forall₂_getElem? htwin.follows (List.getElem?_eq_getElem hk)
  obtain rfl : w = w₀ := Option.some.inj (hw.symm.trans hw₀)
  refine .of_detached ?_ (hs.isMap v hvmem) hfollows (Option.some.inj hmark)
  rw [← conditionsFrom_detached fun u hu => hs.isMap u (List.mem_of_mem_take hu), List.map_take]
  exact hspec k v.detached _ (by rw [List.getElem?_map, hv]; rfl) (List.getElem?_eq_getElem hk)

/-- A step in whose fields no step stands keeps its other fields as they are. -/
theorem Resolved.others_same {conditions : List String} {edits : List Edit} {fields' : Fields}
    (h : Resolved conditions edits v w) (he : ∀ e ∈ edits, some e.mark ∈ steps.map mark?)
    (hv : v.fields? = some fields) (hw : w.fields? = some fields')
    (havoids : ∀ u ∈ steps, ∀ f ∈ fields, u.Avoids f.2) :
    Fields.without gateKeys fields' = Fields.without gateKeys fields := by
  obtain ⟨-, ⟨_, _, hv', hw', hsame⟩, -⟩ := h
  obtain rfl := Option.some.inj (hv.symm.trans hv')
  obtain rfl := Option.some.inj (hw.symm.trans hw')
  have hstays : ∀ f ∈ Fields.without gateKeys fields, (f.1, f.2.applyAll edits) = f := by
    intro f hf
    rw [applyAll_of_not_mem fun e hmem => ?_]
    obtain ⟨u, hu, hmark⟩ := List.mem_map.mp (he e hmem)
    exact havoids u hu f (List.mem_of_mem_filter hf) e.mark hmark
  exact hsame.trans (List.map_congr_left hstays |>.trans (List.map_id _))

/-- A step that stands in itself. -/
def buildStep : Value :=
  .map (some 7) [("run", .str "build"), ("if", .str "success()"), ("needs", .again 7)]

/-- A step without an id that bails, one that stands in itself and in the last one, one with an id
and a blank `if`, and one behind them. -/
def bailingSteps : List Value :=
  [.record [("run", .str "check"), ("bail_if", .str "outputs.skip == 'true'")], buildStep,
    .record [("id", .str "probe"), ("bail_if", .str "outputs.done"), ("if", .str "")],
    .record [("run", .str "test"), ("needs", buildStep)]]

theorem bailingSteps_textual : ∀ v ∈ bailingSteps, Textual v := by
  have hid : ∀ x, (none : Option Value) = some x → ∃ s, x = .str s ∧ '\\' ∉ s.toList := by simp
  simp only [bailingSteps, List.forall_mem_cons, List.not_mem_nil, false_implies, implies_true,
    and_true]
  refine ⟨⟨textOrAbsent_none, textOrAbsent_str, hid, ?_⟩,
    ⟨textOrAbsent_str, textOrAbsent_none, hid, ?_⟩, ⟨textOrAbsent_str, textOrAbsent_str, ?_, ?_⟩,
    ⟨textOrAbsent_none, textOrAbsent_none, hid, ?_⟩⟩
  · exact holdsOnce_record.mpr (by decide)
  · intro fields hf
    obtain rfl := Option.some.inj hf
    decide
  · intro x hx
    exact ⟨"probe", (Option.some.inj hx).symm, by decide⟩
  · exact holdsOnce_record.mpr (by decide)
  · exact holdsOnce_record.mpr (by decide)

/-- The last step runs unless one of the two conditions in front of it holds. -/
theorem resolveAll_exact_bailingSteps : Distinct bailingSteps ∧ (∀ v ∈ bailingSteps, Textual v) ∧
    ∃ out log, resolveAll bailingSteps = .ok (out, log) ∧ out.length = 4 ∧
      ∀ w, out[3]? = some w → w.part "if" = some (.str
        "(!(steps.probe.outputs.done)) && (!(steps.bail_if_1.outputs.skip == 'true'))") := by
  have hs : Distinct bailingSteps := by decide
  obtain ⟨out, log, hok, hlen, -, hspec⟩ := resolveAll_exact hs bailingSteps_textual
  have hconditions : conditionsFrom 1 (bailingSteps.take 3) =
      ["steps.bail_if_1.outputs.skip == 'true'", "steps.probe.outputs.done"] := by decide
  refine ⟨hs, bailingSteps_textual, out, log, hok, hlen, fun w hw => ?_⟩
  rw [(hspec 3 _ w rfl hw).gate, hconditions]
  rfl

end Bail

end StepLoom
