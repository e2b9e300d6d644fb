import StepLoom.Proofs.Check
import StepLoom.Proofs.Compile.Blocks

/-!
# The steps of setups

A setup contributes nothing if it has no steps. Its only step is renamed, and several steps stand
between two markers. `Copied` says so of the steps before they are gated, and `OfSetup` of a block,
up to the fields that gates and bail conditions change.

**Theorem (`ofSetup_ok`).** The block of a setup is of this form.

**Theorem (`OfSetup.kept`).** It still is once bail conditions are resolved.
-/

namespace StepLoom

namespace Block

open Value

/-- A copy of a step, as a mapping, that keeps all fields apart from some keys. -/
def CopyOf (keys : List String) (step v : Value) : Prop :=
  ∃ fields, step.asFields = .ok fields ∧ Same keys (.record fields) v

/-- The block of a setup: nothing for no steps, one step under a name that tells the setup, more
steps between two markers. -/
inductive OfSetup (name : String) : List Value → List Value → Prop
  | none : OfSetup name [] []
  | one {step v : Value} {label : String} (hc : CopyOf ["name", "id", "if", "bail_if"] step v)
      (hl : nameText (step.part "name") = .ok label)
      (hn : v.part "name" = some (.str (singleLabel name label))) : OfSetup name [step] [v]
  | many {steps copies : List Value} {first last : Value} (h2 : 2 ≤ steps.length)
      (hf : Same ["if"] (startMarker name) first)
      (hc : List.Forall₂ (CopyOf ["id", "if", "bail_if"]) steps copies)
      (hl : Same ["if"] (finishMarker name) last) :
      OfSetup name steps (first :: copies ++ [last])

variable {name : String} {definition v w : Value} {c : Option String} {b b' items : List Value}

/-! ## Gated steps -/

/-- A guarded step is the step itself, or its fields with a gate among them. -/
theorem guardWith_cases (h : Gate.guardWith c v = .ok w) : w = v ∨
    ∃ gate fields, v.spread = .ok fields ∧ w = .record (Fields.put "if" (.str gate) fields) := by
  unfold Gate.guardWith at h
  split at h
  · exact Or.inl (Except.ok.inj h).symm
  · obtain ⟨existing, -, h⟩ := bind_eq_ok.mp h
    obtain ⟨gate, -, h⟩ := bind_eq_ok.mp h
    obtain ⟨fields, hfields, h⟩ := bind_eq_ok.mp h
    exact Or.inr ⟨gate, fields, hfields, (Except.ok.inj h).symm⟩

theorem guardWith_ok (h : Gate.guardWith c v = .ok w) (hv : v.IsRecord) : Same ["if"] v w := by
  obtain ⟨fields, rfl⟩ := hv
  unfold Gate.guardWith at h
  cases hc : c.filter fun c => !c.isEmpty with
  | none =>
    simp only [hc] at h
    obtain rfl := Except.ok.inj h
    exact Same.refl ⟨fields, rfl⟩
  | some c =>
    simp only [hc] at h
    change (Gate.inFrontOf c (Fields.get? "if" fields) >>= fun gate => pure _) = _ at h
    cases hg : Gate.inFrontOf c (Fields.get? "if" fields) with
    | error e => rw [hg] at h; cases h
    | ok gate =>
      rw [hg] at h
      obtain rfl := Except.ok.inj h
      exact ⟨fields, _, rfl, rfl, (Fields.without_put (by simp)).symm⟩

/-- A path check has its step id as `id`. -/
theorem id_of_check {outId : String} {patterns : List String} {check : Fields}
    (h : Check.step outId patterns = .ok check) (hv : Same ["if"] (.record check) v) :
    v.part "id" = some (.str outId) := by
  rw [hv.part (by simp)]
  obtain ⟨found, -, rfl⟩ := Check.step_ok h
  rfl

theorem CopyOf.same {keys : List String} {step : Value} (h : CopyOf keys step v)
    (h' : Same keys v w) : CopyOf keys step w := by
  obtain ⟨fields, hf, hs⟩ := h
  exact ⟨fields, hf, hs.trans h'⟩

theorem CopyOf.isRecord {keys : List String} {step : Value} (h : CopyOf keys step v) :
    v.IsRecord := by
  obtain ⟨fields, -, hs⟩ := h
  exact hs.isRecord

theorem asFields_of_fields? {step : Value} {fields : Fields} (h : step.fields? = some fields) :
    step.asFields = .ok fields := by
  rw [asFields, h]

/-! ## Steps of setups -/

def copyStep (step : Value) : Except Fault Value := do return .record (← step.asFields)

/-- The steps of a setup before they are gated. -/
def copies (name : String) (definition : Value) : Except Fault (List Value) := do
  match ← Setup.steps definition with
  | [] => return []
  | [step] =>
    let label := singleLabel name (← nameText (← step.field? "name"))
    return [.record (Fields.put "name" (.str label) (← step.spread))]
  | steps =>
    let copies ← steps.mapM copyStep
    return startMarker name :: copies ++ [finishMarker name]

/-- All steps of a setup get the same gate. -/
theorem ofSetup_eq : ofSetup name definition c =
    copies name definition >>= fun vs => vs.mapM (Gate.guardWith c) := by
  rw [ofSetup, copies]
  cases Setup.steps definition with
  | error e => rfl
  | ok items =>
    match items with
    | [] => rfl
    | [step] =>
      change (step.field? "name" >>= fun name => _) = (step.field? "name" >>= fun name => _) >>= _
      cases step.field? "name" with
      | error e => rfl
      | ok found =>
        change (nameText found >>= fun text => _) = (nameText found >>= fun text => _) >>= _
        cases nameText found with
        | error e => rfl
        | ok text =>
          change (step.spread >>= fun fields => _) = (step.spread >>= fun fields => _) >>= _
          cases step.spread with
          | error e => rfl
          | ok fields =>
            change _ = List.mapM (Gate.guardWith c) [_]
            rw [List.mapM_cons, List.mapM_nil]
            rfl
    | first :: second :: rest =>
      change ((first :: second :: rest).mapM copyStep >>= fun copies => List.mapM _ _) =
        ((first :: second :: rest).mapM copyStep >>= fun copies =>
          (pure _ : Except Fault (List Value))) >>= _
      cases (first :: second :: rest).mapM copyStep <;> rfl

/-- The steps of a setup before they are gated, as copies that keep all fields. -/
inductive Copied (name : String) : List Value → List Value → Prop
  | none : Copied name [] []
  | one {step : Value} {label : String} {fields : Fields} (hf : step.fields? = some fields)
      (hl : nameText (step.part "name") = .ok label) :
      Copied name [step] [.record (Fields.put "name" (.str (singleLabel name label)) fields)]
  | many {steps vs : List Value} (h2 : 2 ≤ steps.length)
      (hc : List.Forall₂ (fun step v => ∃ fields, step.asFields = .ok fields ∧ v = .record fields)
        steps vs) : Copied name steps (startMarker name :: vs ++ [finishMarker name])

theorem copies_inv (h : copies name definition = .ok b) :
    ∃ items, Setup.steps definition = .ok items ∧ Copied name items b := by
  obtain ⟨items, hitems, h⟩ := bind_eq_ok.mp h
  refine ⟨items, hitems, ?_⟩
  match items with
  | [] =>
    obtain rfl := Except.ok.inj h
    exact .none
  | [step] =>
    obtain ⟨found, hfound, h⟩ := bind_eq_ok.mp h
    obtain ⟨label, hlabel, h⟩ := bind_eq_ok.mp h
    obtain ⟨fields, hspread, h⟩ := bind_eq_ok.mp h
    have hfields := fields?_of_spread hspread
    rw [field?, hfields] at hfound
    obtain rfl := Except.ok.inj h
    refine .one hfields ?_
    rwa [part, hfields, Option.bind_some, Except.ok.inj hfound]
  | first :: second :: rest =>
    obtain ⟨vs, hvs, h⟩ := bind_eq_ok.mp h
    obtain rfl := Except.ok.inj h
    refine .many (by simp) ((mapM_ok hvs).imp fun step v hcopy => ?_)
    obtain ⟨fields, hfields, hcopy⟩ := bind_eq_ok.mp hcopy
    exact ⟨fields, hfields, (Except.ok.inj hcopy).symm⟩

theorem Copied.ofSetup (h : Copied name items b) : OfSetup name items b := by
  cases h with
  | none => exact .none
  | one hf hl =>
    refine .one ⟨_, asFields_of_fields? hf, _, _, rfl, rfl, ?_⟩ hl Fields.get?_put_self
    exact (Fields.without_put (by simp)).symm
  | many h2 hc =>
    refine .many h2 (Same.refl ⟨_, rfl⟩) (hc.imp ?_) (Same.refl ⟨_, rfl⟩)
    rintro step v ⟨fields, hfields, rfl⟩
    exact ⟨fields, hfields, Same.refl ⟨fields, rfl⟩⟩

/-- What is copied. -/
theorem Copied.mem (h : Copied name items b) : ∀ v ∈ b, v = startMarker name ∨
    v = finishMarker name ∨ ∃ item ∈ items, ∃ fields, item.asFields = .ok fields ∧
      (v = .record fields ∨ ∃ label, v = .record (Fields.put "name" (.str label) fields)) := by
  intro v hv
  cases h with
  | none => cases hv
  | one hf hl =>
    obtain rfl := List.mem_singleton.mp hv
    exact Or.inr (Or.inr ⟨_, by simp, _, asFields_of_fields? hf, Or.inr ⟨_, rfl⟩⟩)
  | many h2 hc =>
    rcases List.mem_append.mp hv with hv | hv
    · rcases List.mem_cons.mp hv with rfl | hv
      · exact Or.inl rfl
      · obtain ⟨item, hitem, fields, hfields, rfl⟩ := forall₂_exists_left hc hv
        exact Or.inr (Or.inr ⟨item, hitem, fields, hfields, Or.inl rfl⟩)
    · exact Or.inr (Or.inl (List.mem_singleton.mp hv))

/-- The steps of a setup are of the form that `OfSetup` says. -/
theorem copies_ok (h : copies name definition = .ok b) :
    ∃ items, Setup.steps definition = .ok items ∧ OfSetup name items b := by
  obtain ⟨items, hitems, hcopied⟩ := copies_inv h
  exact ⟨items, hitems, hcopied.ofSetup⟩

theorem mem_copies (h : copies name definition = .ok b) (hs : Setup.steps definition = .ok items)
    (hf : ∀ item ∈ items, ∃ fields, item.fields? = some fields) :
    ∀ v ∈ b, v = startMarker name ∨ v = finishMarker name ∨
      ∃ item ∈ items, ∃ fields, item.fields? = some fields ∧ Same ["name"] (.record fields) v := by
  intro v hv
  obtain ⟨items', hitems, hcopied⟩ := copies_inv h
  obtain rfl := Except.ok.inj (hs.symm.trans hitems)
  refine (hcopied.mem v hv).imp_right (Or.imp_right fun ⟨item, hitem, fields, hfields, hcopy⟩ => ?_)
  obtain ⟨fs, hfs⟩ := hf item hitem
  obtain rfl := Except.ok.inj ((asFields_of_fields? hfs).symm.trans hfields)
  refine ⟨item, hitem, fs, hfs, ?_⟩
  rcases hcopy with rfl | ⟨label, rfl⟩
  · exact Same.refl ⟨fs, rfl⟩
  · exact ⟨fs, _, rfl, rfl, (Fields.without_put (by simp)).symm⟩

theorem OfSetup.isRecord (h : OfSetup name items b) : ∀ v ∈ b, v.IsRecord := by
  cases h with
  | none => simp
  | one hc _ _ => simpa using hc.isRecord
  | many _ hf hc hl =>
    intro v hv
    rcases List.mem_append.mp hv with hv | hv
    · rcases List.mem_cons.mp hv with rfl | hv
      · exact hf.isRecord
      · obtain ⟨step, -, hcopy⟩ := forall₂_exists_left hc hv
        exact hcopy.isRecord
    · obtain rfl := List.mem_singleton.mp hv
      exact hl.isRecord

theorem OfSetup.kept (h : OfSetup name items b) (hk : List.Forall₂ Bail.Kept b b') :
    OfSetup name items b' := by
  cases h with
  | none =>
    obtain rfl := List.forall₂_nil_left_iff.mp hk
    exact .none
  | one hc hl hn =>
    obtain ⟨w, none, hw, hnone, rfl⟩ := List.forall₂_cons_left_iff.mp hk
    obtain rfl := List.forall₂_nil_left_iff.mp hnone
    exact .one (hc.same (hw.1.mono (by simp))) hl (by rw [hw.1.part (by simp), hn])
  | many h2 hf hc hl =>
    obtain ⟨start, body, hstart, hbody, rfl⟩ := List.forall₂_cons_left_iff.mp hk
    obtain ⟨middle, last, rfl, hmiddle, hlast⟩ := forall₂_append hbody
    obtain ⟨finish, none, hfinish, hnone, rfl⟩ := List.forall₂_cons_left_iff.mp hlast
    obtain rfl := List.forall₂_nil_left_iff.mp hnone
    -- Markers have no bail condition, so they get no id.
    refine .many h2 (hf.trans (hstart.2 ?_)) ?_ (hl.trans (hfinish.2 ?_))
    · rw [hf.part (by simp)]
      rfl
    · exact forall₂_comp (fun _ _ _ hcopy hw => hcopy.same (hw.1.mono (by simp))) hc hmiddle
    · rw [hl.part (by simp)]
      rfl

/-- The block of a setup before bail conditions are resolved. -/
theorem ofSetup_ok (h : ofSetup name definition c = .ok b) :
    ∃ items, Setup.steps definition = .ok items ∧ OfSetup name items b := by
  rw [ofSetup_eq] at h
  cases hcopies : copies name definition with
  | error e => rw [hcopies] at h; cases h
  | ok vs =>
    rw [hcopies] at h
    obtain ⟨items, hitems, hof⟩ := copies_ok hcopies
    have hboth := (List.forall₂_and_left _ _).mpr ⟨hof.isRecord, mapM_ok h⟩
    refine ⟨items, hitems, hof.kept (hboth.imp fun v w hvw => ?_)⟩
    have hsame := guardWith_ok hvw.2 hvw.1
    exact ⟨hsame.mono (by simp), fun _ => hsame⟩

end Block

end StepLoom
