import StepLoom.Proofs.Compile.Stacked
import StepLoom.Proofs.Condition.Bails

/-!
# What gates mean

A gate is joined with the `if` of a step as text. It adds its condition to the `if` as long as no
text on the way has an embedded expression; if there is one, the step always runs.

**Theorem (`tells_gated`).** What the `if` of a step means under the condition on its path checks
and under the negated bail conditions of earlier steps.
-/

namespace StepLoom

namespace Condition

open Gate (joined guarded stacked)

/-- The text holds as a condition. -/
def Holds (v : Valuation) (text : String) : Prop := ∃ s, Means text.toList s ∧ s.holds v = true

/-- A step with this `if` runs. -/
def Runs (v : Valuation) (gate : Option String) : Prop := ∀ text, gate = some text → Holds v text

/-- The `if` has a meaning. -/
def Accepted (gate : Option String) : Prop :=
  ∀ text, gate = some text → ∃ s, Means text.toList s

/-- The text is one embedded expression. -/
def Wrapped (text : String) : Prop := IsCondition text.toList true

/-- The text is an expression, maybe embedded. -/
def WellFormed (text : String) : Prop := ∃ wrapped, IsCondition text.toList wrapped

/-- What an `if` means: whether it is without embedded expressions, and when it lets a step run. -/
def Tells (gate : Option String) (bare : Prop) (holds : Valuation → Prop) : Prop :=
  match gate with
  | none => bare ∧ ∀ v, holds v
  | some text => ∃ s, Means text.toList s ∧ (s.isBare = true ↔ bare) ∧
      ∀ v, s.holds v = true ↔ holds v

variable {gate : Option String} {text condition : String} {texts : List String} {bare bare' : Prop}
  {holds holds' : Valuation → Prop} {v : Valuation}

theorem holds_iff {s : Sense} (h : Means text.toList s) : Holds v text ↔ s.holds v = true := by
  constructor
  · rintro ⟨s', hs', hholds⟩
    rwa [h.unique hs']
  · exact fun hs => ⟨s, h, hs⟩

theorem Tells.accepted (h : Tells gate bare holds) : Accepted gate := by
  rintro text rfl
  obtain ⟨s, hs, -⟩ := h
  exact ⟨s, hs⟩

theorem Tells.runs_iff (h : Tells gate bare holds) (v : Valuation) : Runs v gate ↔ holds v := by
  cases gate with
  | none => exact iff_of_true (by simp [Runs]) (h.2 v)
  | some text =>
    obtain ⟨s, hs, -, hholds⟩ := h
    rw [← hholds, ← holds_iff hs]
    simp [Runs]

theorem Tells.congr (h : Tells gate bare holds) (hb : bare ↔ bare') (hh : ∀ v, holds v ↔ holds' v) :
    Tells gate bare' holds' := by
  cases gate with
  | none => exact ⟨hb.mp h.1, fun v => (hh v).mp (h.2 v)⟩
  | some text =>
    obtain ⟨s, hs, hbare, hholds⟩ := h
    exact ⟨s, hs, hbare.trans hb, fun v => (hholds v).trans (hh v)⟩

/-- A condition is bare unless it is wrapped. -/
theorem WellFormed.means (h : WellFormed text) : ∃ s, Means text.toList s ∧
    (s.isBare = true ↔ ¬ Wrapped text) ∧ ∀ v, s.holds v = true ↔ Holds v text := by
  obtain ⟨wrapped, e, he⟩ := h
  refine ⟨_, he, ?_, fun v => (holds_iff he).symm⟩
  cases wrapped with
  | false =>
    refine iff_of_true rfl ?_
    rintro ⟨e', he'⟩
    cases he.unique he'
  | true => exact iff_of_false (by simp [Sense.isBare]) (not_not_intro ⟨e, he⟩)

/-- The `if` that a step is written with. -/
theorem tells_written (h : ∀ text, gate = some text → WellFormed text) :
    Tells gate (∀ text, gate = some text → ¬ Wrapped text) fun v => Runs v gate := by
  cases gate with
  | none => simp [Tells, Runs]
  | some text =>
    obtain ⟨s, hs, hbare, hholds⟩ := (h text rfl).means
    exact ⟨s, hs, by simpa using hbare, fun v => by simpa [Runs] using hholds v⟩

/-! ## Qualified conditions -/

theorem isName_defaultId (n : Nat) : isName (Bail.defaultId n).toList := by
  have hchars : ∀ c ∈ (toString n).toList, isNameChar c := by
    intro c hc
    have hdigit : c.isDigit :=
      Nat.isDigit_of_mem_toDigits (by decide) (by decide) (b := 10) (n := n) (by simpa using hc)
    simp [isNameChar, Char.isAlphanum, hdigit]
  refine isName_iff.mpr ⟨'b', "ail_if_".toList ++ (toString n).toList, ?_, rfl, fun c hc => ?_⟩
  · simp [Bail.defaultId]
  · rcases List.mem_append.mp hc with hc | hc
    · exact List.all_eq_true.mp (by decide : "ail_if_".toList.all isNameChar = true) c hc
    · exact hchars c hc

/-- A condition on a step's outputs stays one if the step's id is a name. -/
theorem WellFormed.qualified {id q : String} (hid : isName id.toList)
    (hq : Bail.qualify id (.str text) = .ok q) (h : WellFormed text) : WellFormed q := by
  have hslash : '\\' ∉ id.toList := by
    obtain ⟨c, cs, heq, hc, hcs⟩ := isName_iff.mp hid
    rw [heq]
    intro hmem
    rcases List.mem_cons.mp hmem with rfl | hmem
    · cases hc
    · exact absurd (hcs _ hmem) (by decide)
  rw [Bail.qualify_eq hslash] at hq
  obtain rfl := Except.ok.inj hq
  obtain ⟨wrapped, hcond⟩ := h
  have htemplate : ("steps." ++ id ++ ".outputs.").toList = reference id.toList := by
    simp [reference]
  refine ⟨wrapped, hcond.qualified hid ?_⟩
  rw [Bail.qualified, String.toList_ofList, htemplate]
  exact qualified_qualifyFrom 0 ' ' text.toList

/-! ## Joining -/

/-- A gate that is put in front of another one, or of none. It holds whenever it is not bare. -/
theorem Tells.joined (hc : Tells (some condition) bare fun v => ¬ bare ∨ holds v)
    (hg : Tells gate bare' holds') : Tells (some (joined condition gate)) (bare ∧ bare')
      fun v => ¬ (bare ∧ bare') ∨ (holds v ∧ holds' v) := by
  obtain ⟨s, hs, hbare, hholds⟩ := hc
  cases gate with
  | none =>
    refine ⟨s, hs, by simp [hbare, hg.1], fun v => ?_⟩
    rw [hholds]
    simp [hg.1, hg.2 v]
  | some text =>
    obtain ⟨s', hs', hbare', hholds'⟩ := hg
    obtain ⟨t, ht, htbare, htholds⟩ := hs.both hs'
    refine ⟨t, ht, by simp [htbare, hbare, hbare'], fun v => ?_⟩
    rw [htholds, htbare, Bool.or_eq_true, Bool.and_eq_true, hholds, hholds', Bool.not_eq_true',
      ← Bool.not_eq_true, Bool.and_eq_true, hbare, hbare']
    by_cases hb : bare ∧ bare'
    · simp [hb.1, hb.2]
    · simp [hb]

/-- The negation of a bail condition. -/
theorem tells_negate (h : WellFormed text) : Tells (some (Bail.negate text)) (¬ Wrapped text)
    fun v => ¬ ¬ Wrapped text ∨ ¬ Holds v text := by
  obtain ⟨s, hs, hbare, hholds⟩ := h.means
  obtain ⟨t, ht, htbare, htholds⟩ := hs.negate
  refine ⟨t, ht, by rw [htbare, hbare], fun v => ?_⟩
  rw [htholds, htbare, Bool.or_eq_true, Bool.not_eq_true', Bool.not_eq_true', ← Bool.not_eq_true,
    ← Bool.not_eq_true, hbare, hholds]

/-- Negated bail conditions in front of a gate that has been joined. -/
theorem Tells.stacked (hg : Tells gate bare fun v => ¬ bare ∨ holds v)
    (ht : ∀ text ∈ texts, WellFormed text) : Tells (stacked texts gate)
      (bare ∧ ∀ text ∈ texts, ¬ Wrapped text) fun v =>
        ¬ (bare ∧ ∀ text ∈ texts, ¬ Wrapped text) ∨
          (holds v ∧ ∀ text ∈ texts, ¬ Holds v text) := by
  induction texts generalizing gate bare holds with
  | nil => exact hg.congr (by simp) (by simp)
  | cons text texts ih =>
    have hfirst := (tells_negate (ht text (by simp))).joined hg
    have hjoined : Tells (some (Gate.joined (Bail.negate text) gate)) (¬ Wrapped text ∧ bare)
        fun v => ¬ (¬ Wrapped text ∧ bare) ∨ (¬ Holds v text ∧ holds v) := by
      refine hfirst.congr Iff.rfl fun v => ?_
      by_cases hb : bare <;> simp [hb]
    refine (ih hjoined fun u hu => ht u (List.mem_cons_of_mem text hu)).congr ?_ fun v => ?_
    · simp only [List.forall_mem_cons]
      tauto
    · simp only [List.forall_mem_cons]
      tauto

/-! ## All gates of a step -/

/-- The condition on path checks, if there is one. -/
def checked (ids : Option (List String)) : Option String :=
  ids.map fun ids => " || ".intercalate (ids.map Gate.changed)

theorem intercalate_ne_empty {ids : List String} (h : ids ≠ []) :
    " || ".intercalate (ids.map Gate.changed) ≠ "" := by
  obtain ⟨id, ids, rfl⟩ := List.exists_cons_of_ne_nil h
  intro he
  have htext := congrArg String.toList he
  cases ids with
  | nil => simp [Gate.changed] at htext
  | cons next ids => simp [Gate.changed, String.toList_intercalate] at htext

/-- The condition on path checks in front of the `if` of a step. -/
theorem tells_guarded {ids : List String} (hg : ∀ text, gate = some text → WellFormed text)
    (hne : ids ≠ []) (hids : ∀ id ∈ ids, isName id.toList) :
    Tells (guarded (checked (some ids)) gate) (∀ text, gate = some text → ¬ Wrapped text)
      fun v => ¬ (∀ text, gate = some text → ¬ Wrapped text) ∨
        (Runs v gate ∧ ∃ id ∈ ids, v.changed id = true) := by
  obtain ⟨s, hs, hbare, hholds⟩ := means_intercalate hne hids
  have hchecks : Tells (checked (some ids)) True
      fun v => ¬ True ∨ ∃ id ∈ ids, v.changed id = true :=
    ⟨s, hs, by simp [hbare], fun v => by simp [hholds]⟩
  have hguarded : guarded (checked (some ids)) gate =
      some (joined (" || ".intercalate (ids.map Gate.changed)) gate) := by
    have hfilter : (checked (some ids)).filter (fun c => !c.isEmpty) = checked (some ids) := by
      rw [checked, Option.map_some, Option.filter_some, if_pos]
      simpa using intercalate_ne_empty hne
    rw [guarded, hfilter]
    rfl
  rw [hguarded]
  refine (Tells.joined hchecks (tells_written hg)).congr (by simp) fun v => ?_
  rw [true_and]
  tauto

/-- **What the `if` of a step means under all gates that are put on it.** -/
theorem tells_gated {ids : Option (List String)}
    (hg : ∀ text, gate = some text → WellFormed text) (ht : ∀ text ∈ texts, WellFormed text)
    (hids : ∀ l, ids = some l → l ≠ [] ∧ ∀ id ∈ l, isName id.toList) :
    Accepted (stacked texts (guarded (checked ids) gate)) ∧
    ∀ v, Runs v (stacked texts (guarded (checked ids) gate)) ↔
      ((ids ≠ none ∨ texts ≠ []) ∧
        ((∃ text, gate = some text ∧ Wrapped text) ∨ ∃ text ∈ texts, Wrapped text)) ∨
      (Runs v gate ∧ (∀ l, ids = some l → ∃ id ∈ l, v.changed id = true) ∧
        ∀ text ∈ texts, ¬ Holds v text) := by
  have hembeds : ¬ ((∀ text, gate = some text → ¬ Wrapped text) ∧
      ∀ text ∈ texts, ¬ Wrapped text) ↔
      (∃ text, gate = some text ∧ Wrapped text) ∨ ∃ text ∈ texts, Wrapped text := by
    simp only [not_and_or, not_forall, not_not, exists_prop]
  cases ids with
  | some ids =>
    obtain ⟨hne, hnames⟩ := hids ids rfl
    have htells := (tells_guarded hg hne hnames).stacked ht
    refine ⟨htells.accepted, fun v => ?_⟩
    rw [htells.runs_iff v, hembeds]
    simp [and_assoc]
  | none =>
    have hguarded : guarded (checked none) gate = gate := rfl
    rw [hguarded]
    cases texts with
    | nil =>
      have htells := tells_written hg
      refine ⟨htells.accepted, fun v => ?_⟩
      simp [stacked]
    | cons text texts =>
      have hfirst : Tells (some (joined (Bail.negate text) gate))
          (¬ Wrapped text ∧ ∀ text, gate = some text → ¬ Wrapped text) _ :=
        (tells_negate (ht text (by simp))).joined (tells_written hg)
      have htells := hfirst.stacked fun u hu => ht u (List.mem_cons_of_mem text hu)
      refine ⟨htells.accepted, fun v => ?_⟩
      rw [← hembeds]
      have hgated : (none : Option (List String)) ≠ none ∨ text :: texts ≠ [] := Or.inr (by simp)
      have hnone : ∀ l : List String, none = some l → ∃ id ∈ l, v.changed id = true := by simp
      refine (htells.runs_iff v).trans ?_
      simp only [List.forall_mem_cons]
      tauto

end Condition

end StepLoom
