import StepLoom.Proofs.Graph.Nodes
import StepLoom.Proofs.Needs
import Mathlib.Data.Finset.Card

/-!
# How deep references are nested

A reference is followed only from a setup that has just been added. So among the names that may be
referenced there is one less without a node at each level, and a depth of two more than there are
names is always enough (`DeepEnough.start`). That is the depth that `useSetup` gives.
-/

namespace StepLoom

namespace Setup

/-- The names in a `setup` field, whatever kind of values they are. -/
def Lists (v name : Value) : Prop :=
  ∃ names, Value.oneOrMany (v.part "setup") = .ok names ∧ name ∈ names

theorem Lists.mem {v name : Value} {names : List Value} (h : Lists v name)
    (hnames : Value.oneOrMany (v.part "setup") = .ok names) : name ∈ names := by
  obtain ⟨_, hlisted, hname⟩ := h
  rwa [← Except.ok.inj (hnames.symm.trans hlisted)] at hname

/-- The texts of the names that a definition lists. -/
def textsOf (definition : Value) : List String :=
  match Value.oneOrMany (definition.part "setup") with
  | .ok names => names.filterMap fun name => name.text.toOption
  | .error _ => []

/-- The texts of the names that the definitions of a table list, all together. -/
def allTexts (table : Value) : List String :=
  match table.fields? with
  | some fields => fields.flatMap fun (_, d) => textsOf d
  | none => []

theorem mem_textsOf {d name : Value} {text : String} (h : Lists d name)
    (ht : name.text = .ok text) :
    text ∈ textsOf d := by
  obtain ⟨names, hnames, hname⟩ := h
  rw [textsOf, hnames]
  exact List.mem_filterMap.mpr ⟨name, hname, by rw [ht]; rfl⟩

theorem length_textsOf_le (d : Value) : (textsOf d).length ≤ listed d := by
  unfold textsOf listed Value.part
  cases d.fields? with
  | none => exact Nat.le_refl 0
  | some fields =>
    simp only [Option.bind_some]
    cases Value.oneOrMany (Fields.get? "setup" fields) with
    | ok names => exact List.length_filterMap_le _ names
    | error e => exact Nat.le_refl 0

theorem length_allTexts_le (table : Value) : (allTexts table).length ≤ referenceCount table := by
  unfold allTexts referenceCount Value.fields?
  cases table.unroll with
  | map m fields =>
    induction fields with
    | nil => exact Nat.le_refl 0
    | cons field fields ih =>
      have := length_textsOf_le field.2
      simp only [List.flatMap_cons, List.length_append, List.map_cons, List.foldr_cons] at ih ⊢
      omega
  | _ => exact Nat.zero_le _

/-- What is found in a mapping is one of its values. -/
theorem exists_field_of_find? {table name d : Value} {fields : Fields}
    (hfields : table.fields? = some fields) (h : find? table name = .ok (some d)) :
    ∃ k, (k, d) ∈ fields := by
  rw [find?_of_fields? hfields] at h
  split at h
  · exact Fields.mem_of_get? (Except.ok.inj h)
  · cases h

theorem mem_allTexts {table a d name : Value} {text : String} {fields : Fields}
    (hfields : table.fields? = some fields) (hd : find? table a = .ok (some d)) (h : Lists d name)
    (ht : name.text = .ok text) : text ∈ allTexts table := by
  obtain ⟨k, hmem⟩ := exists_field_of_find? hfields hd
  rw [allTexts, hfields]
  exact List.mem_flatMap.mpr ⟨(k, d), hmem, mem_textsOf h ht⟩

/-- The setups that a setup needs are listed by its definition. -/
theorem mem_allTexts_of_needs {table : Value} {a b : String} (h : b ∈ needs table a) :
    b ∈ allTexts table := by
  cases hd : definition? table a with
  | none => simp [needs_eq_nil hd] at h
  | some d =>
    obtain ⟨m, fields, hu, hget⟩ := exists_fields_of_definition? hd
    have hfields : table.fields? = some fields := by rw [Value.fields?, hu]
    have hfind : find? table (.str a) = .ok (some d) := by rw [find?_of_map hu, hget]
    rw [needs_of_definition? hd, Value.textsIn] at h
    split at h
    · next names hnames =>
      obtain ⟨name, hname, hb⟩ := List.mem_filterMap.mp h
      have htext : name.text = .ok b := by
        unfold Value.string? at hb
        split at hb
        · next s => exact congrArg Except.ok (Option.some.inj hb)
        · cases hb
      exact mem_allTexts hfields hfind ⟨names, hnames, hname⟩ htext
    · cases h

end Setup

namespace Graph

variable {names : List String} {g g' : Graph} {n m : String} {depth : Nat}

/-- The names without a node. -/
def lacking (names : List String) (g : Graph) : Finset String :=
  names.toFinset.filter fun s => ¬ g.has (setupId s)

theorem mem_lacking {s : String} : s ∈ lacking names g ↔ s ∈ names ∧ ¬ g.has (setupId s) := by
  simp [lacking]

/-- The depth suffices for one name, where only some names are referenced further on. -/
def DeepEnough (names : List String) (g : Graph) (n : String) (depth : Nat) : Prop :=
  1 ≤ depth ∧ (¬ g.has (setupId n) → ((lacking names g).erase n).card + 2 ≤ depth)

theorem DeepEnough.start (h : names.length + 2 ≤ depth) : DeepEnough names g n depth := by
  refine ⟨by omega, fun _ => ?_⟩
  have h₁ : ((lacking names g).erase n).card ≤ (lacking names g).card := Finset.card_erase_le
  have h₂ : (lacking names g).card ≤ names.toFinset.card := Finset.card_filter_le _ _
  have h₃ := List.toFinset_card_le names
  omega

/-- What a new setup references is one level deeper, when the setup has got a node. -/
theorem DeepEnough.inner (h : DeepEnough names g n (depth + 1)) (hn : ¬ g.has (setupId n))
    (hgrow : ∀ x, g.has x → g'.has x) (hn' : g'.has (setupId n)) (hm : m ∈ names) :
    DeepEnough names g' m depth := by
  have hdepth := h.2 hn
  refine ⟨by omega, fun hm' => ?_⟩
  have hsub : lacking names g' ⊆ (lacking names g).erase n := by
    intro s hs
    rw [mem_lacking] at hs
    refine Finset.mem_erase.mpr ⟨?_, mem_lacking.mpr ⟨hs.1, fun h => hs.2 (hgrow _ h)⟩⟩
    rintro rfl
    exact hs.2 hn'
  have hmem : m ∈ lacking names g' := mem_lacking.mpr ⟨hm, hm'⟩
  have hcard := Finset.card_le_card hsub
  have hpos := Finset.card_pos.mpr ⟨m, hmem⟩
  rw [Finset.card_erase_of_mem hmem]
  omega

end Graph

end StepLoom
