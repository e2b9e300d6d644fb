import StepLoom.Graph
import StepLoom.Proofs.Fields
import Mathlib.Data.Finset.Card
import Mathlib.Logic.Relation
import Mathlib.Tactic.Common

/-!
# What setups need

The names that a `setup` field lists, in order (`Value.textsIn`), give each setup of a table the
setups that it needs (`Setup.needs`). Following needs any number of times is `Setup.Reaches`.

A table is *well shaped* if it can be asked for every name and if the `setup` field of every
definition can be listed. The names that are needed anywhere in a table are finitely many
(`Setup.allNeeded`).
-/

namespace StepLoom

open Relation

namespace Value

/-- The text that a value is. -/
def string? : Value → Option String
  | .scalar (.str s) => some s
  | _ => none

/-- The texts that a field of one or many lists. -/
def textsIn (v : Option Value) : List String :=
  match oneOrMany v with
  | .ok vs => vs.filterMap string?
  | .error _ => []

/-- Whatever the field lists is a text. -/
def OnlyTexts (v : Option Value) : Prop := ∀ vs, oneOrMany v = .ok vs → ∀ x ∈ vs, ∃ s, x = .str s

theorem filterMap_string?_map (ss : List String) : (ss.map Value.str).filterMap string? = ss := by
  induction ss with
  | nil => rfl
  | cons s ss ih => simpa [string?] using ih

theorem map_str_filterMap {vs : List Value} (h : ∀ x ∈ vs, ∃ s, x = .str s) :
    (vs.filterMap string?).map Value.str = vs := by
  induction vs with
  | nil => rfl
  | cons x vs ih =>
    obtain ⟨s, rfl⟩ := h x (by simp)
    simpa [string?] using ih fun y hy => h y (List.mem_cons_of_mem _ hy)

/-- A field of texts lists exactly `textsIn`. -/
theorem OnlyTexts.eq {v : Option Value} (h : OnlyTexts v) {vs : List Value}
    (hv : oneOrMany v = .ok vs) : vs = (textsIn v).map .str := by
  rw [textsIn, hv]
  exact (map_str_filterMap (h vs hv)).symm

end Value

namespace Setup

/-- The definition under a name, if there is one. -/
def definition? (table : Value) (name : String) : Option Value :=
  match find? table (.str name) with
  | .ok d => d
  | .error _ => none

/-- The setups that a setup needs, in order. -/
def needs (table : Value) (name : String) : List String :=
  match definition? table name with
  | some d => Value.textsIn (d.part "setup")
  | none => []

/-- From one setup to another by following needs. -/
def Reaches (table : Value) : String → String → Prop :=
  ReflTransGen fun a b => b ∈ needs table a

/-- The names of setups in all definitions are texts. -/
def TextNames (table : Value) : Prop :=
  ∀ name d, definition? table name = some d → Value.OnlyTexts (d.part "setup")

/-- The table can be asked for every name, and every definition for what it needs. -/
structure WellShaped (table : Value) : Prop where
  find? : ∀ name, ∃ d, find? table (.str name) = .ok d
  needs : ∀ name d, definition? table name = some d →
    ∃ vs, Value.oneOrMany (d.part "setup") = .ok vs

theorem definition?_of_find? {table : Value} {name : String} {d : Option Value}
    (h : find? table (.str name) = .ok d) : definition? table name = d := by
  rw [definition?, h]

theorem needs_of_definition? {table : Value} {name : String} {d : Value}
    (h : definition? table name = some d) : needs table name = Value.textsIn (d.part "setup") := by
  rw [needs, h]

theorem needs_eq_nil {table : Value} {name : String} (h : definition? table name = none) :
    needs table name = [] := by
  rw [needs, h]

/-- Some name reaches the setup. -/
def ReachedFrom (table : Value) (names : List String) (s : String) : Prop :=
  ∃ n ∈ names, Reaches table n s

theorem Reaches.step {table : Value} {a b : String} (h : b ∈ needs table a) :
    Reaches table a b := .single h

/-- A setup is reached from what needs it, or from itself. -/
theorem reaches_iff_needs {table : Value} {a c : String} :
    Reaches table a c ↔ a = c ∨ ReachedFrom table (needs table a) c := by
  rw [Reaches, ReflTransGen.cases_head_iff]
  rfl

theorem reachedFrom_singleton {table : Value} {n s : String} :
    ReachedFrom table [n] s ↔ Reaches table n s := by
  simp [ReachedFrom]

theorem reachedFrom_cons {table : Value} {names : List String} {n s : String} :
    ReachedFrom table (n :: names) s ↔ Reaches table n s ∨ ReachedFrom table names s := by
  simp [ReachedFrom]

theorem reachedFrom_needs {table : Value} {n s : String} :
    ReachedFrom table (needs table n) s → Reaches table n s := by
  rintro ⟨t, ht, hs⟩
  exact ReflTransGen.head ht hs

/-! ## Tables that are mappings -/

/-- A mapping is asked for a name by its fields, where the name has to be a key. -/
theorem find?_of_fields? {table : Value} {fields : Fields} (h : table.fields? = some fields)
    (name : Value) : find? table name = match name.key? with
      | some k => .ok (Fields.get? k fields)
      | none => .error .illTyped := by
  obtain ⟨m, hun⟩ : ∃ m, table.unroll = .map m fields := by
    unfold Value.fields? at h
    split at h
    · next m _ hun => exact ⟨m, by rw [hun, Option.some.inj h]⟩
    · cases h
  cases hk : name.key? with
  | none =>
    have hc : table.contains name = .error .illTyped := by simp only [Value.contains, hun, hk]
    rw [find?, hc]
    rfl
  | some k =>
    have hc : table.contains name = .ok (Fields.has k fields) := by
      simp only [Value.contains, hun, hk]
    rw [find?, hc]
    change (if Fields.has k fields = true then _ else _) = Except.ok (Fields.get? k fields)
    rw [Fields.has]
    cases hg : Fields.get? k fields with
    | none => rfl
    | some d =>
      have hl : table.lookUp name = .ok d := by
        unfold Value.lookUp
        simp [h, hk, hg]
      simp only [Option.isSome_some, if_true, hl]
      rfl

theorem find?_of_map {table : Value} {m : Option Nat} {fields : Fields}
    (h : table.unroll = .map m fields) (name : String) :
    find? table (.str name) = .ok (Fields.get? (.str name) fields) :=
  find?_of_fields? (by rw [Value.fields?, h]) (.str name)

/-- Only mappings define anything under a name. -/
theorem exists_fields_of_definition? {table : Value} {name : String} {d : Value}
    (h : definition? table name = some d) :
    ∃ m fields, table.unroll = .map m fields ∧ Fields.get? (.str name) fields = some d := by
  rw [definition?] at h
  cases hfd : find? table (.str name) with
  | error e => simp [hfd] at h
  | ok r =>
    obtain rfl : r = some d := by simpa [hfd] using h
    suffices hm : ∃ m fields, table.unroll = .map m fields by
      obtain ⟨m, fields, hu⟩ := hm
      rw [find?_of_map hu] at hfd
      exact ⟨m, fields, hu, Except.ok.inj hfd⟩
    -- A container without fields yields nothing under a text.
    rw [find?] at hfd
    cases hc : table.contains (.str name) with
    | error e => rw [hc] at hfd; cases hfd
    | ok b =>
      rw [hc] at hfd
      cases b with
      | false => cases hfd
      | true =>
        change (table.lookUp (.str name) >>= fun v => pure (some v)) = _ at hfd
        cases hl : table.lookUp (.str name) with
        | error e => rw [hl] at hfd; cases hfd
        | ok v =>
          unfold Value.lookUp Value.fields? at hl
          cases hu : table.unroll with
          | map m fields => exact ⟨m, fields, rfl⟩
          | _ => simp [hu] at hl

theorem definition?_record {fields : Fields} (name : String) :
    definition? (.record fields) name = Fields.get? (.str name) fields :=
  definition?_of_find? (find?_of_map rfl name)

/-- If needs go down in rank, nothing needs itself. -/
theorem not_reaches_of_rank {table : Value} (rank : String → Nat)
    (h : ∀ s, ∀ t ∈ needs table s, rank t < rank s) {s t : String} (ht : t ∈ needs table s) :
    ¬ Reaches table t s := by
  have hle : ∀ {a b}, Reaches table a b → rank b ≤ rank a := by
    intro a b hab
    induction hab with
    | refl => exact Nat.le_refl _
    | tail _ hbc ih => exact (h _ _ hbc).le.trans ih
  exact fun hback => absurd (hle hback) (Nat.not_le.mpr (h s t ht))

/-! ## Finitely many names -/

/-- The names that the definitions of a table need, all together. -/
def allNeeded (table : Value) : List String :=
  match table.unroll with
  | .map _ fields => fields.flatMap fun (_, d) => Value.textsIn (d.part "setup")
  | _ => []

theorem mem_allNeeded {table : Value} {a b : String} (h : b ∈ needs table a) :
    b ∈ allNeeded table := by
  cases hd : definition? table a with
  | none => simp [needs_eq_nil hd] at h
  | some d =>
    rw [needs_of_definition? hd] at h
    obtain ⟨m, fields, hu, hget⟩ := exists_fields_of_definition? hd
    obtain ⟨k, hk⟩ := Fields.mem_of_get? hget
    rw [allNeeded, hu]
    exact List.mem_flatMap.mpr ⟨(k, d), hk, h⟩

end Setup

/-! ## Ids -/

namespace Graph

theorem setupId_inj {a b : String} : setupId a = setupId b ↔ a = b := String.append_right_inj _

theorem toString_inj {i j : Nat} : toString i = toString j ↔ i = j := by
  refine ⟨fun h => ?_, fun h => h ▸ rfl⟩
  have hd : Nat.toDigits 10 i = Nat.toDigits 10 j := String.ofList_injective h
  rw [← Nat.ofDigitChars_ten_toDigits (n := i), hd, Nat.ofDigitChars_ten_toDigits]

theorem stepId_inj {i j : Nat} : stepId i = stepId j ↔ i = j :=
  (String.append_right_inj _).trans toString_inj

theorem setupId_ne_stepId {a : String} {i : Nat} : setupId a ≠ stepId i := by
  intro h
  have := congrArg String.toList h
  simp [setupId, stepId] at this

theorem setupId_ne_nodeId {a : String} {ps : List String} : setupId a ≠ Check.nodeId ps := by
  intro h
  have := congrArg String.toList h
  simp [setupId, Check.nodeId] at this

theorem stepId_ne_nodeId {i : Nat} {ps : List String} : stepId i ≠ Check.nodeId ps := by
  intro h
  have := congrArg String.toList h
  simp [stepId, Check.nodeId] at this

end Graph

end StepLoom
