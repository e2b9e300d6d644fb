import StepLoom.Local.Search
import StepLoom.Proofs.LetterCase
import StepLoom.Proofs.Local.Acts
import StepLoom.Proofs.SideBySide
import StepLoom.Proofs.Template.Validation
import StepLoom.Proofs.Template.Writes

/-!
# The step that a name means

A name stands for a step with that id, or for one whose action is called so. Each action has a long
name and a short one, and which ones these are is left open (`Naming`).

**The preference** (`Best`). A step with the id comes first, then one whose action has the long
name, then one with the short name, and then one of those whose short names begin so, of the
shortest of them. Among equals the first one counts.

**Theorem (`find_best`).** A search through templates that load comes to the best step, where an
action is called by its path and by the last name in it; and that step is run. If there is none,
nothing is run. As long as no action stands in a directory of its repository, its path is
`owner/name`, and the last name in it is the name of the repository.

An action in a directory is called by that directory: it is not found under the repository that it
is fetched from (`find_directory`).
-/

namespace StepLoom

open Text (lower split startsWith)

/-! ## What an action is called -/

theorem Text.intercalate_split (s : String) : "/".intercalate (split s '/') = s := by
  have hchars : ∀ cs, ['/'].intercalate (splitOnChar '/' cs) = cs := by
    intro cs
    induction cs with
    | nil => rfl
    | cons c rest ih =>
      obtain ⟨piece, more, hsplit⟩ := List.exists_cons_of_ne_nil (splitOnChar_ne_nil '/' rest)
      by_cases hc : c = '/'
      · rw [splitOnChar, if_pos hc, hsplit, List.intercalate_cons_cons, ← hsplit, ih, hc]
        rfl
      · rw [splitOnChar_cons_of_ne hc, hsplit, List.modifyHead_cons]
        rw [hsplit] at ih
        cases more with
        | nil =>
          rw [List.intercalate_singleton] at ih ⊢
          rw [ih]
        | cons next more =>
          rw [List.intercalate_cons_cons] at ih ⊢
          rw [List.append_assoc, List.cons_append, ← List.append_assoc, ih]
  rw [← String.toList_inj, String.toList_intercalate, split, List.map_map]
  simpa [Function.comp_def] using hchars s.toList

namespace Action.Reference

/-- The reference without its ref. -/
def path (r : Action.Reference) : String := "/".intercalate r.names

/-- The last name of the path. -/
def lastName (r : Action.Reference) : String := r.names.getLast?.getD ""

/-- The name of the repository, which stands behind its owner. -/
def repositoryName (r : Action.Reference) : String := r.names[1]?.getD ""

theorem path_ofText (uses : String) : (ofText uses).path = (Text.cutAt uses '@').1 :=
  Text.intercalate_split _

theorem lower_lastName_ofText (uses : String) :
    lower (ofText uses).lastName =
      (split (lower (Text.cutAt uses '@').1) '/').getLast?.getD "" := by
  rw [Text.split_lower, List.getLast?_map, lastName, ofText]
  cases (split (Text.cutAt uses '@').1 '/').getLast? <;> rfl

end Action.Reference

namespace Candidate

/-- A long name and a short name for each action. -/
structure Naming where
  long : Action.Reference → String
  short : Action.Reference → String

namespace Naming

/-- By the path, and by its last name. -/
def byPath : Naming := ⟨Action.Reference.path, Action.Reference.lastName⟩

/-- By `owner/name` of the repository, and by the name of the repository alone. -/
def byRepository : Naming :=
  ⟨Action.Reference.repository, Action.Reference.repositoryName⟩

/-- An action that is a repository of its own is called like the repository. -/
theorem byPath_of_two {r : Action.Reference} (h : r.names.length = 2) :
    byPath.long r = byRepository.long r ∧ byPath.short r = byRepository.short r := by
  obtain ⟨owner, name, hnames⟩ := List.length_eq_two.mp h
  dsimp only [byPath, byRepository, Action.Reference.path, Action.Reference.repository,
    Action.Reference.lastName, Action.Reference.repositoryName]
  rw [hnames]
  exact ⟨rfl, rfl⟩

end Naming

/-! ## The best step -/

section Preference

variable {n n' : Naming} {needle : String} {steps : List Value} {s t : Value} {k : Nat}

/-- The text that names the action of a step. -/
def usesOf? (s : Value) : Option String :=
  match Value.given? (s.part "uses") with
  | some (.scalar (.str uses)) => some uses
  | _ => none

/-- A step uses an action. -/
def Uses (s : Value) (uses : String) : Prop := usesOf? s = some uses

instance (s : Value) (uses : String) : Decidable (Uses s uses) :=
  inferInstanceAs (Decidable (_ = _))

/-- A step has an id that says the same as `needle`, whatever the letter case. -/
def HasId (needle : String) (s : Value) : Prop :=
  ∃ v text, s.part "id" = some v ∧ v ≠ .null ∧ v.text = .ok text ∧ lower text = lower needle

def HasLong (n : Naming) (needle : String) (s : Value) : Prop :=
  ∃ uses, Uses s uses ∧ lower (n.long (.ofText uses)) = lower needle

def HasShort (n : Naming) (needle : String) (s : Value) : Prop :=
  ∃ uses, Uses s uses ∧ lower (n.short (.ofText uses)) = lower needle

/-- The short name of the action has `k` letters, and `needle` at its beginning. -/
def Begins (n : Naming) (needle : String) (s : Value) (k : Nat) : Prop :=
  ∃ uses, Uses s uses ∧ startsWith (lower needle) (lower (n.short (.ofText uses))) ∧
    k = (lower (n.short (.ofText uses))).length

/-- The first step with a property. -/
def First (p : Value → Prop) (steps : List Value) (s : Value) : Prop :=
  ∃ before after, steps = before ++ s :: after ∧ p s ∧ ∀ t ∈ before, ¬ p t

theorem First.congr {p q : Value → Prop} (h : First p steps s) (hpq : ∀ t ∈ steps, (p t ↔ q t)) :
    First q steps s := by
  obtain ⟨before, after, rfl, hs, hbefore⟩ := h
  refine ⟨before, after, rfl, (hpq s (by simp)).mp hs, fun t ht hq => hbefore t ht ?_⟩
  exact (hpq t (List.mem_append_left _ ht)).mpr hq

/-- **The step that a needle means best.** -/
inductive Best (n : Naming) (needle : String) (steps : List Value) (s : Value) : Prop
  | id (h : First (HasId needle) steps s)
  | long (hid : ∀ t ∈ steps, ¬ HasId needle t) (h : First (HasLong n needle) steps s)
  | short (hid : ∀ t ∈ steps, ¬ HasId needle t) (hlong : ∀ t ∈ steps, ¬ HasLong n needle t)
      (h : First (HasShort n needle) steps s)
  | beginning (hid : ∀ t ∈ steps, ¬ HasId needle t) (hlong : ∀ t ∈ steps, ¬ HasLong n needle t)
      (hshort : ∀ t ∈ steps, ¬ HasShort n needle t)
      (h : First (fun s => ∃ k, Begins n needle s k ∧
        ∀ t ∈ steps, ∀ l, Begins n needle t l → k ≤ l) steps s)

/-- A needle means a step in one way or another. -/
def Means (n : Naming) (needle : String) (s : Value) : Prop :=
  HasId needle s ∨ HasLong n needle s ∨ HasShort n needle s ∨ ∃ k, Begins n needle s k

/-- The step that is picked for a needle, if there is one. -/
inductive Picks (n : Naming) (needle : String) (steps : List Value) : Option Value → Prop
  | best {s : Value} (h : Best n needle steps s) : Picks n needle steps (some s)
  | none (h : ∀ s ∈ steps, ¬ Means n needle s) : Picks n needle steps none

/-- Two ways to call actions agree on those of a step. -/
def Agree (n n' : Naming) (s : Value) : Prop := ∀ uses, Uses s uses →
  n.long (.ofText uses) = n'.long (.ofText uses) ∧ n.short (.ofText uses) = n'.short (.ofText uses)

/-- The two ways agree on actions that are repositories of their own. -/
theorem agree_of_two (h : ∀ uses, Uses s uses → (Action.Reference.ofText uses).names.length = 2) :
    Agree .byPath .byRepository s := fun uses huses => Naming.byPath_of_two (h uses huses)

theorem Agree.hasLong_iff (h : Agree n n' s) : HasLong n needle s ↔ HasLong n' needle s :=
  exists_congr fun uses => and_congr_right fun hu => by rw [(h uses hu).1]

theorem Agree.hasShort_iff (h : Agree n n' s) : HasShort n needle s ↔ HasShort n' needle s :=
  exists_congr fun uses => and_congr_right fun hu => by rw [(h uses hu).2]

theorem Agree.begins_iff (h : Agree n n' s) : Begins n needle s k ↔ Begins n' needle s k :=
  exists_congr fun uses => and_congr_right fun hu => by rw [(h uses hu).2]

theorem Best.congr (h : Best n needle steps s) (ha : ∀ t ∈ steps, Agree n n' t) :
    Best n' needle steps s := by
  have hlong' : (∀ t ∈ steps, ¬ HasLong n needle t) → ∀ t ∈ steps, ¬ HasLong n' needle t :=
    fun hlong t ht => mt (ha t ht).hasLong_iff.mpr (hlong t ht)
  cases h with
  | id h => exact .id h
  | long hid h => exact .long hid (h.congr fun t ht => (ha t ht).hasLong_iff)
  | short hid hlong h =>
    exact .short hid (hlong' hlong) (h.congr fun t ht => (ha t ht).hasShort_iff)
  | beginning hid hlong hshort h =>
    refine .beginning hid (hlong' hlong)
      (fun t ht => mt (ha t ht).hasShort_iff.mpr (hshort t ht)) (h.congr fun t ht => ?_)
    refine exists_congr fun k => and_congr (ha t ht).begins_iff ?_
    exact forall₂_congr fun u hu => forall_congr' fun l => imp_congr_left (ha u hu).begins_iff

theorem Picks.congr {pick : Option Value} (h : Picks n needle steps pick)
    (ha : ∀ t ∈ steps, Agree n n' t) : Picks n' needle steps pick := by
  cases h with
  | best h => exact .best (h.congr ha)
  | none h =>
    refine .none fun s hs hmeans => h s hs ?_
    rcases hmeans with h | h | h | ⟨k, h⟩
    · exact Or.inl h
    · exact Or.inr (Or.inl ((ha s hs).hasLong_iff.mpr h))
    · exact Or.inr (Or.inr (Or.inl ((ha s hs).hasShort_iff.mpr h)))
    · exact Or.inr (Or.inr (Or.inr ⟨k, (ha s hs).begins_iff.mpr h⟩))

end Preference

/-! ## Ranks -/

section Ranks

variable {needle : String} {steps : List Value} {s : Value} {fields : Fields} {r : Option Nat}
  {k : Nat}

/-- The id of a step has a text, and its action is a text. -/
structure Searchable (s : Value) : Prop where
  id : ∀ v ∈ s.part "id", v.hasText
  uses : (Value.given? (s.part "uses")).isSome → (usesOf? s).isSome

instance (s : Value) : Decidable (Searchable s) :=
  decidable_of_iff (_ ∧ _) ⟨fun h => ⟨h.1, h.2⟩, fun h => ⟨h.id, h.uses⟩⟩

/-- The rank of a step says how it is meant. -/
inductive Ranks (needle : String) (s : Value) : Option Nat → Prop
  | id (h : HasId needle s) : Ranks needle s (some 0)
  | long (hid : ¬ HasId needle s) (h : HasLong .byPath needle s) : Ranks needle s (some 1)
  | short (hid : ¬ HasId needle s) (hlong : ¬ HasLong .byPath needle s)
      (h : HasShort .byPath needle s) : Ranks needle s (some 2)
  | beginning (hid : ¬ HasId needle s) (hlong : ¬ HasLong .byPath needle s)
      (hshort : ¬ HasShort .byPath needle s) {k : Nat} (h : Begins .byPath needle s (k + 1)) :
      Ranks needle s (some (k + 3))
  | none (h : ¬ Means .byPath needle s) : Ranks needle s none

theorem text_of_hasText {v : Value} (h : v.hasText) : ∃ text, v.text = .ok text := by
  cases v with
  | scalar x => exact ⟨x.bareSpelling, if_pos h⟩
  | _ =>
    change ∃ text, Value.literal _ = .ok text
    rw [Value.literal, if_pos h]
    exact ⟨_, rfl⟩

theorem hasId_iff (needle : String) (hfields : s.fields? = some fields)
    (hid : ∀ v ∈ s.part "id", v.hasText) :
    ∃ b, hasId (lower needle) fields = .ok b ∧ (b ↔ HasId needle s) := by
  have hpart : s.part "id" = Fields.get? "id" fields := by rw [Value.part, hfields]; rfl
  rw [hasId, HasId, ← hpart]
  split
  · next h => exact ⟨false, rfl, by simp [h]⟩
  · next h => exact ⟨false, rfl, by simp [h, Value.null]⟩
  · next v hnull h =>
    obtain ⟨text, htext⟩ := text_of_hasText (hid v h)
    refine ⟨_, by rw [htext]; rfl, ?_⟩
    rw [beq_iff_eq]
    constructor
    · exact fun heq => ⟨v, text, h, fun hv => hnull hv, htext, heq⟩
    · rintro ⟨v', text', hv', -, htext', heq⟩
      obtain rfl := Option.some.inj (h.symm.trans hv')
      rwa [Except.ok.inj (htext.symm.trans htext')]

theorem rankOfAction_eq (needle uses : String) : rankOfAction needle uses =
    if lower (Action.Reference.ofText uses).path = needle then some 1
    else if lower (Action.Reference.ofText uses).lastName = needle then some 2
    else if startsWith needle (lower (Action.Reference.ofText uses).lastName) then
      some (2 + (lower (Action.Reference.ofText uses).lastName).length)
    else none := by
  rw [rankOfAction, Action.Reference.path_ofText, Action.Reference.lower_lastName_ofText]
  simp only [beq_iff_eq]

/-- What a proper beginning is the beginning of has a letter. -/
theorem length_of_startsWith {start s : String} (h : startsWith start s) (hne : s ≠ start) :
    ∃ k, s.length = k + 1 := by
  refine Nat.exists_eq_add_one.mpr (Nat.pos_of_ne_zero fun h0 => hne ?_)
  have hs : s.toList = [] := List.length_eq_zero_iff.mp (by rw [String.length_toList, h0])
  have hstart := List.isPrefixOf_iff_prefix.mp h
  rw [hs, List.prefix_nil] at hstart
  rw [← String.toList_inj, hs, hstart]

theorem rankOf_eq {b : Bool} (hfields : s.fields? = some fields)
    (hb : hasId needle fields = .ok b) : rankOf needle s = (if b then .ok (some 0) else
      match Value.given? (s.part "uses") with
      | some uses => do return rankOfAction needle (← uses.stringMember)
      | none => .ok none) := by
  have hpart : s.part "uses" = Fields.get? "uses" fields := by rw [Value.part, hfields]; rfl
  rw [rankOf, Value.fieldsOf, hfields, hpart]
  change (hasId needle fields >>= _) = _
  rw [hb]
  rfl

/-- **Each step has a rank that says how it is meant.** -/
theorem rankOf_ranks (hfields : s.fields? = some fields) (h : Searchable s) (needle : String) :
    ∃ r, rankOf (lower needle) s = .ok r ∧ Ranks needle s r := by
  obtain ⟨b, hb, hid⟩ := hasId_iff needle hfields h.id
  have hrank := rankOf_eq hfields hb
  cases b with
  | true => exact ⟨_, hrank, .id (hid.mp rfl)⟩
  | false =>
    have hid : ¬ HasId needle s := fun h => Bool.false_ne_true (hid.mpr h)
    rw [if_neg Bool.false_ne_true] at hrank
    cases hgiven : Value.given? (s.part "uses") with
    | none =>
      rw [hgiven] at hrank
      refine ⟨_, hrank, .none ?_⟩
      simp [Means, HasLong, HasShort, Begins, Uses, usesOf?, hid, hgiven]
    | some v =>
      obtain ⟨uses, hof⟩ := Option.isSome_iff_exists.mp (h.uses (by rw [hgiven]; rfl))
      obtain rfl : v = .str uses := by
        rw [usesOf?, hgiven] at hof
        split at hof
        · next heq => rw [Option.some.inj heq, Option.some.inj hof]
        · cases hof
      have huses : ∀ u, Uses s u ↔ u = uses := by simp [Uses, hof, eq_comm]
      have hlong : HasLong .byPath needle s ↔
          lower (Action.Reference.ofText uses).path = lower needle := by
        simp [HasLong, huses, Naming.byPath]
      have hshort : HasShort .byPath needle s ↔
          lower (Action.Reference.ofText uses).lastName = lower needle := by
        simp [HasShort, huses, Naming.byPath]
      have hbegins : ∀ k, Begins .byPath needle s k ↔
          startsWith (lower needle) (lower (Action.Reference.ofText uses).lastName) ∧
            k = (lower (Action.Reference.ofText uses).lastName).length := by
        simp [Begins, huses, Naming.byPath]
      rw [hgiven] at hrank
      refine ⟨_, hrank, ?_⟩
      rw [rankOfAction_eq]
      split_ifs with h₁ h₂ h₃
      · exact .long hid (hlong.mpr h₁)
      · exact .short hid (mt hlong.mp h₁) (hshort.mpr h₂)
      · obtain ⟨k, hk⟩ := length_of_startsWith h₃ h₂
        rw [hk, Nat.add_comm, Nat.add_assoc]
        exact .beginning hid (mt hlong.mp h₁) (mt hshort.mp h₂) ((hbegins _).mpr ⟨h₃, hk.symm⟩)
      · refine .none ?_
        simp [Means, hid, hlong, hshort, hbegins, h₁, h₂, h₃]

end Ranks

/-! ## The first step of the least rank -/

section Least

variable {needle : String} {steps : List Value} {s : Value} {c : Candidate}

/-- The candidates among some steps, where `rank` tells what rank a step has. -/
def ranked (rank : Value → Option Nat) (steps : List Value) : List Candidate :=
  steps.filterMap fun s => (rank s).map fun r => ⟨r, s⟩

variable {rank : Value → Option Nat}

theorem ranked_cons : ranked rank (s :: steps) =
    ((rank s).map fun r => (⟨r, s⟩ : Candidate)).toList ++ ranked rank steps := by
  rw [ranked, List.filterMap_cons]
  cases rank s <;> rfl

theorem ranked_append (more : List Value) :
    ranked rank (steps ++ more) = ranked rank steps ++ ranked rank more := List.filterMap_append

theorem best?_eq_none : best? (ranked rank steps) = none ↔ ∀ s ∈ steps, rank s = none := by
  have hnil : ∀ cs, best? cs = none ↔ cs = [] := by
    intro cs
    cases cs with
    | nil => simp [best?]
    | cons c rest =>
      rw [best?]
      split
      · simp
      · split_ifs <;> simp
  rw [hnil, ranked, List.filterMap_eq_nil_iff]
  exact forall₂_congr fun s _ => Option.map_eq_none_iff

theorem best?_cons (c : Candidate) (found : List Candidate) : best? (c :: found) =
    match best? found with
    | none => some c
    | some d => if d.rank < c.rank then some d else some c := rfl

/-- **The best candidate** has the least rank, and no step before it has this rank. -/
theorem best?_ranked (h : best? (ranked rank steps) = some c) :
    ∃ before after, steps = before ++ c.step :: after ∧ rank c.step = some c.rank ∧
      (∀ t ∈ before, ∀ r, rank t = some r → c.rank < r) ∧
      ∀ t ∈ steps, ∀ r, rank t = some r → c.rank ≤ r := by
  induction steps generalizing c with
  | nil => cases h
  | cons s rest ih =>
    rw [ranked_cons] at h
    cases hs : rank s with
    | none =>
      rw [hs] at h
      obtain ⟨before, after, rfl, hc, hbefore, hleast⟩ := ih h
      refine ⟨s :: before, after, rfl, hc, ?_, ?_⟩
      · exact List.forall_mem_cons.mpr ⟨fun r hr => by simp [hs] at hr, hbefore⟩
      · exact List.forall_mem_cons.mpr ⟨fun r hr => by simp [hs] at hr, hleast⟩
    | some k =>
      rw [hs] at h
      rw [Option.map_some, Option.toList_some, List.singleton_append, best?_cons] at h
      have hfirst : (∀ t ∈ rest, ∀ r, rank t = some r → k ≤ r) → c = ⟨k, s⟩ →
          ∃ before after, s :: rest = before ++ c.step :: after ∧ rank c.step = some c.rank ∧
            (∀ t ∈ before, ∀ r, rank t = some r → c.rank < r) ∧
            ∀ t ∈ s :: rest, ∀ r, rank t = some r → c.rank ≤ r := by
        rintro hrest rfl
        refine ⟨[], rest, rfl, hs, by simp, List.forall_mem_cons.mpr ⟨fun r hr => ?_, hrest⟩⟩
        exact (Option.some.inj (hs.symm.trans hr)).le
      cases hrest : best? (ranked rank rest) with
      | none =>
        rw [hrest] at h
        refine hfirst (fun t ht r hr => ?_) (Option.some.inj h).symm
        rw [best?_eq_none.mp hrest t ht] at hr
        cases hr
      | some d =>
        obtain ⟨before, after, rfl, hd, hbefore, hleast⟩ := ih hrest
        rw [hrest] at h
        dsimp only at h
        split_ifs at h with hlt
        · obtain rfl := Option.some.inj h
          have hk : ∀ r, rank s = some r → d.rank < r := by
            intro r hr
            rwa [← Option.some.inj (hs.symm.trans hr)]
          exact ⟨s :: before, after, rfl, hd, List.forall_mem_cons.mpr ⟨hk, hbefore⟩,
            List.forall_mem_cons.mpr ⟨fun r hr => (hk r hr).le, hleast⟩⟩
        · exact hfirst (fun t ht r hr => (not_lt.mp hlt).trans (hleast t ht r hr))
            (Option.some.inj h).symm

end Least

/-! ## Reading ranks -/

section Reading

variable {needle : String} {steps : List Value} {s : Value} {r : Option Nat} {k : Nat}

theorem Ranks.hasId_iff (h : Ranks needle s r) : HasId needle s ↔ r = some 0 := by
  cases h with
  | id h => exact iff_of_true h rfl
  | long hid _ => exact iff_of_false hid (by simp)
  | short hid _ _ => exact iff_of_false hid (by simp)
  | beginning hid _ _ _ => exact iff_of_false hid (by simp)
  | none h => exact iff_of_false (fun hid => h (Or.inl hid)) (by simp)

theorem Ranks.hasLong_iff (h : Ranks needle s r) (hid : ¬ HasId needle s) :
    HasLong .byPath needle s ↔ r = some 1 := by
  cases h with
  | id h => exact absurd h hid
  | long _ h => exact iff_of_true h rfl
  | short _ hlong _ => exact iff_of_false hlong (by simp)
  | beginning _ hlong _ _ => exact iff_of_false hlong (by simp)
  | none h => exact iff_of_false (fun hlong => h (Or.inr (Or.inl hlong))) (by simp)

theorem Ranks.hasShort_iff (h : Ranks needle s r) (hid : ¬ HasId needle s)
    (hlong : ¬ HasLong .byPath needle s) : HasShort .byPath needle s ↔ r = some 2 := by
  cases h with
  | id h => exact absurd h hid
  | long _ h => exact absurd h hlong
  | short _ _ h => exact iff_of_true h rfl
  | none h => exact iff_of_false (fun hshort => h (Or.inr (Or.inr (Or.inl hshort)))) (by simp)
  | beginning _ _ h => exact iff_of_false h (by simp)

theorem Ranks.begins_iff (h : Ranks needle s r) (hid : ¬ HasId needle s)
    (hlong : ¬ HasLong .byPath needle s) (hshort : ¬ HasShort .byPath needle s) :
    Begins .byPath needle s k ↔ r = some (k + 2) := by
  have hunique : ∀ {k l}, Begins .byPath needle s k → Begins .byPath needle s l → k = l := by
    rintro k l ⟨uses, huses, -, hk⟩ ⟨uses', huses', -, hl⟩
    rw [hk, hl, Option.some.inj (huses.symm.trans huses')]
  cases h with
  | id h => exact absurd h hid
  | long _ h => exact absurd h hlong
  | short _ _ h => exact absurd h hshort
  | none h => exact iff_of_false (fun hb => h (Or.inr (Or.inr (Or.inr ⟨k, hb⟩)))) (by simp)
  | @beginning _ _ _ l h =>
    constructor
    · intro hb
      rw [hunique hb h]
    · intro hk
      have : k = l + 1 := by simpa using hk.symm
      rwa [this]

theorem Ranks.means (h : Ranks needle s (some k)) : Means .byPath needle s := by
  cases h with
  | id h => exact Or.inl h
  | long _ h => exact Or.inr (Or.inl h)
  | short _ _ h => exact Or.inr (Or.inr (Or.inl h))
  | beginning _ _ _ h => exact Or.inr (Or.inr (Or.inr ⟨_, h⟩))

/-- **The least rank is the preference.** -/
theorem best_of_least {rank : Value → Option Nat} (hrank : ∀ t ∈ steps, Ranks needle t (rank t))
    {c : Candidate} (h : best? (ranked rank steps) = some c) :
    Best .byPath needle steps c.step := by
  obtain ⟨before, after, hsteps, hc, hbefore, hleast⟩ := best?_ranked h
  have hmem : c.step ∈ steps := by simp [hsteps]
  have hin : ∀ t ∈ before, t ∈ steps := fun t ht => by simp [hsteps, ht]
  have hranks := hrank c.step hmem
  rw [hc] at hranks
  -- What a step of a smaller rank would have, no step has.
  have hid : 0 < c.rank → ∀ t ∈ steps, ¬ HasId needle t := by
    intro hpos t ht h
    exact absurd (hleast t ht 0 ((hrank t ht).hasId_iff.mp h)) (by omega)
  have hlong : 1 < c.rank → ∀ t ∈ steps, ¬ HasLong .byPath needle t := by
    intro hpos t ht h
    have := ((hrank t ht).hasLong_iff (hid (by omega) t ht)).mp h
    exact absurd (hleast t ht 1 this) (by omega)
  have hshort : 2 < c.rank → ∀ t ∈ steps, ¬ HasShort .byPath needle t := by
    intro hpos t ht h
    have := ((hrank t ht).hasShort_iff (hid (by omega) t ht) (hlong (by omega) t ht)).mp h
    exact absurd (hleast t ht 2 this) (by omega)
  obtain ⟨k, hk⟩ : ∃ k, k = c.rank := ⟨_, rfl⟩
  rw [← hk] at hranks hid hlong hshort
  cases hranks with
  | id h =>
    refine .id ⟨before, after, hsteps, h, fun t ht hid => ?_⟩
    have := hbefore t ht 0 ((hrank t (hin t ht)).hasId_iff.mp hid)
    omega
  | long _ h =>
    have hid := hid (by omega)
    refine .long hid ⟨before, after, hsteps, h, fun t ht hlong => ?_⟩
    have := hbefore t ht 1 (((hrank t (hin t ht)).hasLong_iff (hid t (hin t ht))).mp hlong)
    omega
  | short _ _ h =>
    have hid := hid (by omega)
    have hlong := hlong (by omega)
    refine .short hid hlong ⟨before, after, hsteps, h, fun t ht hshort => ?_⟩
    have := hbefore t ht 2 (((hrank t (hin t ht)).hasShort_iff (hid t (hin t ht))
      (hlong t (hin t ht))).mp hshort)
    omega
  | @beginning _ _ _ l h =>
    have hid := hid (by omega)
    have hlong := hlong (by omega)
    have hshort := hshort (by omega)
    have hbegins : ∀ t ∈ steps, ∀ m, Begins .byPath needle t m → rank t = some (m + 2) :=
      fun t ht m hm => ((hrank t ht).begins_iff (hid t ht) (hlong t ht) (hshort t ht)).mp hm
    refine .beginning hid hlong hshort ⟨before, after, hsteps, ⟨l + 1, h, fun t ht m hm => ?_⟩, ?_⟩
    · have := hleast t ht _ (hbegins t ht m hm)
      omega
    · rintro t ht ⟨m, hm, hmin⟩
      have hlt := hbefore t ht _ (hbegins t (hin t ht) m hm)
      have hle := hmin c.step hmem _ h
      omega

/-- **The best candidate is the pick.** -/
theorem picks_ranked {rank : Value → Option Nat} (hrank : ∀ t ∈ steps, Ranks needle t (rank t)) :
    Picks .byPath needle steps ((best? (ranked rank steps)).map (·.step)) := by
  cases h : best? (ranked rank steps) with
  | some c => exact .best (best_of_least hrank h)
  | none =>
    refine .none fun s hs hmeans => ?_
    have hnone := best?_eq_none.mp h s hs
    have hranks := hrank s hs
    rw [hnone] at hranks
    cases hranks with
    | none h => exact h hmeans

end Reading

end Candidate

/-! ## Searching templates -/

/-- A blank mapping is empty. -/
theorem Value.fields_of_isBlank {v : Value} {fields : Fields} (hblank : v.isBlank)
    (h : v.fields? = some fields) : fields = [] := by
  cases v with
  | map m fs =>
    obtain rfl := List.isEmpty_iff.mp hblank
    cases m <;> exact (Option.some.inj h).symm
  | _ => cases h

theorem Value.field?_orEmpty {v : Value} {fields : Fields} (h : v.fields? = some fields)
    (key : Scalar) : v.orEmpty.field? key = .ok (v.part key) := by
  rw [orEmpty, part, h]
  split_ifs with hblank
  · rw [fields_of_isBlank hblank h]
    rfl
  · rw [field?, h]
    rfl

/-- What passes the check has jobs, and they are a mapping. -/
theorem Template.jobs_of_check {file : String} {doc : Value} (h : check file doc = .ok ()) :
    ∃ source, doc.index "jobs" = .ok source ∧ source.fieldsOf = .ok (Workflow.jobs doc) := by
  obtain ⟨fields, hfields⟩ := (formed_of_check h).fields
  have hpart : doc.part "jobs" = Fields.get? "jobs" fields := by rw [Value.part, hfields]; rfl
  rw [check, hfields] at h
  cases hjobs : Fields.get? "jobs" fields with
  | none =>
    simp only [hjobs] at h
    cases h
  | some source =>
    cases hjs : source.fields? with
    | none =>
      simp only [hjobs, hjs] at h
      cases h
    | some js =>
      refine ⟨source, by simp only [Value.index, hfields, hjobs], ?_⟩
      rw [Value.fieldsOf, hjs, Workflow.jobs, hpart, hjobs, Value.given?, Option.filter]
      split_ifs with hblank
      · simp [hjs]
      · simp [Value.fields_of_isBlank (by simpa using hblank) hjs]

namespace Workflow

/-- The steps of all jobs, in order. -/
def steps (doc : Value) : List Value := (jobs doc).flatMap fun f => Job.steps f.2

end Workflow

namespace Candidate

variable {name needle : String} {steps : List Value} {js : Fields} {doc : Value} {path : Path}
  {w w' : Workspace}

/-- The rank of a step, where it has one. -/
def rankIn (needle : String) (s : Value) : Option Nat :=
  match rankOf (lower needle) s with
  | .ok r => r
  | .error _ => none

theorem rankIn_spec {s : Value} (hfields : ∃ fields, s.fields? = some fields) (h : Searchable s)
    (needle : String) :
    rankOf (lower needle) s = .ok (rankIn needle s) ∧ Ranks needle s (rankIn needle s) := by
  obtain ⟨fields, hfields⟩ := hfields
  obtain ⟨r, hr, hranks⟩ := rankOf_ranks hfields h needle
  rw [rankIn, hr]
  exact ⟨rfl, hranks⟩

theorem amongSteps_ranked (needle : String)
    (hfields : ∀ s ∈ steps, ∃ fields, s.fields? = some fields) (h : ∀ s ∈ steps, Searchable s) :
    amongSteps (lower needle) steps = .ok (ranked (rankIn needle) steps) := by
  induction steps with
  | nil => rfl
  | cons s rest ih =>
    obtain ⟨hs, hrest⟩ := List.forall_mem_cons.mp h
    obtain ⟨hmap, hmaps⟩ := List.forall_mem_cons.mp hfields
    rw [amongSteps, (rankIn_spec hmap hs needle).1, ih hmaps hrest, ranked_cons]
    rfl

theorem amongJobs_ranked (hjobs : ∀ f ∈ js, Job.Formed f.2)
    (h : ∀ s ∈ js.flatMap fun f => Job.steps f.2, Searchable s) :
    amongJobs (lower needle) js =
      .ok (ranked (rankIn needle) (js.flatMap fun f => Job.steps f.2)) := by
  induction js with
  | nil => rfl
  | cons f rest ih =>
    obtain ⟨id, job⟩ := f
    obtain ⟨hjob, hrest⟩ := List.forall_mem_cons.mp hjobs
    obtain ⟨fields, hfields⟩ := hjob.fields
    obtain ⟨vs, hvs⟩ := hjob.steps
    have hsteps := hvs
    rw [← Job.steps_eq hvs] at hsteps
    rw [List.flatMap_cons] at h ⊢
    have hhere := amongSteps_ranked needle hjob.each
      fun s hs => h s (List.mem_append_left _ hs)
    have hthere := ih hrest fun s hs => h s (List.mem_append_right _ hs)
    rw [amongJobs, Value.field?_orEmpty hfields]
    change (Value.membersOrNone (job.part "steps") >>= _) = _
    rw [hsteps]
    change (amongSteps (lower needle) (Job.steps job) >>= _) = _
    rw [hhere, hthere, ranked_append]
    rfl

/-- The candidates in a template that loads. -/
theorem inWorkflow_ranked (needle : String) (hload : exec (Template.load path) w = (.ok doc, w'))
    (h : ∀ s ∈ Workflow.steps doc, Searchable s) :
    inWorkflow doc needle = .ok (ranked (rankIn needle) (Workflow.steps doc)) := by
  obtain ⟨source, hindex, hjobs⟩ := Template.jobs_of_check (Template.check_of_load hload)
  rw [inWorkflow, hindex]
  change (source.fieldsOf >>= _) = _
  rw [hjobs]
  exact amongJobs_ranked (Template.formed_of_load hload).jobs h

/-- The templates of a directory load as some documents. -/
def Loads (w : Workspace) (templates : Path) (docs : List Value) : Prop :=
  ∃ names, (exec (Template.namesIn templates) w).1 = .ok names ∧
    List.Forall₂ (fun (n : String) doc =>
      (exec (Template.load (templates / n)) w).1 = .ok doc) names docs

/-- All steps of the jobs in templates that load are mappings. -/
theorem Loads.fields {templates : Path} {docs : List Value} (h : Loads w templates docs) :
    ∀ s ∈ docs.flatMap Workflow.steps, ∃ fields, s.fields? = some fields := by
  obtain ⟨names, -, hload⟩ := h
  induction hload with
  | nil => simp
  | @cons n doc names docs hdoc _ ih =>
    intro s hs
    rcases List.mem_append.mp hs with hs | hs
    · obtain ⟨f, hf, hs⟩ := List.mem_flatMap.mp hs
      have hload : exec (Template.load (templates / n)) w = (.ok doc, w) :=
        Prod.ext hdoc (Template.quiet_load _ w)
      exact ((Template.formed_of_load hload).jobs f hf).each s hs
    · exact ih s hs

theorem exec_inTemplates {templates : Path} {names : List String} {docs : List Value}
    (hload : List.Forall₂ (fun (n : String) doc =>
      (exec (Template.load (templates / n)) w).1 = .ok doc) names docs)
    (h : ∀ s ∈ docs.flatMap Workflow.steps, Searchable s) :
    exec (inTemplates templates name names) w =
      (.ok (ranked (rankIn name) (docs.flatMap Workflow.steps)), w) := by
  induction hload with
  | nil => rfl
  | @cons n doc names docs hdoc _ ih =>
    rw [List.flatMap_cons] at h ⊢
    have hload : exec (Template.load (templates / n)) w = (.ok doc, w) :=
      Prod.ext hdoc (Template.quiet_load _ w)
    have hhere := inWorkflow_ranked name hload fun s hs =>
      h s (List.mem_append_left _ hs)
    rw [inTemplates, exec_bind_ok hload, hhere, exec_bind_ok (exec_liftM_ok _),
      exec_bind_ok (ih fun s hs => h s (List.mem_append_right _ hs)), ranked_append]
    rfl

/-- A name that asks for all templates, and not for one file. -/
def IsGeneral (name : String) : Prop :=
  ∀ file needle, split name ':' = [file, needle] → Text.endsWith ".yml" file = false

theorem exec_find {templates : Path} {docs : List Value} (hname : IsGeneral name)
    (hload : Loads w templates docs) (h : ∀ s ∈ docs.flatMap Workflow.steps, Searchable s) :
    exec (find name templates) w =
      (.ok (ranked (rankIn name) (docs.flatMap Workflow.steps)), w) := by
  obtain ⟨names, hnames, hload⟩ := hload
  have hall : exec (Template.namesIn templates >>= inTemplates templates name) w =
      (.ok (ranked (rankIn name) (docs.flatMap Workflow.steps)), w) := by
    rw [exec_bind_ok (Prod.ext hnames (Template.exec_namesIn templates w))]
    exact exec_inTemplates hload h
  rw [find]
  split
  · next file needle hsplit =>
    rw [hname file needle hsplit, if_neg Bool.false_ne_true]
    exact hall
  · exact hall

/-! ## Running the best step -/

/-- The issues that a step has brought to light; a step that is skipped has none. -/
def issues : Option Findings → Nat
  | none => 0
  | some f => f.errors + if f.failed then 1 else 0

/-- Runs a step if there is one. -/
def runPick (root : Path) (changed : List String) : Option Value → Act Nat
  | none => return 0
  | some step => do return issues (← Step.run root changed step)

theorem exec_runBest {templates root : Path} {changed : List String} {found : List Candidate}
    (hfind : exec (find name templates) w = (.ok found, w)) :
    ∃ out err, exec (runBest name templates root changed) w =
      exec (runPick root changed ((best? found).map (·.step)))
        { w with stdout := w.stdout ++ out, stderr := w.stderr ++ err } := by
  rw [runBest, exec_bind_ok hfind]
  cases hbest : best? found with
  | none =>
    refine ⟨"", Text.Terminal.dropEscapes ("No steps matching " ++ name ++ "\n"), ?_⟩
    rw [String.append_empty]
    rfl
  | some c =>
    have hrun : ∀ w', exec (Step.run root changed c.step >>= fun f? => match f? with
        | none => pure 0
        | some f => pure (f.errors + if f.failed then 1 else 0)) w' =
        exec (runPick root changed (some c.step)) w' := by
      intro w'
      refine exec_bind_congr rfl fun f? w'' _ => ?_
      cases f? <;> rfl
    dsimp only
    split_ifs with hmany
    · refine ⟨Text.Terminal.dropEscapes (toString found.length ++ " steps found matching " ++ name
        ++ ", selecting the best match." ++ "\n"), "", ?_⟩
      rw [exec_bind_ok (Act.exec_print _), String.append_empty]
      exact hrun _
    · refine ⟨"", "", ?_⟩
      rw [String.append_empty, String.append_empty]
      exact hrun w

/-- **The search comes to the best step, and that step is run.** An action is called by its path and
by the last name in it. If no action stands in a directory of its repository, this is the same as
`owner/name` and the name of the repository. -/
theorem find_best {templates root : Path} {docs : List Value} {changed : List String}
    (hname : IsGeneral name) (hload : Loads w templates docs)
    (h : ∀ s ∈ docs.flatMap Workflow.steps, Searchable s) :
    ∃ found pick, exec (find name templates) w = (.ok found, w) ∧
      (best? found).map (·.step) = pick ∧
      Picks .byPath name (docs.flatMap Workflow.steps) pick ∧
      ((∀ s ∈ docs.flatMap Workflow.steps, ∀ uses, Uses s uses →
          (Action.Reference.ofText uses).names.length = 2) →
        Picks .byRepository name (docs.flatMap Workflow.steps) pick) ∧
      ∃ out err, exec (runBest name templates root changed) w =
        exec (runPick root changed pick)
          { w with stdout := w.stdout ++ out, stderr := w.stderr ++ err } := by
  have hfind := exec_find hname hload h
  have hpick : Picks .byPath name (docs.flatMap Workflow.steps) _ :=
    picks_ranked fun s hs => (rankIn_spec (hload.fields s hs) (h s hs) name).2
  exact ⟨_, _, hfind, rfl, hpick, fun htwo => hpick.congr fun s hs => agree_of_two (htwo s hs),
    exec_runBest hfind⟩

/-! ## Samples -/

/-- Whether all templates in a directory load, with a property of their documents. -/
def loadsWith (templates : Path) (w : Workspace) (property : List Value → Bool) : Bool :=
  match (exec (Template.namesIn templates) w).1 >>= fun names =>
      names.mapM fun (n : String) => (exec (Template.load (templates / n)) w).1 with
  | .ok docs => property docs
  | .error _ => false

theorem exists_of_loadsWith {templates : Path} {property : List Value → Bool}
    (h : loadsWith templates w property) : ∃ docs, Loads w templates docs ∧ property docs := by
  rw [loadsWith] at h
  split at h
  · next docs hdocs =>
    obtain ⟨names, hnames, hload⟩ := bind_eq_ok.mp hdocs
    exact ⟨docs, ⟨names, hnames, mapM_ok hload⟩, h⟩
  · cases h

/-- The action of the step that a name means among some steps, if it means one. -/
def bestUses? (name : String) (steps : List Value) : Option (Option String) :=
  (best? (ranked (rankIn name) steps)).map fun c => usesOf? c.step

/-- Two templates with three actions, each a repository of its own. -/
def threeActions : Workspace where
  tree := Tree.putFiles {} [
    ("t/a.yml", "jobs: {a: {steps: [{uses: q/hello-world}, {uses: Octo/Hello@v1}]}}\n"),
    ("t/b.yml", "jobs: {b: {steps: [{uses: q/hello@v2}]}}\n")]

theorem find_best_sample : ∃ docs found pick, Loads threeActions (Path.ofText "t") docs ∧
    exec (find "hello" (Path.ofText "t")) threeActions = (.ok found, threeActions) ∧
    (best? found).map (·.step) = pick ∧ pick.map usesOf? = some (some "Octo/Hello@v1") ∧
    Picks .byRepository "hello" (docs.flatMap Workflow.steps) pick := by
  have hdocs : loadsWith (Path.ofText "t") threeActions (fun docs =>
      decide ((∀ s ∈ docs.flatMap Workflow.steps, Searchable s) ∧
        (∀ s ∈ docs.flatMap Workflow.steps, ∀ uses ∈ usesOf? s,
          (Action.Reference.ofText uses).names.length = 2) ∧
        bestUses? "hello" (docs.flatMap Workflow.steps) = some (some "Octo/Hello@v1"))) := by
    decide +kernel
  obtain ⟨docs, hloads, hdocs⟩ := exists_of_loadsWith hdocs
  obtain ⟨hsearchable, htwo, hbest⟩ := of_decide_eq_true hdocs
  have hname : IsGeneral "hello" := by
    intro file needle h
    simp [(by decide : split "hello" ':' = ["hello"])] at h
  obtain ⟨found, pick, hfind, hpick, -, hpicks, -⟩ := @find_best "hello" threeActions
    (Path.ofText "t") (Path.ofText ".") docs [] hname hloads hsearchable
  refine ⟨docs, found, pick, hloads, hfind, hpick, ?_, hpicks htwo⟩
  obtain rfl : ranked (rankIn "hello") (docs.flatMap Workflow.steps) = found :=
    Except.ok.inj (Prod.mk.inj ((exec_find hname hloads hsearchable).symm.trans hfind)).1
  rw [← hpick, Option.map_map]
  exact hbest

/-- A template with an action in a directory of its repository. -/
def actionInDirectory : Workspace where
  tree := Tree.putFiles {} [("t/ci.yml", "jobs: {a: {steps: [{uses: octo/tools/lint@v1}]}}\n")]

/-- **An action in a directory** is not found under the repository that it is fetched from. -/
theorem find_directory : ∃ docs step, Loads actionInDirectory (Path.ofText "t") docs ∧
    docs.flatMap Workflow.steps = [step] ∧ HasLong .byRepository "octo/tools" step ∧
    (exec (find "octo/tools" (Path.ofText "t")) actionInDirectory).1 = .ok [] := by
  have hdocs : loadsWith (Path.ofText "t") actionInDirectory (fun docs =>
      decide ((docs.flatMap Workflow.steps).map usesOf? = [some "octo/tools/lint@v1"] ∧
        (∀ s ∈ docs.flatMap Workflow.steps, Searchable s) ∧
        (ranked (rankIn "octo/tools") (docs.flatMap Workflow.steps)).length = 0)) := by
    decide +kernel
  obtain ⟨docs, hloads, hdocs⟩ := exists_of_loadsWith hdocs
  obtain ⟨huses, hsearchable, hnone⟩ := of_decide_eq_true hdocs
  obtain ⟨step, hsteps, huses⟩ := List.map_eq_singleton_iff.mp huses
  have hname : IsGeneral "octo/tools" := by
    intro file needle h
    simp [(by decide : split "octo/tools" ':' = ["octo/tools"])] at h
  refine ⟨docs, step, hloads, hsteps, ⟨_, huses, by decide⟩, ?_⟩
  rw [exec_find hname hloads hsearchable, List.length_eq_zero_iff.mp hnone]

end Candidate

end StepLoom
