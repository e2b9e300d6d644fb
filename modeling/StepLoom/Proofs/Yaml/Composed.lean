import StepLoom.Proofs.Run
import StepLoom.Yaml.Reader

/-!
# Nodes of a value

The nodes of a document are numbered as its tokens come: a collection in front of its parts.
`NodesOf` says which nodes, from a number on, stand for a value, and `Composes` of tokens that they
are put together to such nodes, whatever comes before and behind. As for texts, the tokens of a
collection are put together from those of its parts.
-/

namespace StepLoom

namespace Yaml

/-- The text stands for the scalar under the tag, wherever it is. -/
structure StandsFor (tag : Tag) (text : String) (s : Scalar) : Prop where
  scalar : Reader.isScalarTag tag
  reads : ∀ place, Literal.read place tag text = .ok s

mutual

/-- The nodes, numbered from `first` on, stand for the value. -/
inductive NodesOf : (first : Nat) → Value → List Node → Prop
  | scalar {first : Nat} {tag : Tag} {text : String} {s : Scalar} : StandsFor tag text s →
      NodesOf first (.scalar s) [.scalar tag text]
  | list {first : Nat} {items : List Value} {numbers : List Nat} {ns : List Node} :
      ItemsOf (first + 1) items numbers ns → NodesOf first (.list items) (.seq .seq numbers :: ns)
  | map {first : Nat} {mark : Option Nat} {fields : Fields} {pairs : List (Nat × Nat)}
      {ns : List Node} :
      FieldsOf (first + 1) fields pairs ns → NodesOf first (.map mark fields)
      (.map .map pairs :: ns)

/-- The nodes stand for items, which have the numbers. -/
inductive ItemsOf : (first : Nat) → List Value → (numbers : List Nat) → List Node → Prop
  | nil {first : Nat} : ItemsOf first [] [] []
  | cons {first : Nat} {v : Value} {items : List Value} {numbers : List Nat} {ns ns' : List Node} :
      NodesOf first v ns → ItemsOf (first + ns.length) items numbers ns' →
      ItemsOf first (v :: items) (first :: numbers) (ns ++ ns')

/-- The nodes stand for fields, whose keys and values have the numbers. -/
inductive FieldsOf : (first : Nat) → Fields → (pairs : List (Nat × Nat)) → List Node → Prop
  | nil {first : Nat} : FieldsOf first [] [] []
  | cons {first : Nat} {tag : Tag} {text : String} {key : Scalar} {v : Value} {fields : Fields}
      {pairs : List (Nat × Nat)} {ns ns' : List Node} : StandsFor tag text key →
      NodesOf (first + 1) v ns → FieldsOf (first + 1 + ns.length) fields pairs ns' →
      FieldsOf first ((key, v) :: fields) ((first, first + 1) :: pairs)
        (.scalar tag text :: ns ++ ns')

end

/-- A node may begin with the token. In a field it may be the first entry of a list. -/
inductive Begins : (isField : Bool) → Token → Prop
  | scalar {isField : Bool} (isPlain : Bool) (text : String) : Begins isField (.scalar isPlain text)
  | blockSequence {isField : Bool} : Begins isField .blockSequence
  | blockMapping {isField : Bool} : Begins isField .blockMapping
  | openBracket {isField : Bool} : Begins isField .openBracket
  | openBrace {isField : Bool} : Begins isField .openBrace
  | entry : Begins true .entry

namespace Composer

/-- A composer with tokens left and nodes found, in a document without directives and anchors. -/
def composing (tokens : List Token) (ns : List Node) : Composer where
  dialect := .workflow
  tokens := tokens
  broken := none
  nodes := ns.toArray
  handles := defaultHandles

variable {α : Type} {t : Token} {tokens more : List Token} {ns new : List Node} {fuel : Nat}
  {isField : Bool}

theorem run_peek : peek.run (composing (t :: tokens) ns) =
    .ok (some t, composing (t :: tokens) ns) := rfl

theorem run_drop : drop.run (composing (t :: tokens) ns) = .ok ((), composing tokens ns) := rfl

theorem run_add (n : Node) :
    (add none n).run (composing tokens ns) = .ok (ns.length, composing tokens (ns ++ [n])) := by
  change Except.ok (ns.toArray.size, { composing tokens ns with nodes := ns.toArray.push n }) = _
  rw [List.size_toArray, List.push_toArray]
  rfl

theorem run_complete {a b : Node} : (complete ns.length b).run (composing tokens (ns ++ a :: new)) =
    .ok (ns.length, composing tokens (ns ++ b :: new)) := by
  change Except.ok (ns.length, { composing tokens (ns ++ a :: new) with
    nodes := (ns ++ a :: new).toArray.setIfInBounds ns.length b }) = _
  rw [List.setIfInBounds_toArray, List.set_append_right _ _ (Nat.le_refl _), Nat.sub_self,
    List.set_cons_zero]
  rfl

theorem run_sequence {items : Step (List Nat)} {numbers : List Nat} {tokens' : List Token}
    (h : items.run (composing tokens (ns ++ [.seq .seq []])) =
      .ok (numbers, composing tokens' (ns ++ .seq .seq [] :: new))) :
    (sequence none none items).run (composing tokens ns) =
      .ok (ns.length, composing tokens' (ns ++ .seq .seq numbers :: new)) := by
  rw [sequence, run_bind_ok (run_add _), collectionTag, run_bind_ok h, run_complete]

theorem run_mapping {pairs : Step (List (Nat × Nat))} {numbers : List (Nat × Nat)}
    {tokens' : List Token}
    (h : pairs.run (composing tokens (ns ++ [.map .map []])) =
      .ok (numbers, composing tokens' (ns ++ .map .map [] :: new))) :
    (mapping none none pairs).run (composing tokens ns) =
      .ok (ns.length, composing tokens' (ns ++ .map .map numbers :: new)) := by
  rw [mapping, run_bind_ok (run_add _), collectionTag, run_bind_ok h, run_complete]

/-! A node that has no properties in front of it is told by its token. -/

theorem run_scalar {isPlain : Bool} {text : String} {tag : Tag}
    (htag : (if isPlain then Tag.ofPlain .workflow text else .str) = tag) :
    (node (fuel + 1) true isField).run (composing (.scalar isPlain text :: tokens) ns) =
      .ok (ns.length, composing tokens (ns ++ [.scalar tag text])) := by
  subst htag
  cases isPlain <;> exact run_add _

theorem run_blockSequence :
    (node (fuel + 1) true isField).run (composing (.blockSequence :: tokens) ns) =
      (sequence none none (blockEntries fuel)).run (composing tokens ns) := rfl

theorem run_entry : (node (fuel + 1) true true).run (composing (.entry :: tokens) ns) =
    (sequence none none (levelEntries fuel)).run (composing (.entry :: tokens) ns) := rfl

theorem run_blockMapping :
    (node (fuel + 1) true isField).run (composing (.blockMapping :: tokens) ns) =
      (mapping none none (blockFields fuel)).run (composing tokens ns) := rfl

theorem run_openBracket :
    (node (fuel + 1) true isField).run (composing (.openBracket :: tokens) ns) =
      (sequence none none (flowItems fuel true)).run (composing tokens ns) := rfl

theorem run_openBrace :
    (node (fuel + 1) true isField).run (composing (.openBrace :: tokens) ns) =
      (mapping none none (flowFields fuel true)).run (composing tokens ns) := rfl

end Composer

open Composer (composing)

/-! ## Values -/

/-- No entry comes next. -/
def NoEntry (more : List Token) : Prop := ∀ t ∈ more.head?, t ≠ .entry

/-- The tokens of a value. -/
structure Composes (isField : Bool) (us : List Token) (v : Value) : Prop where
  begins : ∃ t more, us = t :: more ∧ Begins isField t
  composes : ∀ fuel ns more, 2 * us.length ≤ fuel → (isField → NoEntry more) →
    ∃ new, NodesOf ns.length v new ∧
      (Composer.node fuel true isField).run (composing (us ++ more) ns) =
        .ok (ns.length, composing more (ns ++ new))

/-- The tokens of the items of a list, in both forms that a list has. -/
structure ComposesItems (us : List Token) (items : List Value) : Prop where
  block : ∀ fuel ns more, 1 ≤ fuel → 2 * us.length ≤ fuel + 1 →
    ∃ numbers new, ItemsOf ns.length items numbers new ∧
      (Composer.blockEntries fuel).run (composing (us ++ .blockEnd :: more) ns) =
        .ok (numbers, composing more (ns ++ new))
  level : ∀ fuel ns more, 1 ≤ fuel → 2 * us.length ≤ fuel + 1 → NoEntry more →
    ∃ numbers new, ItemsOf ns.length items numbers new ∧
      (Composer.levelEntries fuel).run (composing (us ++ more) ns) =
        .ok (numbers, composing more (ns ++ new))

/-- The tokens of the fields of a mapping. -/
structure ComposesFields (us : List Token) (fields : Fields) : Prop where
  begins : ∀ more, NoEntry more → NoEntry (us ++ more)
  composes : ∀ fuel ns more, 1 ≤ fuel → 2 * us.length ≤ fuel + 1 →
    ∃ pairs new, FieldsOf ns.length fields pairs new ∧
      (Composer.blockFields fuel).run (composing (us ++ .blockEnd :: more) ns) =
        .ok (pairs, composing more (ns ++ new))

variable {isField isPlain : Bool} {us us' : List Token} {v : Value} {items : List Value}
  {fields : Fields}
  {text : String} {s key : Scalar} {tag : Tag}

theorem Composes.scalar (htag : (if isPlain then Tag.ofPlain .workflow text else .str) = tag)
    (h : StandsFor tag text s) : Composes isField [.scalar isPlain text] (.scalar s) where
  begins := ⟨_, [], rfl, .scalar isPlain text⟩
  composes fuel ns more hfuel _ := by
    obtain ⟨fuel, rfl⟩ : ∃ m, fuel = m + 1 := ⟨fuel - 1, by simp at hfuel; omega⟩
    exact ⟨_, .scalar h, Composer.run_scalar htag⟩

/-- A list whose items are indented. -/
theorem Composes.list (h : ComposesItems us items) :
    Composes isField (.blockSequence :: us ++ [.blockEnd]) (.list items) where
  begins := ⟨_, us ++ [.blockEnd], rfl, .blockSequence⟩
  composes fuel ns more hfuel _ := by
    obtain ⟨fuel, rfl⟩ : ∃ m, fuel = m + 1 := ⟨fuel - 1, by simp at hfuel; omega⟩
    obtain ⟨numbers, new, hitems, hrun⟩ := h.block fuel (ns ++ [.seq .seq []]) more
      (by simp at hfuel; omega) (by simp at hfuel; omega)
    rw [List.length_append] at hitems
    refine ⟨_, .list hitems, ?_⟩
    rw [List.cons_append, List.cons_append, Composer.run_blockSequence]
    exact Composer.run_sequence (by simpa using hrun)

/-- A list in a field whose items are not indented. -/
theorem Composes.levelList (h : ComposesItems (.entry :: us) items) :
    Composes true (.entry :: us) (.list items) where
  begins := ⟨_, us, rfl, .entry⟩
  composes fuel ns more hfuel hmore := by
    obtain ⟨fuel, rfl⟩ : ∃ m, fuel = m + 1 := ⟨fuel - 1, by simp at hfuel; omega⟩
    obtain ⟨numbers, new, hitems, hrun⟩ := h.level fuel (ns ++ [.seq .seq []]) more
      (by simp at hfuel; omega) (by omega) (hmore rfl)
    rw [List.length_append] at hitems
    refine ⟨_, .list hitems, ?_⟩
    rw [List.cons_append, Composer.run_entry]
    exact Composer.run_sequence (by simpa using hrun)

theorem Composes.map {mark : Option Nat} (h : ComposesFields us fields) :
    Composes isField (.blockMapping :: us ++ [.blockEnd]) (.map mark fields) where
  begins := ⟨_, us ++ [.blockEnd], rfl, .blockMapping⟩
  composes fuel ns more hfuel _ := by
    obtain ⟨fuel, rfl⟩ : ∃ m, fuel = m + 1 := ⟨fuel - 1, by simp at hfuel; omega⟩
    obtain ⟨pairs, new, hfields, hrun⟩ := h.composes fuel (ns ++ [.map .map []]) more
      (by simp at hfuel; omega) (by simp at hfuel; omega)
    rw [List.length_append] at hfields
    refine ⟨_, .map hfields, ?_⟩
    rw [List.cons_append, List.cons_append, Composer.run_blockMapping]
    exact Composer.run_mapping (by simpa using hrun)

theorem Composes.emptyList : Composes isField [.openBracket, .closeBracket] (.list []) where
  begins := ⟨_, [.closeBracket], rfl, .openBracket⟩
  composes fuel ns more hfuel _ := by
    obtain ⟨fuel, rfl⟩ : ∃ m, fuel = m + 2 := ⟨fuel - 2, by simp at hfuel; omega⟩
    have hitems : (Composer.flowItems (fuel + 1) true).run
        (composing (.closeBracket :: more) (ns ++ [.seq .seq []])) =
        .ok ([], composing more (ns ++ .seq .seq [] :: [])) := by
      rw [Composer.flowItems, run_bind_ok Composer.run_peek]
      rfl
    refine ⟨_, .list .nil, ?_⟩
    rw [List.cons_append, List.singleton_append, Composer.run_openBracket]
    exact Composer.run_sequence hitems

theorem Composes.emptyMap {mark : Option Nat} :
    Composes isField [.openBrace, .closeBrace] (.map mark []) where
  begins := ⟨_, [.closeBrace], rfl, .openBrace⟩
  composes fuel ns more hfuel _ := by
    obtain ⟨fuel, rfl⟩ : ∃ m, fuel = m + 2 := ⟨fuel - 2, by simp at hfuel; omega⟩
    have hfields : (Composer.flowFields (fuel + 1) true).run
        (composing (.closeBrace :: more) (ns ++ [.map .map []])) =
        .ok ([], composing more (ns ++ .map .map [] :: [])) := by
      rw [Composer.flowFields, run_bind_ok Composer.run_peek]
      rfl
    refine ⟨_, .map .nil, ?_⟩
    rw [List.cons_append, List.singleton_append, Composer.run_openBrace]
    exact Composer.run_mapping hfields

/-! ## Items and fields -/

theorem ComposesItems.nil : ComposesItems [] [] where
  block fuel ns more hpos _ := by
    obtain ⟨fuel, rfl⟩ : ∃ m, fuel = m + 1 := ⟨fuel - 1, by omega⟩
    refine ⟨[], [], .nil, ?_⟩
    rw [Composer.blockEntries, List.nil_append, run_bind_ok Composer.run_peek, List.append_nil]
    rfl
  level fuel ns more hpos _ hmore := by
    obtain ⟨fuel, rfl⟩ : ∃ m, fuel = m + 1 := ⟨fuel - 1, by omega⟩
    refine ⟨[], [], .nil, ?_⟩
    rw [List.append_nil, List.nil_append]
    cases more with
    | nil => rfl
    | cons t more =>
      have ht : t ≠ .entry := hmore t rfl
      rw [Composer.levelEntries, run_bind_ok Composer.run_peek]
      cases t <;> first | rfl | exact absurd rfl ht

theorem ComposesItems.cons (h : Composes false us v) (h' : ComposesItems us' items) :
    ComposesItems (.entry :: us ++ us') (v :: items) where
  block fuel ns more hpos hfuel := by
    obtain ⟨fuel, rfl⟩ : ∃ m, fuel = m + 1 := ⟨fuel - 1, by omega⟩
    obtain ⟨t, us, rfl, hbegins⟩ := h.begins
    obtain ⟨new, hnodes, hrun⟩ := h.composes fuel ns (us' ++ .blockEnd :: more)
      (by simp at hfuel ⊢; omega) (by simp)
    obtain ⟨numbers, new', hitems, hrun'⟩ := h'.block fuel (ns ++ new) more
      (by simp at hfuel; omega) (by simp at hfuel; omega)
    rw [List.length_append] at hitems
    rw [List.append_assoc] at hrun'
    refine ⟨_, _, .cons hnodes hitems, ?_⟩
    simp only [List.cons_append, List.append_assoc] at hrun ⊢
    rw [Composer.blockEntries, run_bind_ok Composer.run_peek]
    dsimp only
    rw [run_bind_ok Composer.run_drop, run_bind_ok Composer.run_peek]
    cases hbegins <;>
      (dsimp only
       rw [run_bind_ok hrun, run_bind_ok hrun']
       rfl)
  level fuel ns more hpos hfuel hmore := by
    obtain ⟨fuel, rfl⟩ : ∃ m, fuel = m + 1 := ⟨fuel - 1, by omega⟩
    obtain ⟨t, us, rfl, hbegins⟩ := h.begins
    obtain ⟨new, hnodes, hrun⟩ := h.composes fuel ns (us' ++ more)
      (by simp at hfuel ⊢; omega) (by simp)
    obtain ⟨numbers, new', hitems, hrun'⟩ := h'.level fuel (ns ++ new) more
      (by simp at hfuel; omega) (by simp at hfuel; omega) hmore
    rw [List.length_append] at hitems
    rw [List.append_assoc] at hrun'
    refine ⟨_, _, .cons hnodes hitems, ?_⟩
    simp only [List.cons_append, List.append_assoc] at hrun ⊢
    rw [Composer.levelEntries, run_bind_ok Composer.run_peek]
    dsimp only
    rw [run_bind_ok Composer.run_drop, run_bind_ok Composer.run_peek]
    cases hbegins <;>
      (dsimp only
       rw [run_bind_ok hrun, run_bind_ok hrun']
       rfl)

theorem ComposesFields.nil : ComposesFields [] [] where
  begins more h := h
  composes fuel ns more hpos _ := by
    obtain ⟨fuel, rfl⟩ : ∃ m, fuel = m + 1 := ⟨fuel - 1, by omega⟩
    refine ⟨[], [], .nil, ?_⟩
    rw [Composer.blockFields, List.nil_append, run_bind_ok Composer.run_peek, List.append_nil]
    rfl

theorem ComposesFields.cons (htag : (if isPlain then Tag.ofPlain .workflow text else .str) = tag)
    (hkey : StandsFor tag text key) (h : Composes true us v) (h' : ComposesFields us' fields) :
    ComposesFields (.key :: .scalar isPlain text :: .value :: us ++ us') ((key, v) :: fields) where
  begins more _ := by
    intro t ht
    obtain rfl : .key = t := by simpa using ht
    exact nofun
  composes fuel ns more hpos hfuel := by
    obtain ⟨fuel, rfl⟩ : ∃ m, fuel = m + 2 := ⟨fuel - 2, by simp at hfuel; omega⟩
    obtain ⟨t, us, rfl, hbegins⟩ := h.begins
    obtain ⟨new, hnodes, hrun⟩ :=
      h.composes (fuel + 1) (ns ++ [.scalar tag text]) (us' ++ .blockEnd :: more)
      (by simp at hfuel ⊢; omega) (fun _ => h'.begins _ (by simp [NoEntry]))
    obtain ⟨pairs, new', hfields, hrun'⟩ :=
      h'.composes (fuel + 1) (ns ++ [.scalar tag text] ++ new) more
      (by simp at hfuel; omega) (by simp at hfuel; omega)
    have hvalue : ns.length + [Node.scalar tag text].length = ns.length + 1 := rfl
    rw [List.length_append, hvalue] at hnodes hrun
    rw [List.length_append, List.length_append, hvalue] at hfields
    refine ⟨_, _, .cons hkey hnodes hfields, ?_⟩
    simp only [List.cons_append, List.append_assoc, List.nil_append] at hrun hrun' ⊢
    rw [Composer.blockFields, run_bind_ok Composer.run_peek]
    dsimp only
    rw [run_bind_ok Composer.run_drop, run_bind_ok Composer.run_peek]
    dsimp only
    rw [run_bind_ok (Composer.run_scalar htag), run_bind_ok Composer.run_peek]
    dsimp only
    rw [run_bind_ok Composer.run_drop, run_bind_ok Composer.run_peek]
    cases hbegins <;>
      (dsimp only
       rw [run_bind_ok hrun, run_bind_ok hrun']
       rfl)

/-! ## The document -/

namespace Composer

theorem run_some {x : Step Nat} {s s' : Composer} {n : Nat} (h : x.run s = .ok (n, s')) :
    (some <$> x).run s = .ok (some n, s') := by
  rw [map_eq_pure_bind, run_bind_ok h]
  rfl

/-- The marks of document ends are passed over. -/
theorem run_dropEnds (fuel : Nat) (marks : List Token)
    (hmarks : marks = [.documentEnd] ∨ marks = [])
    (ns : List Node) : (dropEnds (fuel + 2)).run (composing (marks ++ [.streamEnd]) ns) =
      .ok ((), composing [.streamEnd] ns) := by
  obtain rfl | rfl := hmarks <;> rfl

end Composer

/-- **The nodes of a document**; a mark at its end counts nothing. -/
theorem nodes_of_tokens (h : Composes false us v) (marks : List Token)
    (hmarks : marks = [.documentEnd] ∨ marks = []) :
    ∃ ns, NodesOf 0 v ns ∧ Document.ofTokens .workflow ⟨us ++ (marks ++ [.streamEnd]), none⟩ =
      .ok ⟨ns.toArray, some 0⟩ := by
  obtain ⟨t, us, rfl, hbegins⟩ := h.begins
  let all : List Token := t :: (us ++ (marks ++ [.streamEnd]))
  let start : Composer := { dialect := .workflow, tokens := all, broken := none }
  obtain ⟨ns, hnodes, hrun⟩ := h.composes (2 * all.length + 2) [] (marks ++ [.streamEnd])
    (by simp [all]; omega) (by simp)
  have hroot := Composer.run_some hrun
  have hdrop := Composer.run_dropEnds (2 * all.length) marks hmarks ns
  have hpeek : Composer.peek.run start = .ok (some t, start) := rfl
  have hget : (get : Composer.Step Composer).run start = .ok (start, start) := rfl
  have hhandles : (modify fun s => { s with handles :=
    Composer.defaultHandles } : Composer.Step Unit).run start =
      .ok ((), composing all []) := rfl
  have hdocument : Composer.document.run start = .ok (some 0, composing [.streamEnd] ns) := by
    rw [Composer.document, run_bind_ok hget]
    cases hbegins
    all_goals
      dsimp only
      rw [run_bind_ok hpeek]
      dsimp only
      rw [run_bind_ok hhandles]
      exact (run_bind_ok hroot).trans (run_bind_ok hdrop)
  refine ⟨ns, hnodes, ?_⟩
  change (Composer.document.run start >>= _) = _
  rw [hdocument]
  rfl

end Yaml

end StepLoom
