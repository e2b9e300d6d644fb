import StepLoom.Proofs.Yaml.WrittenScalar

/-!
# Values are written as they are read

What the pen writes for a value is, for the lexer and for what puts its tokens together, the text of
that value (`written_value`); it is built entry by entry as the value is.
-/

namespace StepLoom

namespace Value

mutual

/-- How deep the collections of a value are nested. -/
def depth : Value → Nat
  | .scalar _ | .pair .. | .set _ | .again _ => 0
  | .list items | .ring _ items => depthOfItems items + 1
  | .map _ fields => depthOfFields fields + 1

def depthOfItems : List Value → Nat
  | [] => 0
  | v :: rest => max v.depth (depthOfItems rest)

def depthOfFields : List (Scalar × Value) → Nat
  | [] => 0
  | (_, v) :: rest => max v.depth (depthOfFields rest)

end

end Value

namespace Yaml

/-- A key that can be written so that it is read back. The lexer does not go back further than 1024
characters from a colon. -/
structure WritableKey (k : Scalar) : Prop where
  writable : Writable k
  width : isSimpleKey k → ((styleOf true k).onLine (scalarText k).toList).length ≤ 1024

mutual

/-- All scalars of a value and all keys can be written so that they are read back. -/
def ValueWritable : Value → Prop
  | .scalar s => Writable s
  | .list items => ItemsWritable items
  | .map _ fields => FieldsWritable fields
  | .pair .. | .set _ | .ring .. | .again _ => False

def ItemsWritable : List Value → Prop
  | [] => True
  | v :: rest => ValueWritable v ∧ ItemsWritable rest

def FieldsWritable : List (Scalar × Value) → Prop
  | [] => True
  | (k, v) :: rest => WritableKey k ∧ ValueWritable v ∧ FieldsWritable rest

end

/-- The pen writes a value behind a mark or a key. -/
def WritesValue (n : Nat) (marked isField : Bool) (v : Value) (p p' : Pen) : Prop :=
  ∃ S ended us, p.Adds p' S ∧ (∀ c ∈ S, isReadable c) ∧ Pen.Done ended p' ∧
    ValueText n marked S ended us ∧ Composes isField us v

/-- The pen writes items at a column, the first of them behind `lead`. -/
def WritesItems (column : Nat) (items : List Value) (lead : List Char) (p p' : Pen) : Prop :=
  ∃ S ended us, p.Adds p' (lead ++ S) ∧ (∀ c ∈ S, isReadable c) ∧ Pen.Done ended p' ∧
    EntryText .blockSequence column S ended (.entry :: us) ∧ ComposesItems (.entry :: us) items

/-- The pen writes fields at a column, the first of them behind `lead`. -/
def WritesFields (column : Nat) (fields : Fields) (lead : List Char) (p p' : Pen) : Prop :=
  ∃ S ended us, p.Adds p' (lead ++ S) ∧ (∀ c ∈ S, isReadable c) ∧ Pen.Done ended p' ∧
    EntryText .blockMapping column S ended us ∧ ComposesFields us fields

variable {n i : Nat} {marked isField ended : Bool} {v : Value} {items : List Value}
  {fields : Fields}
  {p p' p'' : Pen} {S G : List Char} {s k : Scalar} {place : Place}

theorem isReadable_gapTo (ended : Bool) (k : Nat) : ∀ c ∈ gapTo ended k, isReadable c := by
  rw [gapTo]
  cases ended with
  | false =>
    exact List.forall_mem_append.mpr ⟨List.forall_mem_singleton.mpr rfl, isReadable_blanks k⟩
  | true => exact List.forall_mem_append.mpr ⟨List.forall_mem_nil _, isReadable_blanks k⟩

theorem isReadable_leadTo (marked : Bool) (k : Nat) : ∀ c ∈ leadTo marked k, isReadable c := by
  cases marked with
  | false => exact isReadable_nextLine k
  | true => exact List.forall_mem_singleton.mpr rfl

/-! ## Scalars and empty collections -/

theorem writes_scalar (h : Writable s) (hwidth : n + 2 < lineWidth) (hplace : place ≠ .root)
    (hp : Pen.Behind n marked p) : WritesValue n marked isField (.scalar s) p
    (writeScalar (some n) place s p) := by
  obtain ⟨S, isPlain, ended, hspells⟩ := written_scalar h hwidth hplace p
  have hlead : lead p = [' '] := by rw [lead, hp.blank, if_neg Bool.false_ne_true]
  have hadds := hspells.adds
  have htext : ValueText n marked (' ' :: S) ended _ := ValueText.scalar hspells.spelled
  rw [hlead] at hadds
  rw [String.ofList_toList] at htext
  exact ⟨' ' :: S, ended, _, hadds, List.forall_mem_cons.mpr ⟨rfl, hspells.readable⟩,
    hspells.done hp.openEnded, htext, .scalar hspells.tag h.stands⟩

theorem adds_empty (opening closing : String) (hp : Pen.Behind n marked p) :
    p.Adds (writeEmpty opening closing p) (' ' :: (opening.toList ++ closing.toList)) := by
  have hopen : p.Adds (p.mark opening true false) (' ' :: opening.toList) :=
    Pen.adds_spaced hp.blank
  exact hopen.trans (Pen.adds_mark (by simp))

theorem writes_emptyList (hp : Pen.Behind n marked p) :
    WritesValue n marked isField (.list []) p (writeEmpty "[" "]" p) :=
  ⟨_, false, _, adds_empty "[" "]" hp, List.all_eq_true.mp rfl, done_mark _ _,
    ValueText.emptyList, .emptyList⟩

theorem writes_emptyMap {mark : Option Nat} (hp : Pen.Behind n marked p) :
    WritesValue n marked isField (.map mark []) p (writeEmpty "\x7b" "\x7d" p) :=
  ⟨_, false, _, adds_empty "\x7b" "\x7d" hp, List.all_eq_true.mp rfl, done_mark _ _,
    ValueText.emptyMap, .emptyMap⟩

/-! ## Items -/

theorem behind_beginItem (hgoes : Pen.Goes p i G) :
    p.Adds (beginItem i p) (G ++ ['-']) ∧ Pen.Behind i true (beginItem i p) := by
  obtain ⟨hmark, hbehind⟩ := Pen.Free.mark hgoes.free (show "-".length = 1 from rfl)
  exact ⟨hgoes.adds.trans hmark, hbehind⟩

/-- The last item of a list. -/
theorem writes_lastItem (hgoes : Pen.Goes p i G)
    (hv : WritesValue i true false v (beginItem i p) p') :
    WritesItems i [v] G p p' := by
  obtain ⟨S, ended, us, hadds, hread, hdone, htext, hcomposes⟩ := hv
  refine ⟨'-' :: S, ended, us, ?_, List.forall_mem_cons.mpr ⟨rfl, hread⟩, hdone, .item htext, ?_⟩
  · simpa using (behind_beginItem hgoes).1.trans hadds
  · simpa using ComposesItems.cons hcomposes .nil

/-- An item with others behind it. -/
theorem writes_item (hgoes : Pen.Goes p i G) (hv : WritesValue i true false v (beginItem i p) p')
    (hitems : ∀ G', Pen.Goes p' i G' → WritesItems i items G' p' p'') :
    WritesItems i (v :: items) G p p'' := by
  obtain ⟨S, ended, us, hadds, hread, hdone, htext, hcomposes⟩ := hv
  obtain ⟨T, ended', us', hadds', hread', hdone', hentries, hcomposes'⟩ := hitems _ (hdone.goes i)
  have hone : EntryText .blockSequence i ('-' :: S) ended (.entry :: us) := .item htext
  refine ⟨'-' :: S ++ gapTo ended i ++ T, ended', us ++ .entry :: us', ?_, ?_, hdone',
    hone.append hentries, .cons hcomposes hcomposes'⟩
  · simpa using (behind_beginItem hgoes).1.trans (hadds.trans hadds')
  · rw [List.forall_mem_append, List.forall_mem_append]
    exact ⟨⟨List.forall_mem_cons.mpr ⟨rfl, hread⟩, isReadable_gapTo ended i⟩, hread'⟩

/-! ## Fields -/

/-- A key, and the pen behind its colon. -/
inductive WritesKey (i : Nat) (k : Scalar) (G : List Char) (p p' : Pen) : Prop
  | simple {S : List Char} {isPlain : Bool} : p.Adds p' (G ++ (S ++ [':'])) →
      (∀ c ∈ S, isReadable c) →
      Pen.Behind i false p' → Spelled (i + 2) (scalarText k).toList isPlain false S → Flat S →
      S.length ≤ 1024 →
      (if isPlain then Tag.ofPlain .workflow (scalarText k) else .str) = scalarTag k →
      WritesKey i k G p p'
  | long {S : List Char} {isPlain ended : Bool} :
      p.Adds p' (G ++ ('?' :: S ++ gapTo ended i ++ [':'])) →
      (∀ c ∈ S, isReadable c) → Pen.Behind i true p' →
      ValueText i true S ended [.scalar isPlain (scalarText k)] →
      (if isPlain then Tag.ofPlain .workflow (scalarText k) else .str) = scalarTag k →
      WritesKey i k G p p'

theorem noBreak_of_isSimpleKey (h : isSimpleKey k) :
    (scalarText k).toList.any isBreak = false := by
  simp only [isSimpleKey, Bool.and_eq_true, Bool.not_eq_true'] at h
  exact h.2

theorem writes_key (h : WritableKey k) (hwidth : i + 2 < lineWidth) (hgoes : Pen.Goes p i G) :
    WritesKey i k G p (writeKey i k p) := by
  rw [writeKey]
  by_cases hsimple : isSimpleKey k
  · obtain ⟨S, isPlain, hspells, hflat, hS⟩ := written_key h.writable hwidth
      (noBreak_of_isSimpleKey hsimple) (p.indentTo i)
    have hlead : lead (p.indentTo i) = [] := by rw [lead, hgoes.free.blank, if_pos rfl]
    have hadds := hspells.adds
    rw [hlead, List.nil_append] at hadds
    obtain ⟨hcolon, hbehind⟩ := Pen.adds_colon (writeScalar (some i) .key k (p.indentTo i)) i
    simp only [hsimple, if_true]
    refine .simple (hgoes.adds.trans (hadds.trans hcolon)) hspells.readable hbehind hspells.spelled
      hflat ?_
      hspells.tag
    rw [hS]
    exact h.width hsimple
  · rw [Bool.not_eq_true] at hsimple
    obtain ⟨hmark, hbehind⟩ := Pen.Free.mark hgoes.free (show "?".length = 1 from rfl)
    obtain ⟨S, isPlain, ended, hspells⟩ :=
      written_scalar h.writable hwidth (show Place.field ≠ .root by decide)
        ((p.indentTo i).mark "?" true true)
    have hlong : writeLongKey i k ((p.indentTo i).mark "?" true true) =
        writeScalar (some i) .field k ((p.indentTo i).mark "?" true true) := by
      obtain ⟨text, rfl⟩ | hplain := h.writable.plain
      · rfl
      · cases k with
        | pair a b => exact absurd rfl hplain.ne_nil
        | _ => rfl
    have hlead : lead ((p.indentTo i).mark "?" true true) = [' '] := by
      rw [lead, hbehind.blank, if_neg Bool.false_ne_true]
    have hadds := hspells.adds
    rw [hlead] at hadds
    have hfollow := (hspells.done hbehind.openEnded).goes i
    obtain ⟨hcolon, hbehind'⟩ := Pen.Free.mark hfollow.free (show ":".length = 1 from rfl)
    have htext : ValueText i true (' ' :: S) ended _ := ValueText.scalar hspells.spelled
    rw [String.ofList_toList] at htext
    simp only [hsimple, Bool.false_eq_true, if_false, hlong]
    refine .long ?_ (List.forall_mem_cons.mpr ⟨rfl, hspells.readable⟩) hbehind' htext hspells.tag
    have hall := hgoes.adds.trans (hmark.trans (hadds.trans (hfollow.adds.trans hcolon)))
    simpa using hall

/-- A field, and the pen behind its value. -/
def WritesField (i : Nat) (k : Scalar) (v : Value) (G : List Char) (p p' : Pen) : Prop :=
  ∃ S ended us, p.Adds p' (G ++ S) ∧ (∀ c ∈ S, isReadable c) ∧ Pen.Done ended p' ∧
    EntryText .blockMapping i S ended us ∧
    ∀ more fields, ComposesFields more fields → ComposesFields (us ++ more) ((k, v) :: fields)

theorem writes_field (hk : WritableKey k) (h : WritesKey i k G p p')
    (hv : ∀ marked, Pen.Behind i marked p' → WritesValue i marked true v p' p'') :
    WritesField i k v G p p'' := by
  cases h with
  | @simple S isPlain hadds hread hbehind hspelled hflat hlength htag =>
    obtain ⟨T, ended, us, hadds', hread', hdone, htext, hcomposes⟩ := hv false hbehind
    have hfield := EntryText.field hspelled hflat hlength htext
    rw [String.ofList_toList] at hfield
    refine ⟨S ++ ':' :: T, ended, _, ?_, ?_, hdone, hfield, fun more fields hmore => ?_⟩
    · simpa using hadds.trans hadds'
    · exact List.forall_mem_append.mpr ⟨hread, List.forall_mem_cons.mpr ⟨rfl, hread'⟩⟩
    · exact .cons htag hk.writable.stands hcomposes hmore
  | @long S isPlain ended' hadds hread hbehind hkey htag =>
    obtain ⟨T, ended, us, hadds', hread', hdone, htext, hcomposes⟩ := hv true hbehind
    refine ⟨'?' :: S ++ gapTo ended' i ++ ':' :: T, ended, _, ?_, ?_, hdone,
      EntryText.longField hkey htext,
      fun more fields hmore => ?_⟩
    · simpa using hadds.trans hadds'
    · rw [List.forall_mem_append, List.forall_mem_append]
      exact ⟨⟨List.forall_mem_cons.mpr ⟨rfl, hread⟩, isReadable_gapTo ended' i⟩,
        List.forall_mem_cons.mpr ⟨rfl, hread'⟩⟩
    · simpa using ComposesFields.cons htag hk.writable.stands hcomposes hmore

/-- The last field of a mapping. -/
theorem WritesField.last (h : WritesField i k v G p p') : WritesFields i [(k, v)] G p p' := by
  obtain ⟨S, ended, us, hadds, hread, hdone, hentry, hcomposes⟩ := h
  have hone := hcomposes [] [] .nil
  rw [List.append_nil] at hone
  exact ⟨S, ended, us, hadds, hread, hdone, hentry, hone⟩

/-- A field with others behind it. -/
theorem WritesField.cons (h : WritesField i k v G p p')
    (hfields : ∀ G', Pen.Goes p' i G' → WritesFields i fields G' p' p'') :
    WritesFields i ((k, v) :: fields) G p p'' := by
  obtain ⟨S, ended, us, hadds, hread, hdone, hentry, hcomposes⟩ := h
  obtain ⟨T, ended', us', hadds', hread', hdone', hentries, hcomposes'⟩ := hfields _ (hdone.goes i)
  refine ⟨S ++ gapTo ended i ++ T, ended', us ++ us', ?_, ?_, hdone', hentry.append hentries,
    hcomposes us' fields hcomposes'⟩
  · simpa using hadds.trans hadds'
  · rw [List.forall_mem_append, List.forall_mem_append]
    exact ⟨⟨hread, isReadable_gapTo ended i⟩, hread'⟩

/-! ## Values -/

/-- A list, one level deeper. -/
theorem WritesItems.value (h : WritesItems (n + 2) items (leadTo marked (n + 2)) p p') :
    WritesValue n marked isField (.list items) p p' := by
  obtain ⟨S, ended, us, hadds, hread, hdone, hentries, hcomposes⟩ := h
  exact ⟨_, ended, _, hadds, List.forall_mem_append.mpr ⟨isReadable_leadTo marked _, hread⟩, hdone,
    .indented hentries, .list hcomposes⟩

/-- A list in a field that is not indented. -/
theorem WritesItems.levelValue (h : WritesItems n items (leadTo false n) p p') :
    WritesValue n false true (.list items) p p' := by
  obtain ⟨S, ended, us, hadds, hread, hdone, hentries, hcomposes⟩ := h
  exact ⟨_, ended, _, hadds, List.forall_mem_append.mpr ⟨isReadable_leadTo false _, hread⟩, hdone,
    .level hentries, .levelList hcomposes⟩

theorem WritesFields.value
    {mark : Option Nat} (h : WritesFields (n + 2) fields (leadTo marked (n + 2)) p p') :
    WritesValue n marked isField (.map mark fields) p p' := by
  obtain ⟨S, ended, us, hadds, hread, hdone, hentries, hcomposes⟩ := h
  exact ⟨_, ended, _, hadds, List.forall_mem_append.mpr ⟨isReadable_leadTo marked _, hread⟩, hdone,
    .indented hentries, .map hcomposes⟩

mutual

/-- **A value is written as it is read.** -/
theorem written_value : ∀ (v : Value) (n : Nat) (marked : Bool) (place : Place)
    (p : Pen), ValueWritable v →
    n + 2 * v.depth + 2 < lineWidth → (place = .item ∧ marked = true ∨ place = .field) →
    Pen.Behind n marked p →
    WritesValue n marked (place == .field) v p (writeValue (some n) place v p)
  | .scalar s, n, marked, place, p, h, hwidth, hplace, hp => by
    rw [writeValue]
    rw [Value.depth] at hwidth
    exact writes_scalar h (by omega) (by rintro rfl; simp at hplace) hp
  | .list [], n, marked, place, p, _, _, _, hp => by
    rw [writeValue]
    exact writes_emptyList hp
  | .list (v :: rest), n, marked, place, p, h, hwidth, hplace, hp => by
    rw [Value.depth] at hwidth
    rw [writeValue, itemLevel, hp.indention]
    obtain ⟨rfl, rfl⟩ | rfl := hplace
    · have hitems := written_items (v :: rest) (n + 2) p _ (List.cons_ne_nil _ _) h (by omega)
        (hp.goes fun _ => rfl)
      simpa [deeper, indentStep] using hitems.value
    · cases marked with
      | true =>
        have hitems := written_items (v :: rest) (n + 2) p _ (List.cons_ne_nil _ _) h (by omega)
          (hp.goes fun _ => rfl)
        simpa [deeper, indentStep] using hitems.value
      | false =>
        have hitems := written_items (v :: rest) n p _ (List.cons_ne_nil _ _) h (by omega)
          (hp.goes nofun)
        simpa using hitems.levelValue
  | .map _ [], n, marked, place, p, _, _, _, hp => by
    rw [writeValue]
    exact writes_emptyMap hp
  | .map _ (f :: rest), n, marked, place, p, h, hwidth, _, hp => by
    rw [Value.depth] at hwidth
    have hfields := written_fields (f :: rest) (n + 2) p _ (List.cons_ne_nil _ _) h (by omega)
      (hp.goes fun _ => rfl)
    rw [writeValue]
    exact hfields.value
  | .pair .., _, _, _, _, h, _, _, _ | .set _, _, _, _, _, h, _, _, _
  | .ring .., _, _, _, _, h, _, _, _ | .again _, _, _, _, _, h, _, _, _ => h.elim

theorem written_items : ∀ (items : List Value) (i : Nat) (p : Pen) (G : List Char), items ≠ [] →
    ItemsWritable items → i + 2 * Value.depthOfItems items + 2 < lineWidth → Pen.Goes p i G →
    WritesItems i items G p (writeItems i items p)
  | [], _, _, _, hne, _, _, _ => absurd rfl hne
  | v :: rest, i, p, G, _, h, hwidth, hgoes => by
    rw [Value.depthOfItems] at hwidth
    have hv := written_value v i true .item (beginItem i p) h.1 (by omega) (Or.inl ⟨rfl, rfl⟩)
      (behind_beginItem hgoes).2
    rw [writeItems]
    by_cases hrest : rest = []
    · rw [hrest]
      exact writes_lastItem hgoes hv
    · exact writes_item hgoes hv fun G' hG' => written_items rest i _ G' hrest h.2 (by omega) hG'

theorem written_fields : ∀ (fields : List (Scalar × Value)) (i : Nat) (p : Pen)
    (G : List Char), fields ≠ [] →
    FieldsWritable fields → i + 2 * Value.depthOfFields fields + 2 < lineWidth → Pen.Goes p i G →
    WritesFields i fields G p (writeFields i fields p)
  | [], _, _, _, hne, _, _, _ => absurd rfl hne
  | (k, v) :: rest, i, p, G, _, h, hwidth, hgoes => by
    rw [Value.depthOfFields] at hwidth
    have hkey := writes_key h.1 (by omega) hgoes
    have hfield : WritesField i k v G p _ := writes_field h.1 hkey fun marked hbehind =>
      written_value v i marked .field (writeKey i k p) h.2.1 (by omega) (Or.inr rfl) hbehind
    rw [writeFields]
    by_cases hrest : rest = []
    · rw [hrest]
      exact hfield.last
    · exact hfield.cons fun G' hG' => written_fields rest i _ G' hrest h.2.2 (by omega) hG'

end

end Yaml

end StepLoom
