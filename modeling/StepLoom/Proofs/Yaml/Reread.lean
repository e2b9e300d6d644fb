import StepLoom.Proofs.Yaml.Numerals
import StepLoom.Proofs.Yaml.Scanned
import StepLoom.Proofs.Yaml.Valued
import StepLoom.Proofs.Yaml.Written

/-!
# What is written is read back

Two things of data are not read back as they are written: the line end U+0085 in a text that is not
in double quotes, and a key that is so long, spelled in front of its colon, that the reader does not
find the colon. A value without them is *kept*.

**Theorem (`read_write`).** A mapping of data that is kept is read back as itself, whatever its
texts hold and however it is nested.
-/

namespace StepLoom

namespace Yaml

variable {v : Value} {fields : Fields} {mark : Option Nat} {header : String}

/-- What is behind the last field: a line end, unless there is one already, and perhaps a mark. -/
inductive Closes (S : List Char) (ended : Bool) : List Char → Prop
  | line : Closes S ended (S ++ gapTo ended 0)
  | marked : ended = true → Closes S ended (S ++ ['.', '.', '.', '\n'])

/-- The end of a document. -/
theorem written_closes (mark : Option Nat) (hne : fields ≠ []) (h : FieldsWritable fields)
    (hdepth : 2 * Value.depthOfFields fields + 2 < lineWidth) :
    ∃ S ended us, Closes S ended (written (.map mark fields)).toList ∧ (∀ c ∈ S, isReadable c) ∧
      EntryText .blockMapping 0 S ended us ∧ ComposesFields us fields := by
  have hstart : Pen.Goes {} 0 [] := Pen.Free.goes ⟨rfl, rfl, rfl⟩ 0
  obtain ⟨S, ended, us, hadds, hread, hdone, hentries, hcomposes⟩ :=
    written_fields fields 0 {} [] hne h (by omega) hstart
  refine ⟨S, ended, us, ?_, hread, hentries, hcomposes⟩
  have hwrite : writeValue none .root (.map mark fields) {} = writeFields 0 fields {} := by
    obtain ⟨f, rest, rfl⟩ := List.exists_cons_of_ne_nil hne
    rw [writeValue]
    rfl
  have hlast := hdone.goes 0
  have hline : Pen.Adds {} ((writeFields 0 fields {}).indentTo 0) (S ++ gapTo ended 0) :=
    hadds.trans hlast.adds
  rw [written, hwrite]
  cases hopen : (writeFields 0 fields {}).openEnded with
  | false =>
    have hnot : ((writeFields 0 fields {}).indentTo 0).openEnded = false := by
      rw [hlast.openEnded, hopen]
    simp only [hnot, Bool.false_eq_true, if_false]
    rw [hline]
    exact .line
  | true =>
    obtain rfl : ended = true := hdone.openEnded hopen
    have hyes : ((writeFields 0 fields {}).indentTo 0).openEnded = true := by
      rw [hlast.openEnded, hopen]
    have hdots : ((writeFields 0 fields {}).indentTo 0).Adds
        (((writeFields 0 fields {}).indentTo 0).mark "..." true false) "...".toList :=
      Pen.adds_mark (by simp [hlast.free.blank])
    have hend : Pen.Goes (((writeFields 0 fields {}).indentTo 0).mark "..." true false) 0 _ :=
      Pen.goes_line (Or.inl (by simp [Pen.mark]))
    have hall := hline.trans (hdots.trans hend.adds)
    have hmarked : S ++ gapTo true 0 ++ ("...".toList ++ '\n' :: List.replicate 0 ' ') =
        S ++ ['.', '.', '.', '\n'] := by simp [gapTo]
    rw [hmarked] at hall
    simp only [hyes, if_true]
    rw [hall]
    exact .marked rfl

/-- **What is written is read back**: a mapping, under a comment. -/
theorem read_written (hne : fields ≠ []) (h : FieldsWritable fields)
    (hdepth : 2 * Value.depthOfFields fields + 2 < lineWidth)
    (hdata : (Value.map mark fields).isData)
    (hheader : IsHeader header.toList) (hreadable : header.toList.all isReadable) :
    read .workflow (header ++ written (.map mark fields)) =
      .ok (Value.map mark fields).unshare := by
  obtain ⟨S, ended, us, hcloses, hread, hentries, hcomposes⟩ := written_closes mark hne h hdepth
  have htext : (header ++ written (.map mark fields)).toList =
      header.toList ++ (written (.map mark fields)).toList := String.toList_append
  have hvalue : Composes false (.blockMapping :: us ++ [.blockEnd]) (.map mark fields) :=
    .map hcomposes
  rw [List.all_eq_true] at hreadable
  generalize (written (.map mark fields)).toList = body at hcloses htext
  cases hcloses with
  | line =>
    refine read_of_tokens ?_ ?_ (Or.inr rfl) hvalue hdata
    · rw [htext, List.all_eq_true, List.forall_mem_append, List.forall_mem_append]
      exact ⟨hreadable, hread, isReadable_gapTo ended 0⟩
    · rw [htext, tokens_document hentries hheader]
      simp
  | marked hended =>
    subst hended
    refine read_of_tokens ?_ ?_ (Or.inl rfl) hvalue hdata
    · rw [htext, List.all_eq_true, List.forall_mem_append, List.forall_mem_append]
      exact ⟨hreadable, hread, List.all_eq_true.mp rfl⟩
    · rw [htext, tokens_document_marked hentries hheader]
      simp

/-! ## Data that is kept -/

/-- A key as it stands in front of its colon. -/
def keyText (k : Scalar) : String := (writeScalar (some 0) .key k {}).out

/-- The text of the scalar holds no line end U+0085, or it is in double quotes, where an escape
spells it. -/
def scalarIsKept (s : Scalar) : Bool :=
  !(scalarText s).toList.contains '\u0085' || styleOf false s == .double

/-- The colon behind a key on one line is found. Such a key holds no line end. -/
def keyIsKept (k : Scalar) : Bool :=
  if isSimpleKey k then decide ((keyText k).length ≤ 1024) else scalarIsKept k

mutual

/-- All scalars of the value, and all its keys, are kept. -/
def isKept : Value → Bool
  | .scalar s => scalarIsKept s
  | .list items | .ring _ items => itemsAreKept items
  | .map _ fields => fieldsAreKept fields
  | .pair .. | .set _ | .again _ => true

def itemsAreKept : List Value → Bool
  | [] => true
  | v :: rest => isKept v && itemsAreKept rest

def fieldsAreKept : List (Scalar × Value) → Bool
  | [] => true
  | (k, v) :: rest => keyIsKept k && isKept v && fieldsAreKept rest

end

theorem hasText_of_scalarObstacle {s : Scalar} (hwrite : scalarObstacle? s = none) :
    s.hasText := by
  by_contra htext
  rw [scalarObstacle?, if_neg htext] at hwrite
  cases hwrite

theorem writable_of_isKept {s : Scalar} (hdata : s.isData) (hwrite : scalarObstacle? s = none)
    (hkept : scalarIsKept s) : Writable s := by
  refine writable_of_isData hdata (hasText_of_scalarObstacle hwrite) fun hstyle c hc => ?_
  rintro rfl
  rw [scalarIsKept, List.contains_iff_mem.mpr hc, Bool.not_true, Bool.false_or,
    beq_iff_eq] at hkept
  exact hstyle hkept

theorem writableKey_of_isKept {k : Scalar} (hdata : k.isData) (hwrite : scalarObstacle? k = none)
    (hkept : keyIsKept k) : WritableKey k := by
  rw [keyIsKept] at hkept
  split_ifs at hkept with hsimple
  · have hwritable : Writable k := writable_of_isData hdata (hasText_of_scalarObstacle hwrite)
      fun _ => ne_nextLine_of_noBreak (noBreak_of_any (noBreak_of_isSimpleKey hsimple))
    have hspelled : (keyText k).toList = (styleOf true k).onLine (scalarText k).toList :=
      adds_key hwritable {}
    refine ⟨hwritable, fun _ => ?_⟩
    rw [← hspelled, String.length_toList]
    exact of_decide_eq_true hkept
  · exact ⟨writable_of_isKept hdata hwrite hkept, fun h => absurd h hsimple⟩

mutual

/-- Data that is kept and has no obstacle can be written so that it is read back. -/
theorem valueWritable : ∀ v : Value, v.isData → obstacle? v = none → isKept v → ValueWritable v
  | .scalar _, hdata, hwrite, hkept => writable_of_isKept hdata hwrite hkept
  | .list items, hdata, hwrite, hkept => itemsWritable items hdata hwrite hkept
  | .map _ fields, hdata, hwrite, hkept => by
    rw [Value.isData, Bool.and_eq_true] at hdata
    exact fieldsWritable fields hdata.2 hwrite hkept

theorem itemsWritable : ∀ items : List Value, Value.itemsAreData items →
    itemsObstacle? items = none → itemsAreKept items → ItemsWritable items
  | [], _, _, _ => trivial
  | v :: rest, hdata, hwrite, hkept => by
    rw [Value.itemsAreData, Bool.and_eq_true] at hdata
    rw [itemsObstacle?, Option.or_eq_none_iff] at hwrite
    rw [itemsAreKept, Bool.and_eq_true] at hkept
    exact ⟨valueWritable v hdata.1 hwrite.1 hkept.1, itemsWritable rest hdata.2 hwrite.2 hkept.2⟩

theorem fieldsWritable : ∀ fields : List (Scalar × Value), Value.fieldsAreData fields →
    fieldsObstacle? fields = none → fieldsAreKept fields → FieldsWritable fields
  | [], _, _, _ => trivial
  | (k, v) :: rest, hdata, hwrite, hkept => by
    rw [Value.fieldsAreData, Bool.and_eq_true, Bool.and_eq_true] at hdata
    rw [fieldsObstacle?, Option.or_eq_none_iff, Option.or_eq_none_iff] at hwrite
    rw [fieldsAreKept, Bool.and_eq_true, Bool.and_eq_true] at hkept
    exact ⟨writableKey_of_isKept hdata.1.1 hwrite.1.1 hkept.1.1,
      valueWritable v hdata.1.2 hwrite.1.2 hkept.1.2, fieldsWritable rest hdata.2 hwrite.2 hkept.2⟩

end

/-- **What is written is read back**: a mapping of data that is kept, under a comment. -/
theorem read_write {text : String} (hne : fields ≠ [])
    (hwrite : write (.map mark fields) = .ok text)
    (hdata : (Value.map mark fields).isData) (hkept : isKept (.map mark fields))
    (hdepth : 2 * (Value.map mark fields).depth < lineWidth) (hheader : IsHeader header.toList)
    (hreadable : header.toList.all isReadable) :
    read .workflow (header ++ text) = .ok (Value.map mark fields).unshare := by
  rw [write] at hwrite
  split at hwrite
  · cases hwrite
  · next hobstacle =>
    obtain rfl := Except.ok.inj hwrite
    have hwritable : FieldsWritable fields := valueWritable _ hdata hobstacle hkept
    rw [Value.depth] at hdepth
    exact read_written hne hwritable (by omega) hdata hheader hreadable

end Yaml

end StepLoom
