import StepLoom.Proofs.Yaml.PlainScalar
import StepLoom.Yaml.Writer

/-!
# Literal blocks are read back

A literal block is a header and the lines of the text, each behind the indentation of the block
(`BlockText`). The header tells the indentation if the text starts with a blank, and what becomes of
the line ends at the end. The reader takes a block back to its text (`block_reads`) unless the text
holds the line end U+0085, which is read as a line feed.
-/

namespace StepLoom

namespace Yaml

/-- The line ends that are kept in a block. -/
def IsKept (c : Char) : Prop := isBreak c ∧ c ≠ '\u0085'

/-- The lines of a text from its first line with characters on, as they are written behind an
indentation by `level`. A last line that does not end gets a line end. -/
inductive Lined (level : Nat) : List Char → List Char → Prop
  | open {w : List Char} : w ≠ [] → (∀ c ∈ w, isBreak c = false) → Lined level w (w ++ ['\n'])
  | closed {w bs : List Char} : w ≠ [] → (∀ c ∈ w, isBreak c = false) → bs ≠ [] →
      (∀ b ∈ bs, IsKept b) →
      Lined level (w ++ bs) (w ++ bs)
  | more {w bs cs t : List Char} : w ≠ [] → (∀ c ∈ w, isBreak c = false) → bs ≠ [] →
      (∀ b ∈ bs, IsKept b) → Lined level cs t →
      Lined level (w ++ bs ++ cs) (w ++ bs ++ List.replicate level ' ' ++ t)

/-- The lines of a text in a block. -/
inductive BlockText (level : Nat) : List Char → List Char → Prop
  | blank {bs : List Char} : bs ≠ [] → (∀ b ∈ bs, IsKept b) → BlockText level bs bs
  | lines {bs cs t : List Char} : (∀ b ∈ bs, IsKept b) → Lined level cs t →
      BlockText level (bs ++ cs) (bs ++ List.replicate level ' ' ++ t)

/-- The end of a text as the reader of a block finds it: up to the last line, its line end, and the
line ends after it. The last line may have no end of its own. -/
inductive Ended : List Char → List Char → List Char → List Char → Prop
  | open {cs : List Char} : (∀ c ∈ cs.getLast?, isBreak c = false) → Ended cs cs ['\n'] []
  | closed {text after : List Char} {b : Char} : (∀ d ∈ b :: after, isBreak d) →
      Ended (text ++ b :: after) text [b] after

theorem Ended.append {cs text last after : List Char} (before : List Char)
    (h : Ended cs text last after)
    (hne : cs ≠ []) : Ended (before ++ cs) (before ++ text) last after := by
  cases h with
  | «open» hlast =>
    refine .open ?_
    rw [List.getLast?_append, List.getLast?_eq_some_getLast hne]
    rwa [List.getLast?_eq_some_getLast hne] at hlast
  | closed hbreaks =>
    rw [← List.append_assoc]
    exact .closed hbreaks

theorem Lined.head {level : Nat} {cs t : List Char} (h : Lined level cs t) :
    ∃ c v u, cs = c :: v ∧ t = c :: u ∧ isBreak c = false := by
  have hword : ∀ {w v u : List Char}, w ≠ [] → (∀ c ∈ w, isBreak c = false) →
      ∃ c v' u', w ++ v = c :: v' ∧ w ++ u = c :: u' ∧ isBreak c = false := by
    intro w v u hne hw
    obtain ⟨c, more, rfl⟩ := List.exists_cons_of_ne_nil hne
    exact ⟨c, more ++ v, more ++ u, rfl, rfl, hw c (by simp)⟩
  cases h with
  | @«open» w hne hw => simpa using hword (v := []) (u := ['\n']) hne hw
  | closed hne hw _ _ => exact hword hne hw
  | more hne hw _ _ _ =>
    rw [List.append_assoc, List.append_assoc, List.append_assoc]
    exact hword hne hw

theorem Lined.ne_nil {level : Nat} {cs t : List Char} (h : Lined level cs t) : cs ≠ [] := by
  obtain ⟨c, v, u, rfl, -, -⟩ := h.head
  simp

theorem endsLine_kept {bs : List Char} (hne : bs ≠ []) (hbs : ∀ b ∈ bs, IsKept b) : EndsLine bs :=
  ⟨bs.dropLast, bs.getLast hne, (List.dropLast_concat_getLast hne).symm,
    (hbs _ (List.getLast_mem hne)).1⟩

/-- The lines of a block end with a line end. -/
theorem Lined.ends {level : Nat} {cs t : List Char} (h : Lined level cs t) : EndsLine t := by
  induction h with
  | @«open» w _ _ => exact ⟨w, '\n', rfl, by decide⟩
  | closed _ _ hne hbs => exact (endsLine_kept hne hbs).append _
  | more _ _ _ _ _ ih => exact ih.append _

theorem BlockText.ends {level : Nat} {cs t : List Char} (h : BlockText level cs t) :
    EndsLine t := by
  cases h with
  | blank hne hbs => exact endsLine_kept hne hbs
  | lines _ hlined => exact hlined.ends.append _

namespace Cursor

variable {before rest cs t w bs : List Char} {level k n fuel : Nat}

/-! ## Blank lines -/

/-- The text behind the indentation of a line: it starts with no line end, and with no space either
if the indentation is not that of the block. -/
def Behind (level k : Nat) (rest : List Char) : Prop :=
  rest.head?.all (!isBreak ·) ∧ k ≤ level ∧ (k < level → rest.head?.all (!isSpace ·))

theorem toIndent_blanks (hcolumn : columnOf before = 0) (h : Behind level k rest) :
    toIndent level (between before (List.replicate k ' ' ++ rest)) =
      between (before ++ List.replicate k ' ') rest := by
  obtain ⟨-, hle, hspace⟩ := h
  have hlength :
      (((List.replicate k ' ' ++ rest).take (level - 0)).takeWhile isSpace).length = k := by
    rw [Nat.sub_zero, List.take_append, List.take_replicate, List.length_replicate,
      Nat.min_eq_right hle, List.takeWhile_append_of_pos (by simp [isSpace]), List.length_append,
      List.length_replicate]
    by_cases hk : k < level
    · cases rest with
      | nil => simp
      | cons c more =>
        have hc : isSpace c = false := by simpa using hspace hk
        obtain ⟨m, hm⟩ : ∃ m, level - k = m + 1 := ⟨level - k - 1, by omega⟩
        simp [hm, hc]
    · simp [show level - k = 0 by omega]
  rw [toIndent, between_column, between_rest, hcolumn, hlength, skip_between (by simp)]

theorem blockBreaks_reads (before : List Char) (hbs : ∀ b ∈ bs, IsKept b)
    (hcolumn : columnOf before = 0) (h : Behind level k rest) (hfuel : bs.length + k ≤ fuel) :
    blockBreaks level fuel (between before (bs ++ (List.replicate k ' ' ++ rest))) =
      (bs, between (before ++ bs ++ List.replicate k ' ') rest) := by
  induction bs generalizing before fuel with
  | nil =>
    cases fuel with
    | zero =>
      obtain rfl : k = 0 := by simpa using hfuel
      simp [blockBreaks]
    | succ fuel =>
      rw [List.nil_append, blockBreaks, toIndent_blanks hcolumn h]
      cases rest with
      | nil => simp
      | cons c more =>
        have hc : isBreak c = false := by simpa using h.1
        simp [hc]
  | cons b bs ih =>
    obtain ⟨fuel, rfl⟩ : ∃ m, fuel = m + 1 := ⟨fuel - 1, by simp at hfuel; omega⟩
    obtain ⟨hb, hnext⟩ := hbs b (by simp)
    have hstay : toIndent level (between before (b :: bs ++ (List.replicate k ' ' ++ rest))) =
        between before (b :: bs ++ (List.replicate k ' ' ++ rest)) := by
      have hspace : isSpace b = false := by
        simp only [isBreak, Bool.or_eq_true, beq_iff_eq] at hb
        obtain ((rfl | rfl) | rfl) | rfl := hb <;> rfl
      rw [toIndent, between_rest]
      cases level - (between before (b :: bs ++ (List.replicate k ' ' ++ rest))).column with
      | zero => simp [skip]
      | succ m => simp [hspace, skip]
    have hroom : bs.length + k ≤ fuel := by
      rw [List.length_cons] at hfuel
      omega
    have hmore := ih (before ++ [b]) (fun d hd => hbs d (List.mem_cons_of_mem b hd))
      (columnOf_snoc_break _ hb) hroom
    rw [blockBreaks, hstay]
    simp only [List.cons_append, between_rest, hb, if_true, step_between, hmore, hnext, if_false]
    simp

/-! ## Lines -/

section Line

variable {b : Char}

theorem columnOf_behind (before : List Char) (hbs : ∀ d ∈ b :: bs, IsKept d) (k : Nat) :
    columnOf (before ++ b :: bs ++ List.replicate k ' ') = k := by
  have hbreak : columnOf (before ++ b :: bs) = 0 :=
    columnOf_endsLine before (endsLine_kept (List.cons_ne_nil b bs) hbs)
  rw [columnOf_append_flat (flat_blanks k), hbreak, List.length_replicate, Nat.zero_add]

theorem columnOf_blanks (hbs : ∀ d ∈ bs, IsKept d) (hcolumn : columnOf before = 0) (k : Nat) :
    columnOf (before ++ bs ++ List.replicate k ' ') = k := by
  cases bs with
  | nil => rw [List.append_nil, columnOf_append_flat (flat_blanks k), hcolumn,
    List.length_replicate, Nat.zero_add]
  | cons b bs => exact columnOf_behind before hbs k

/-- One line, and the line ends behind it. -/
theorem blockLines_line (before : List Char) (fuel : Nat) (breaks : List Char)
    (hw : ∀ c ∈ w, isBreak c = false) (hbs : ∀ d ∈ b :: bs, IsKept d) (h : Behind level k rest) :
    blockLines false level (fuel + 1) breaks
        (between before (w ++ (b :: bs ++ (List.replicate k ' ' ++ rest)))) =
      if k = level && !rest.isEmpty then
        let r := blockLines false level fuel bs
          (between (before ++ w ++ b :: bs ++ List.replicate k ' ') rest)
        ((breaks ++ w ++ [b] ++ r.1.1, r.1.2.1, r.1.2.2), r.2)
      else ((breaks ++ w, [b], bs),
        between (before ++ w ++ b :: bs ++ List.replicate k ' ') rest) := by
  obtain ⟨hb, hnext⟩ := hbs b (by simp)
  have hroom : bs.length + k ≤
      (between (before ++ w) (b :: (bs ++ (List.replicate k ' ' ++ rest)))).room := by
    simp
    omega
  have hbreaks := blockBreaks_reads (before ++ w ++ [b])
    (fun d hd => hbs d (List.mem_cons_of_mem b hd)) (columnOf_snoc_break _ hb) h hroom
  have hcolumn := columnOf_behind (before ++ w) hbs k
  rw [blockLines, word_between (by simpa using hw) (by simp [hb])]
  simp only [List.cons_append, between_rest, List.head?_cons, Option.toList_some, List.map_cons,
    List.map_nil, hnext, if_false, step_between, hbreaks, Bool.false_and, Bool.false_eq_true]
  simp only [List.append_assoc, List.cons_append, List.nil_append] at hcolumn ⊢
  simp only [isAtEnd, between_column, hcolumn, between_rest]

end Line

theorem behind_of_opens (h : Opens rest) (hk : k < level) : Behind level k rest :=
  ⟨h.not_isBreak, Nat.le_of_lt hk, fun _ => h.not_isSpace⟩

/-- **The lines of a block are read back.** -/
theorem blockLines_reads (breaks : List Char) (h : Lined level cs t) (hrest : Opens rest)
    (hk : k < level) (hfuel : t.length < fuel) : ∃ text last after,
      blockLines false level fuel breaks (between before (t ++ (List.replicate k ' ' ++ rest))) =
        ((breaks ++ text, last, after), between (before ++ t ++ List.replicate k ' ') rest) ∧
      Ended cs text last after := by
  induction h generalizing before breaks fuel with
  | @«open» w hne hw =>
    obtain ⟨fuel, rfl⟩ : ∃ m, fuel = m + 1 := ⟨fuel - 1, by omega⟩
    have hkept : ∀ d ∈ ['\n'], IsKept d := by simp [IsKept, isBreak]
    have hline := blockLines_line before fuel breaks hw hkept (behind_of_opens hrest hk)
    refine ⟨w, ['\n'], [], ?_, .open fun c hc => hw c (List.mem_of_getLast? hc)⟩
    simpa [Nat.ne_of_lt hk] using hline
  | @closed w bs hne hw hbne hbs =>
    obtain ⟨fuel, rfl⟩ : ∃ m, fuel = m + 1 := ⟨fuel - 1, by omega⟩
    obtain ⟨b, bs, rfl⟩ := List.exists_cons_of_ne_nil hbne
    have hline := blockLines_line before fuel breaks hw hbs (behind_of_opens hrest hk)
    refine ⟨w, [b], bs, ?_, .closed fun d hd => (hbs d hd).1⟩
    simpa [Nat.ne_of_lt hk] using hline
  | @more w bs cs t hne hw hbne hbs hmore ih =>
    obtain ⟨fuel, rfl⟩ : ∃ m, fuel = m + 1 := ⟨fuel - 1, by omega⟩
    obtain ⟨b, bs, rfl⟩ := List.exists_cons_of_ne_nil hbne
    obtain ⟨c, -, more, -, rfl, hc⟩ := hmore.head
    have hbehind : Behind level level (c :: more ++ (List.replicate k ' ' ++ rest)) :=
      ⟨by simp [hc], Nat.le_refl level, fun h => absurd h (Nat.lt_irrefl level)⟩
    have hline := blockLines_line before fuel breaks hw hbs hbehind
    obtain ⟨text, last, after, htail, hended⟩ :=
      @ih (before ++ w ++ b :: bs ++ List.replicate level ' ') fuel bs (by simp at hfuel ⊢; omega)
    refine ⟨w ++ b :: bs ++ text, last, after, ?_, hended.append _ hmore.ne_nil⟩
    rw [htail] at hline
    simpa using hline

/-! ## Headers -/

/-- What a header says of the line ends at the end. -/
def Chomping.sign : Chomping → String
  | .clip => ""
  | .strip => "-"
  | .keep => "+"

/-- What a header says of the indentation. -/
def widthSign (given : Bool) : String := if given then "2" else ""

theorem blockHeader_reads (before rest : List Char) (given : Bool) (chomping : Chomping) :
    blockHeader (between before ((widthSign given ++ chomping.sign).toList ++ '\n' :: rest)) =
      .ok ((chomping, if given then some 2 else none),
        between (before ++ (widthSign given ++ chomping.sign).toList ++ ['\n']) rest) := by
  have hfinish : ∀ before, finishLine (between before ('\n' :: rest)) =
    .ok (between (before ++ ['\n']) rest) := by
    intro before
    rw [finishLine, skipSpaces, skipWhile_of_not (by simp [isSpace])]
    simp [skipComment, has, isAtLineEnd, isBreak]
  cases given <;> cases chomping <;>
    simp [blockHeader, chomping?, blockIndent?, widthSign, Chomping.sign, has, isAtGap, isBreak,
      hfinish, bind, Except.bind, pure, Except.pure]

/-- What is written about the line ends at the end of a text. -/
def chompingOf (cs : List Char) : Chomping :=
  match cs.reverse with
  | [] => .clip
  | c :: front =>
    if !isBreak c then .strip
    else match front with
      | [] => .keep
      | d :: _ => if isBreak d then .keep else .clip

/-- The text starts with a space or a line end. -/
def startsLoose (cs : List Char) : Bool := cs.head?.any fun c => isSpace c || isBreak c

theorem blockHints_eq (cs : List Char) :
    blockHints cs = widthSign (startsLoose cs) ++ (chompingOf cs).sign := by
  have hwidth : toString indentStep = "2" := by decide
  rw [blockHints, chompingOf, startsLoose, hwidth]
  cases cs.reverse with
  | nil => rfl
  | cons c front =>
    cases front with
    | nil => cases hc : isBreak c <;> simp [widthSign, Chomping.sign, hc]
    | cons d front =>
      cases hc : isBreak c <;> cases hd : isBreak d <;> simp [widthSign, Chomping.sign, hc, hd]

/-- The line ends at the end of a text that stay. -/
def kept (chomping : Chomping) (last after : List Char) : List Char :=
  match chomping with
  | .clip => last
  | .strip => []
  | .keep => last ++ after

theorem append_kept {text last after : List Char} (h : Ended cs text last after) (hne : cs ≠ []) :
    text ++ kept (chompingOf cs) last after = cs := by
  cases h with
  | «open» hlast =>
    obtain ⟨front, c, rfl⟩ : ∃ front c, cs = front ++ [c] :=
      ⟨cs.dropLast, cs.getLast hne, (List.dropLast_concat_getLast hne).symm⟩
    have hc : isBreak c = false := by simpa using hlast
    simp [chompingOf, hc, Cursor.kept]
  | @closed _ _ b hbreaks =>
    obtain hafter | ⟨front, d, rfl⟩ := List.eq_nil_or_concat after
    · subst hafter
      have hb := hbreaks b (by simp)
      cases hback : text.reverse with
      | nil => simp [chompingOf, hb, hback, Cursor.kept]
      | cons d front => cases hd : isBreak d <;> simp [chompingOf, hb, hback, hd, Cursor.kept]
    · have hd := hbreaks d (by simp)
      cases hback : front.reverse with
      | nil => simp [chompingOf, hd, hback, hbreaks b (by simp), Cursor.kept]
      | cons e more =>
        have he : isBreak e := hbreaks e (by
          have hmem : e ∈ front.reverse := by simp [hback]
          simp [List.mem_reverse.mp hmem])
        simp [chompingOf, hd, hback, he, Cursor.kept]

theorem chompingOf_breaks (hne : bs ≠ []) (hbs : ∀ b ∈ bs, IsKept b) : chompingOf bs = .keep := by
  have hback : ∀ b ∈ bs.reverse, isBreak b := fun b hb => (hbs b (List.mem_reverse.mp hb)).1
  rw [chompingOf]
  cases hreverse : bs.reverse with
  | nil => exact absurd (List.reverse_eq_nil_iff.mp hreverse) hne
  | cons c front =>
    rw [hreverse] at hback
    cases front with
    | nil => simp [hback c (by simp)]
    | cons d front => simp [hback c (by simp), hback d (by simp)]

/-! ## Whole blocks -/

/-- Spaces in front of the first line, whose indentation is found out. -/
theorem leadingBreaks_blanks {c : Char} (before rest : List Char) (hspace : isSpace c = false)
    (hbreak : isBreak c = false) (hfuel : k < fuel) :
    leadingBreaks fuel (columnOf before) (between before (List.replicate k ' ' ++ c :: rest)) =
      (([], columnOf before + k), between (before ++ List.replicate k ' ') (c :: rest)) := by
  induction k generalizing before fuel with
  | zero =>
    obtain ⟨fuel, rfl⟩ : ∃ m, fuel = m + 1 := ⟨fuel - 1, by omega⟩
    simp [leadingBreaks, hspace, hbreak]
  | succ k ih =>
    obtain ⟨fuel, rfl⟩ : ∃ m, fuel = m + 1 := ⟨fuel - 1, by omega⟩
    have hcolumn : columnOf (before ++ [' ']) = columnOf before + 1 := columnOf_snoc (by decide)
    have hwidest : max (columnOf before) (columnOf before + 1) = columnOf (before ++ [' ']) := by
      omega
    rw [List.replicate_succ, List.cons_append, leadingBreaks]
    simp only [between_rest, step_between, between_column]
    rw [if_pos (by decide), hcolumn, hwidest, ih (before ++ [' ']) (by omega), hcolumn]
    simp only [Prod.mk.injEq, List.append_assoc, List.cons_append, List.nil_append, and_true,
      true_and]
    omega

/-- The lines of a block from the first one with characters on. -/
theorem blockLines_ended (breaks : List Char) (h : Lined level cs t) (hrest : Opens rest)
    (hk : k < level) (hfuel : t.length < fuel) :
    ∃ text last after,
      blockLines false level fuel breaks (between before (t ++ (List.replicate k ' ' ++ rest))) =
        ((text, last, after), between (before ++ t ++ List.replicate k ' ') rest) ∧
      text ++ kept (chompingOf (breaks ++ cs)) last after = breaks ++ cs := by
  obtain ⟨text, last, after, heq, hended⟩ := blockLines_reads breaks h hrest hk hfuel
  exact ⟨breaks ++ text, last, after, heq, append_kept (hended.append breaks h.ne_nil)
    (by simp [h.ne_nil])⟩

/-- The lines of a block from a cursor on, if there are any. -/
def linesFrom (indent : Nat) (breaks : List Char) (c : Cursor) :
    (List Char × List Char × List Char) × Cursor :=
  if c.column = indent && !c.isAtEnd then blockLines false indent (c.room + 1) breaks c
  else (([], [], breaks), c)

/-- The text of the lines of a block. -/
def textOfLines (chomping : Chomping) (r : (List Char × List Char × List Char) × Cursor) :
    List Char × Cursor :=
  (r.1.1 ++ kept chomping r.1.2.1 r.1.2.2, r.2)

section Whole

variable {indent : Int} {chomping : Chomping} {breaks : List Char} {c d e : Cursor}

theorem block_given (hheader : blockHeader c = .ok ((chomping, some k), d))
    (hlevel : max 1 (indent + 1).toNat + k - 1 = level)
    (hbreaks : blockBreaks level d.room d = (breaks, e)) :
    block false indent c = .ok (textOfLines chomping (linesFrom level breaks e)) := by
  obtain rfl : (blockBreaks level d.room d).1 = breaks := by rw [hbreaks]
  obtain rfl : (blockBreaks level d.room d).2 = e := by rw [hbreaks]
  subst hlevel
  rw [block, hheader]
  cases chomping <;> rfl

theorem block_found (hheader : blockHeader c = .ok ((chomping, none), d))
    (hbreaks : leadingBreaks d.room 0 d = ((breaks, k), e))
    (hlevel : max (max 1 (indent + 1).toNat) k = level) :
    block false indent c = .ok (textOfLines chomping (linesFrom level breaks e)) := by
  obtain rfl : (leadingBreaks d.room 0 d).1.1 = breaks := by rw [hbreaks]
  obtain rfl : (leadingBreaks d.room 0 d).1.2 = k := by rw [hbreaks]
  obtain rfl : (leadingBreaks d.room 0 d).2 = e := by rw [hbreaks]
  subst hlevel
  rw [block, hheader]
  cases chomping <;> rfl

end Whole

theorem linesFrom_reads {start : List Char} (breaks : List Char) (h : Lined level cs t)
    (hrest : Opens rest) (hk : k < level) (hcolumn : columnOf start = level) :
    textOfLines (chompingOf (breaks ++ cs))
        (linesFrom level breaks (between start (t ++ (List.replicate k ' ' ++ rest)))) =
      (breaks ++ cs, between (start ++ t ++ List.replicate k ' ') rest) := by
  have hroom : t.length < (between start (t ++ (List.replicate k ' ' ++ rest))).room + 1 := by
    rw [between_room, List.length_append]
    omega
  have hne : t ++ (List.replicate k ' ' ++ rest) ≠ [] := by
    obtain ⟨c, -, more, -, rfl, -⟩ := h.head
    simp
  obtain ⟨text, last, after, heq, htext⟩ := blockLines_ended breaks h hrest hk hroom
  rw [linesFrom, if_pos (by simp [hcolumn, isAtEnd, hne]), heq, textOfLines, htext]

/-- **A literal block is read back.** -/
theorem block_reads (before : List Char) (h : BlockText (n + 2) cs t) (hrest : Opens rest)
    (hk : k ≤ n) :
    block false n
        (between before ((blockHints cs).toList ++ '\n' :: (t ++ (List.replicate k ' ' ++ rest)))) =
      .ok (cs, between
        (before ++ (blockHints cs).toList ++ '\n' :: (t ++ List.replicate k ' ')) rest) := by
  have hheader := blockHeader_reads before (t ++ (List.replicate k ' ' ++ rest)) (startsLoose cs)
    (chompingOf cs)
  rw [blockHints_eq]
  generalize hstart :
    before ++ (widthSign (startsLoose cs) ++ (chompingOf cs).sign).toList ++ ['\n'] = start
    at hheader
  have hcolumn : columnOf start = 0 := by
    rw [← hstart]
    exact columnOf_snoc_break _ (by decide)
  have hend : before ++ (widthSign (startsLoose cs) ++ (chompingOf cs).sign).toList ++
      '\n' :: (t ++ List.replicate k ' ') = start ++ t ++ List.replicate k ' ' := by
    rw [← hstart]
    simp
  rw [hend]
  cases h with
  | @blank _ hne hbs =>
    have hbreaks := blockBreaks_reads start hbs hcolumn
      (behind_of_opens hrest (by omega : k < n + 2))
      (by simp : cs.length + k ≤ (between start (cs ++ (List.replicate k ' ' ++ rest))).room)
    obtain ⟨b, bs, rfl⟩ := List.exists_cons_of_ne_nil hne
    have hloose : startsLoose (b :: bs) = true := by simp [startsLoose, (hbs b (by simp)).1]
    have hline : columnOf (start ++ b :: bs ++ List.replicate k ' ') ≠ n + 2 := by
      rw [columnOf_behind start hbs k]
      omega
    rw [hloose, if_pos rfl] at hheader
    rw [hloose, block_given hheader (by omega) hbreaks, linesFrom, between_column,
      decide_eq_false hline, Bool.false_and, if_neg Bool.false_ne_true, chompingOf_breaks hne hbs]
    rfl
  | @lines bs cs t hbs hlined =>
    obtain ⟨c, v, u, rfl, rfl, hc⟩ := hlined.head
    have hcolumn' := columnOf_blanks hbs hcolumn (n + 2)
    have hlines := linesFrom_reads bs hlined hrest (by omega : k < n + 2) hcolumn'
    by_cases hloose : startsLoose (bs ++ c :: v)
    · have hbehind : Behind (n + 2) (n + 2) (c :: u ++ (List.replicate k ' ' ++ rest)) :=
        ⟨by simp [hc], Nat.le_refl _, fun h => absurd h (Nat.lt_irrefl _)⟩
      have hbreaks := blockBreaks_reads start hbs hcolumn hbehind
        (by simp : bs.length + (n + 2) ≤ (between start (bs ++ (List.replicate (n + 2) ' ' ++
          (c :: u ++ (List.replicate k ' ' ++ rest))))).room)
      rw [hloose, if_pos rfl] at hheader
      simp only [List.append_assoc] at hheader hbreaks hlines ⊢
      rw [hloose, block_given hheader (by omega) hbreaks, hlines]
    · obtain rfl : bs = [] := by
        cases bs with
        | nil => rfl
        | cons b bs => exact absurd (by simp [startsLoose, (hbs b (by simp)).1]) hloose
      rw [Bool.not_eq_true, List.nil_append] at hloose
      have hspace : isSpace c = false := by
        simp only [startsLoose, List.head?_cons, Option.any_some, Bool.or_eq_false_iff]
          at hloose
        exact hloose.1
      have hroom : n + 2 < (between start (List.replicate (n + 2) ' ' ++
          (c :: u ++ (List.replicate k ' ' ++ rest)))).room := by
        simp
      have hbreaks := leadingBreaks_blanks start (u ++ (List.replicate k ' ' ++ rest)) hspace hc
        hroom
      rw [hcolumn, Nat.zero_add] at hbreaks
      rw [List.nil_append, hloose, if_neg Bool.false_ne_true] at hheader
      simp only [List.append_assoc, List.nil_append, List.cons_append] at hheader hbreaks hlines ⊢
      have hlevel : max (max 1 ((n : Int) + 1).toNat) (n + 2) = n + 2 := by omega
      rw [hloose, block_found hheader hbreaks hlevel, hlines]

end Cursor

end Yaml

end StepLoom
