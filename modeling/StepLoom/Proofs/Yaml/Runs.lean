import StepLoom.Proofs.Yaml.Pen
import StepLoom.Yaml.Reader

/-!
# Plain and single-quoted texts as they are written

Texts are written run by run. `Splits` says what the runs of a text are, and the proofs that a plain
and a single-quoted text are spelled as they should be (`written_plain`, `written_single`) follow
it.
-/

namespace StepLoom

namespace Yaml

variable {c : Char} {cs ds w bs : List Char} {rs : List Run} {level n : Nat}

/-! ## Characters -/

theorem isReadable_of_isOrdinary (h : isOrdinary c) : isReadable c := by
  simp only [isOrdinary, isReadable, Bool.or_eq_true, Bool.and_eq_true, decide_eq_true_eq,
    beq_iff_eq] at h ⊢
  by_cases hc : c = '\n'
  · subst hc
    decide
  · simp only [hc, false_or] at h
    omega

theorem isMarkOfOrder_of_isOrdinary (h : isOrdinary c) : isMarkOfOrder c = false := by
  rw [isMarkOfOrder, beq_eq_false_iff_ne]
  intro hc
  have hne : c ≠ '\n' := by
    rintro rfl
    exact absurd hc (by decide)
  simp [isOrdinary, hc, hne] at h

/-- An ordinary character that is neither a space nor a line end. -/
theorem solid_of_isOrdinary (h : isOrdinary c) (hspace : isSpace c = false)
    (hbreak : isBreak c = false) :
    isBlankOrBreak c = false := by
  have hne : c ≠ '\x00' ∧ c ≠ '\t' ∧ c ≠ '\r' := by
    refine ⟨?_, ?_, ?_⟩
    all_goals
      rintro rfl
      exact absurd h (by decide)
  rw [isSpace, beq_eq_false_iff_ne] at hspace
  simp [isBlankOrBreak, hne, hspace, hbreak]

/-! ## Runs -/

/-- The runs of a text. -/
inductive Splits : List Run → List Char → Prop
  | nil : Splits [] []
  | spaces {rs : List Run} {cs : List Char} (n : Nat) : (∀ c ∈ cs.head?, isSpace c = false) →
      Splits rs cs → Splits (.spaces (n + 1) :: rs) (List.replicate (n + 1) ' ' ++ cs)
  | breaks {bs cs : List Char} {rs : List Run} : bs ≠ [] → (∀ b ∈ bs, isBreak b) →
      (∀ c ∈ cs.head?, isBreak c = false) → Splits rs cs → Splits (.breaks bs :: rs) (bs ++ cs)
  | word {w cs : List Char} {rs : List Run} :
      w ≠ [] → (∀ c ∈ w, isSpace c = false ∧ isBreak c = false) →
      (∀ c ∈ cs.head?, isSpace c ∨ isBreak c) → Splits rs cs → Splits (.word w :: rs) (w ++ cs)

theorem isBreak_of_isSpace (h : isSpace c) : isBreak c = false := by
  obtain rfl : c = ' ' := by simpa [isSpace] using h
  rfl

/-- A character that begins a run of its own. -/
theorem splits_fresh (h : Splits rs cs) (hspace : isSpace c → ∀ d ∈ cs.head?, isSpace d = false)
    (hbreak : isBreak c → ∀ d ∈ cs.head?, isBreak d = false)
    (hword : isSpace c = false → isBreak c = false → ∀ d ∈ cs.head?, isSpace d ∨ isBreak d) :
    Splits (Run.push.fresh c rs) (c :: cs) := by
  rw [Run.push.fresh]
  by_cases hs : isSpace c
  · obtain rfl : c = ' ' := by simpa [isSpace] using hs
    exact .spaces 0 (hspace hs) h
  · rw [Bool.not_eq_true] at hs
    by_cases hb : isBreak c
    · simp only [hs, hb, if_true, Bool.false_eq_true, if_false]
      exact .breaks (List.cons_ne_nil c []) (by simpa using hb) (hbreak hb) h
    · rw [Bool.not_eq_true] at hb
      simp only [hs, hb, Bool.false_eq_true, if_false]
      exact .word (List.cons_ne_nil c []) (by simpa using ⟨hs, hb⟩) (hword hs hb) h

theorem splits_push (c : Char) (h : Splits rs cs) : Splits (Run.push c rs) (c :: cs) := by
  cases h with
  | nil => exact splits_fresh .nil (by simp) (by simp) (by simp)
  | @spaces rs cs n hcs hrest =>
    rw [Run.push]
    split_ifs with hc
    · obtain rfl : c = ' ' := by simpa [isSpace] using hc
      exact .spaces (n + 1) hcs hrest
    · exact splits_fresh (.spaces n hcs hrest) (fun h => absurd h hc) (by simp [List.replicate_succ,
        isBreak])
        (by simp [List.replicate_succ, isSpace])
  | @breaks bs cs rs hne hbs hcs hrest =>
    obtain ⟨b, bs, rfl⟩ := List.exists_cons_of_ne_nil hne
    have hb := hbs b (by simp)
    rw [Run.push]
    split_ifs with hc
    · exact .breaks (List.cons_ne_nil c _) (List.forall_mem_cons.mpr ⟨hc, hbs⟩) hcs hrest
    · have hspace : isSpace b = false := by
        by_contra hspace
        rw [Bool.not_eq_false] at hspace
        rw [isBreak_of_isSpace hspace] at hb
        cases hb
      exact splits_fresh (.breaks hne hbs hcs hrest) (by simp [hspace]) (fun h => absurd h hc)
        (by simp [hb])
  | @word w cs rs hne hw hcs hrest =>
    obtain ⟨d, w, rfl⟩ := List.exists_cons_of_ne_nil hne
    obtain ⟨hspace, hbreak⟩ := hw d (by simp)
    rw [Run.push]
    split_ifs with hc
    · refine splits_fresh (.word hne hw hcs hrest) (by simp [hspace]) (by simp [hbreak]) ?_
      intro hs hb
      simp [hs, hb] at hc
    · rw [Bool.not_eq_true, Bool.or_eq_false_iff] at hc
      exact .word (List.cons_ne_nil c _) (List.forall_mem_cons.mpr ⟨hc, hw⟩) hcs hrest

theorem splits_runs (cs : List Char) : Splits (runs cs) cs := by
  induction cs with
  | nil => exact .nil
  | cons c rest ih => exact splits_push c ih

/-! ## Pairs -/

section Pairs

variable {p q : Char → Bool}

/-- Nowhere is a character of the first class directly followed by one of the second. -/
def NoPair (p q : Char → Bool) (cs : List Char) : Prop :=
  ∀ u a b v, cs = u ++ a :: b :: v → p a → q b = false

theorem noPair_of_hasPair (h : hasPair p q cs = false) : NoPair p q cs := by
  intro u a b v heq ha
  induction u generalizing cs with
  | nil =>
    subst heq
    simp only [List.nil_append, hasPair, ha, Bool.true_and, Bool.or_eq_false_iff] at h
    exact h.1
  | cons d u ih =>
    subst heq
    obtain ⟨e, more, hmore⟩ := List.exists_cons_of_ne_nil (show u ++ a :: b :: v ≠ [] by simp)
    rw [List.cons_append, hmore, hasPair, Bool.or_eq_false_iff, ← hmore] at h
    exact ih h.2 rfl

theorem NoPair.right (h : NoPair p q (ds ++ cs)) : NoPair p q cs :=
  fun u a b v heq => h (ds ++ u) a b v (by rw [heq, List.append_assoc])

/-- What follows a character of the first class. -/
theorem NoPair.next (h : NoPair p q (ds ++ cs)) (hlast : ∃ u a, ds = u ++ [a] ∧ p a) :
    ∀ c ∈ cs.head?, q c = false := by
  obtain ⟨u, a, rfl, ha⟩ := hlast
  intro c hc
  cases cs with
  | nil => cases hc
  | cons d more =>
    obtain rfl : d = c := by simpa using hc
    exact h u a d more (by simp) ha

end Pairs

/-! ## Single quotes -/

/-- A text that may stand between single quotes. -/
structure IsSingleText (cs : List Char) : Prop where
  ordinary : ∀ c ∈ cs, isOrdinary c
  separators : ∀ c ∈ cs, isBreak c → IsSeparator c
  breakSpace : NoPair isBreak isSpace cs
  spaceBreak : NoPair isSpace isBreak cs

theorem IsSingleText.right (h : IsSingleText (ds ++ cs)) : IsSingleText cs where
  ordinary c hc := h.ordinary c (List.mem_append_right ds hc)
  separators c hc := h.separators c (List.mem_append_right ds hc)
  breakSpace := h.breakSpace.right
  spaceBreak := h.spaceBreak.right

theorem isSpace_blanks (n : Nat) : ∃ u a, List.replicate (n + 1) ' ' = u ++ [a] ∧ isSpace a :=
  ⟨List.replicate n ' ', ' ', List.replicate_succ', rfl⟩

/-- What a spelled text starts with. -/
theorem Singly.solid {t : List Char} (h : Singly level cs t)
    (hcs : ∀ c ∈ cs.head?, isSpace c = false ∧ isBreak c = false) : Solid (t ++ ['\'']) := by
  cases h with
  | nil => exact ⟨'\'', [], rfl, by decide⟩
  | @char c _ t hc _ _ => exact ⟨c, t ++ ['\''], rfl, hc⟩
  | @quote _ t _ => exact ⟨'\'', '\'' :: t ++ ['\''], rfl, by decide⟩
  | spaces n _ _ => exact absurd (hcs ' ' (by simp [List.replicate_succ])).1 (by decide)
  | folded _ _ => exact absurd (hcs ' ' rfl).1 (by decide)
  | @breaks bs _ _ hne hbs _ _ =>
    obtain ⟨b, bs, rfl⟩ := List.exists_cons_of_ne_nil hne
    have hb := (hcs b (by simp)).2
    rw [(hbs b (by simp)).1] at hb
    cases hb

/-- The characters of a word, with quotes written twice. -/
def doubleQuotes (w : List Char) : List Char :=
    w.flatMap fun c => if c = '\'' then ['\'', '\''] else [c]

theorem Singly.word {t : List Char} (hw : ∀ c ∈ w, isBlankOrBreak c = false)
    (h : Singly level cs t) :
    Singly level (w ++ cs) (doubleQuotes w ++ t) := by
  induction w with
  | nil => exact h
  | cons c w ih =>
    obtain ⟨hc, hrest⟩ := List.forall_mem_cons.mp hw
    rw [doubleQuotes, List.flatMap_cons, List.append_assoc]
    split_ifs with hquote
    · rw [hquote]
      exact .quote (ih hrest)
    · exact .char hc hquote (ih hrest)

theorem mem_doubleQuotes (h : c ∈ doubleQuotes w) : c ∈ w := by
  obtain ⟨d, hd, hc⟩ := List.mem_flatMap.mp h
  split_ifs at hc with hquote
  · obtain rfl : c = '\'' := by simpa using hc
    rwa [← hquote]
  · rwa [List.mem_singleton.mp hc]

theorem free_lineBreaks (p : Pen) (hne : bs ≠ []) : Pen.Free 0 (bs.foldl Pen.lineBreak p) := by
  obtain ⟨b, bs, rfl⟩ := List.exists_cons_of_ne_nil hne
  rw [List.foldl_cons]
  have hfree : ∀ (p : Pen), Pen.Free 0 p → Pen.Free 0 (bs.foldl Pen.lineBreak p) := by
    induction bs with
    | nil => exact fun p hp => hp
    | cons d bs ih => exact fun p _ => ih (by simp) _ (Pen.free_lineBreak p d)
  exact hfree _ (Pen.free_lineBreak p b)

/-- Line ends that are no line feeds. -/
theorem adds_writeBreaks (level : Nat) (p : Pen) (hne : bs ≠ []) (hbs : ∀ b ∈ bs, IsSeparator b) :
    p.Adds (writeBreaks level bs p) (bs ++ List.replicate level ' ') := by
  have hhead : bs.head? ≠ some '\n' := by
    obtain ⟨b, bs, rfl⟩ := List.exists_cons_of_ne_nil hne
    simpa using (hbs b (by simp)).2.1
  rw [writeBreaks, if_neg hhead]
  exact (Pen.adds_lineBreaks p bs).trans ((free_lineBreaks p hne).goes level).adds

theorem isReadable_blanks (n : Nat) : ∀ c ∈ List.replicate n ' ', isReadable c := by
  intro c hc
  obtain rfl := List.eq_of_mem_replicate hc
  rfl

theorem isReadable_nextLine (n : Nat) : ∀ c ∈ '\n' :: List.replicate n ' ', isReadable c :=
  List.forall_mem_cons.mpr ⟨rfl, isReadable_blanks n⟩

/-- Only a single space past the line width is folded, and then the pen goes to the next line. -/
theorem goes_of_foldsAt {n : Nat} {isFirst isLast : Bool} {p : Pen} (hwidth : level < lineWidth)
    (h : foldsAt fold isFirst isLast (n + 1) p) :
    n = 0 ∧ Pen.Goes p level ('\n' :: List.replicate level ' ') := by
  simp only [foldsAt, Bool.and_eq_true, decide_eq_true_eq, beq_iff_eq] at h
  obtain ⟨⟨⟨⟨hn, hcolumn⟩, -⟩, -⟩, -⟩ := h
  exact ⟨by omega, Pen.goes_line (Or.inr (Nat.lt_trans hwidth hcolumn))⟩

/-- **The runs between single quotes spell the text.** -/
theorem written_singleRuns (fold : Bool) (h : Splits rs cs) (hcs : IsSingleText cs)
    (hwidth : level < lineWidth) (isFirst : Bool) (p : Pen) :
    ∃ t, p.Adds (writeSingleRuns level fold isFirst rs p) t ∧ Singly level cs t ∧
    ∀ c ∈ t, isReadable c := by
  induction h generalizing isFirst p with
  | nil => exact ⟨[], Pen.Adds.refl p, .nil, List.forall_mem_nil _⟩
  | @spaces rs cs n hspace _ ih =>
    have hbreak := hcs.spaceBreak.next (isSpace_blanks n)
    have hhead : ∀ c ∈ cs.head?, isSpace c = false ∧ isBreak c = false :=
      fun c hc => ⟨hspace c hc, hbreak c hc⟩
    rw [writeSingleRuns]
    by_cases hfold : foldsAt fold isFirst rs.isEmpty (n + 1) p
    · simp only [hfold, if_true]
      obtain ⟨t, hadds, ht, hread⟩ := ih hcs.right false (p.indentTo level)
      obtain ⟨rfl, hgoes⟩ := goes_of_foldsAt hwidth hfold
      refine ⟨_, hgoes.adds.trans hadds, .folded (ht.solid hhead) ht, ?_⟩
      exact List.forall_mem_append.mpr ⟨isReadable_nextLine level, hread⟩
    · rw [Bool.not_eq_true] at hfold
      simp only [hfold, Bool.false_eq_true, if_false]
      obtain ⟨t, hadds, ht, hread⟩ := ih hcs.right false (p.text (List.replicate (n + 1) ' '))
      refine ⟨_, (Pen.adds_text p _).trans hadds, .spaces n (ht.solid hhead) ht, ?_⟩
      exact List.forall_mem_append.mpr ⟨isReadable_blanks _, hread⟩
  | @breaks bs cs rs hne hbs hbreak _ ih =>
    obtain ⟨t, hadds, ht, hread⟩ := ih hcs.right false (writeBreaks level bs p)
    have hseparators : ∀ b ∈ bs, IsSeparator b :=
      fun b hb => hcs.separators b (List.mem_append_left cs hb) (hbs b hb)
    have hspace := hcs.breakSpace.next ⟨bs.dropLast, bs.getLast hne,
      (List.dropLast_concat_getLast hne).symm, hbs _ (List.getLast_mem hne)⟩
    have hhead : ∀ c ∈ cs.head?, isSpace c = false ∧ isBreak c = false :=
      fun c hc => ⟨hspace c hc, hbreak c hc⟩
    rw [writeSingleRuns]
    refine ⟨_, (adds_writeBreaks level p hne hseparators).trans hadds,
      .breaks hne hseparators (ht.solid hhead) ht, ?_⟩
    rw [List.forall_mem_append, List.forall_mem_append]
    exact ⟨⟨fun b hb => isReadable_of_isOrdinary (hcs.ordinary b (List.mem_append_left cs hb)),
      isReadable_blanks level⟩, hread⟩
  | @word w cs rs hne hw _ _ ih =>
    obtain ⟨t, hadds, ht, hread⟩ := ih hcs.right false (p.text (doubleQuotes w))
    have hordinary : ∀ c ∈ w, isOrdinary c :=
      fun c hc => hcs.ordinary c (List.mem_append_left cs hc)
    rw [writeSingleRuns]
    refine ⟨_, (Pen.adds_text p _).trans hadds,
      ht.word fun c hc => solid_of_isOrdinary (hordinary c hc) (hw c hc).1 (hw c hc).2, ?_⟩
    exact List.forall_mem_append.mpr
      ⟨fun c hc => isReadable_of_isOrdinary (hordinary c (mem_doubleQuotes hc)), hread⟩

/-! ## Plain -/

/-- A text that may stand plain: a colon in it is followed by a solid character, and a number sign
is behind one. -/
structure IsPlainText (cs : List Char) : Prop where
  ordinary : ∀ c ∈ cs, isOrdinary c
  no_break : ∀ c ∈ cs, isBreak c = false
  colon : ∀ u v, cs = u ++ ':' :: v → ∃ d more, v = d :: more ∧ isBlankOrBreak d = false
  comment : ∀ u v, cs = u ++ '#' :: v → ∃ before d, u = before ++ [d] ∧ isBlankOrBreak d = false
  last : ∀ u, cs ≠ u ++ [' ']

theorem holdsIndicator_split {q : Char} {u v : List Char}
    (h : holdsIndicator q (u ++ c :: v) = false) :
    (c = ':' → ∃ d more, v = d :: more ∧ isBlankOrBreak d = false) ∧
    (c = '#' → ∃ before d, q :: u = before ++ [d] ∧ isBlankOrBreak d = false) := by
  induction u generalizing q with
  | nil =>
    simp only [List.nil_append, holdsIndicator, Bool.or_eq_false_iff, Bool.and_eq_false_iff] at h
    obtain ⟨⟨hcolon, hcomment⟩, -⟩ := h
    constructor
    · rintro rfl
      cases v with
      | nil => simp at hcolon
      | cons d more => exact ⟨d, more, rfl, by simpa using hcolon⟩
    · rintro rfl
      exact ⟨[], q, rfl, by simpa using hcomment⟩
  | cons d u ih =>
    simp only [List.cons_append, holdsIndicator, Bool.or_eq_false_iff] at h
    obtain ⟨hcolon, hcomment⟩ := ih h.2
    refine ⟨hcolon, fun hc => ?_⟩
    obtain ⟨before, e, heq, he⟩ := hcomment hc
    exact ⟨q :: before, e, by rw [heq, List.cons_append], he⟩

theorem isPlainText_of_look (h : (Look.of cs).allowsPlain) : IsPlainText cs := by
  simp only [Look.allowsPlain, Look.of, Bool.and_eq_true, Bool.not_eq_true',
    Bool.or_eq_false_iff] at h
  obtain ⟨⟨⟨⟨⟨⟨-, hlast⟩, -⟩, -⟩, hspecial⟩, hbreaks⟩, ⟨⟨-, hstart⟩, hholds⟩⟩ := h
  have hsplit : ∀ u c v, cs = u ++ c :: v →
      (c = ':' → ∃ d more, v = d :: more ∧ isBlankOrBreak d = false) ∧
      (c = '#' → ∃ before d, u = before ++ [d] ∧ isBlankOrBreak d = false) := by
    rintro u c v rfl
    cases u with
    | nil =>
      simp only [List.nil_append, startsAsIndicator, Bool.or_eq_false_iff,
        Bool.and_eq_false_iff] at hstart
      constructor
      · rintro rfl
        cases v with
        | nil => simp at hstart
        | cons d more => exact ⟨d, more, rfl, by simpa using hstart.2⟩
      · rintro rfl
        exact absurd hstart.1 (by decide)
    | cons a u => exact holdsIndicator_split hholds
  refine ⟨fun c hc => ?_, fun c hc => ?_, fun u v heq => (hsplit u _ v heq).1 rfl,
    fun u v heq => (hsplit u _ v heq).2 rfl, ?_⟩
  · simpa using List.any_eq_false.mp hspecial c hc
  · simpa using List.any_eq_false.mp hbreaks c hc
  · rintro u rfl
    simp [isSpace] at hlast

/-- The pen stays on its line, or goes on in another one. -/
structure Continues (p p' : Pen) : Prop where
  indention : p'.indention = false
  openEnded : p'.openEnded = p.openEnded

theorem isPlainWord_of_text (h : IsPlainText (ds ++ (w ++ cs))) (hne : w ≠ [])
    (hw : ∀ c ∈ w, isSpace c = false ∧ isBreak c = false)
    (hcs : ∀ c ∈ cs.head?, isSpace c ∨ isBreak c)
    (hds : ∀ c ∈ ds.getLast?, isSpace c) : IsPlainWord w := by
  have hordinary : ∀ c ∈ w, isOrdinary c := fun c hc => h.ordinary c (by simp [hc])
  refine ⟨hne, fun c hc => ⟨(hw c hc).2, isMarkOfOrder_of_isOrdinary (hordinary c hc)⟩,
    fun c hc => solid_of_isOrdinary (hordinary c hc) (hw c hc).1 (hw c hc).2, fun hcomment => ?_,
      fun hcolon => ?_⟩
  · obtain ⟨more, rfl⟩ := List.head?_eq_some_iff.mp hcomment
    obtain ⟨before, d, rfl, hd⟩ := h.comment ds (more ++ cs) (by simp)
    obtain rfl : d = ' ' := by simpa [isSpace] using hds d (by simp)
    cases hd
  · obtain ⟨more, rfl⟩ := List.getLast?_eq_some_iff.mp hcolon
    obtain ⟨d, v, rfl, hd⟩ := h.colon (ds ++ more) cs (by simp)
    obtain hspace | hbreak := hcs d rfl
    · obtain rfl : d = ' ' := by simpa [isSpace] using hspace
      cases hd
    · simp [isBlankOrBreak, hbreak] at hd

/-- **The runs of a plain text spell it.** A text that starts with a word is spelled, and so is one
that goes on with spaces, behind any word. -/
theorem written_plainRuns (fold : Bool) (h : Splits rs cs) (hwidth : level < lineWidth)
    (ds : List Char)
    (hcs : IsPlainText (ds ++ cs)) (isFirst : Bool) (p : Pen) (hp : p.indention = false) :
    ∃ t, p.Adds (writePlainRuns level fold isFirst rs p) t ∧ (∀ c ∈ t, isReadable c) ∧
      Continues p (writePlainRuns level fold isFirst rs p) ∧
      ((∀ c ∈ ds.getLast?, isSpace c) → (∃ c ∈ cs.head?, isSpace c = false) → Plainly level cs t) ∧
      ((∀ c ∈ cs.head?, isSpace c) → ∀ w, IsPlainWord w → Plainly level (w ++ cs) (w ++ t)) := by
  induction h generalizing isFirst p ds with
  | nil =>
    refine ⟨[], Pen.Adds.refl p, List.forall_mem_nil _, ⟨hp, rfl⟩, fun _ hhead => ?_, fun _ w hw =>
      ?_⟩
    · simp at hhead
    · rw [List.append_nil]
      exact .word hw
  | @breaks bs cs rs hne hbs _ _ _ =>
    obtain ⟨b, bs, rfl⟩ := List.exists_cons_of_ne_nil hne
    have hb := hcs.no_break b (by simp)
    rw [hbs b (by simp)] at hb
    cases hb
  | @word w cs rs hne hw hhead _ ih =>
    rw [writePlainRuns]
    obtain ⟨t, hadds, hread, hstate, -, hbehind⟩ :=
      ih (ds ++ w) (by simpa using hcs) false (p.text w) hp
    have hspaces : ∀ c ∈ cs.head?, isSpace c := by
      intro c hc
      obtain hspace | hbreak := hhead c hc
      · exact hspace
      · have hno := hcs.no_break c (by simp [List.mem_of_mem_head? hc])
        rw [hbreak] at hno
        cases hno
    refine ⟨_, (Pen.adds_text p w).trans hadds, ?_, ⟨hstate.indention, hstate.openEnded⟩,
      fun hds _ => ?_,
      fun hspace => ?_⟩
    · refine List.forall_mem_append.mpr ⟨fun c hc => isReadable_of_isOrdinary ?_, hread⟩
      exact hcs.ordinary c (by simp [hc])
    · exact hbehind hspaces w (isPlainWord_of_text hcs hne hw hhead hds)
    · obtain ⟨d, w, rfl⟩ := List.exists_cons_of_ne_nil hne
      have hd := (hw d (by simp)).1
      rw [hspace d rfl] at hd
      cases hd
  | @spaces rs cs n hspace _ ih =>
    have hne : cs ≠ [] := by
      rintro rfl
      exact hcs.last (ds ++ List.replicate n ' ') (by simp [List.replicate_succ'])
    obtain ⟨d, more, rfl⟩ := List.exists_cons_of_ne_nil hne
    have hstart : ∃ c ∈ (d :: more).head?, isSpace c = false := ⟨d, rfl, hspace d rfl⟩
    have hds : ∀ c ∈ (ds ++ List.replicate (n + 1) ' ').getLast?, isSpace c := by
      intro c hc
      obtain rfl : ' ' = c := by simpa [List.replicate_succ'] using hc
      rfl
    rw [writePlainRuns]
    by_cases hfold : foldsAt fold isFirst rs.isEmpty (n + 1) p
    · simp only [hfold, if_true]
      obtain ⟨t, hadds, hread, hstate, hword, -⟩ :=
        ih (ds ++ List.replicate (n + 1) ' ') (by simpa using hcs)
        false { p.indentTo level with blank := false, indention := false } rfl
      obtain ⟨rfl, hgoes⟩ := goes_of_foldsAt hwidth hfold
      refine ⟨_, Pen.Adds.trans hgoes.adds hadds, ?_,
        ⟨hstate.indention, hstate.openEnded.trans hgoes.openEnded⟩,
        fun _ hhead => ?_, fun _ w hw => ?_⟩
      · exact List.forall_mem_append.mpr ⟨isReadable_nextLine level, hread⟩
      · simp [isSpace] at hhead
      · have hfolded := Plainly.folded hw (hword hds hstart)
        rwa [List.append_assoc] at hfolded
    · rw [Bool.not_eq_true] at hfold
      simp only [hfold, Bool.false_eq_true, if_false]
      obtain ⟨t, hadds, hread, hstate, hword, -⟩ :=
        ih (ds ++ List.replicate (n + 1) ' ') (by simpa using hcs)
        false (p.text (List.replicate (n + 1) ' ')) hp
      refine ⟨_, (Pen.adds_text p _).trans hadds, ?_, ⟨hstate.indention, hstate.openEnded⟩,
        fun _ hhead => ?_, fun _ w hw => ?_⟩
      · exact List.forall_mem_append.mpr ⟨isReadable_blanks _, hread⟩
      · simp [List.replicate_succ, isSpace] at hhead
      · have hspaced := Plainly.spaced n hw (hword hds hstart)
        rwa [List.append_assoc, List.append_assoc] at hspaced

end Yaml

end StepLoom
