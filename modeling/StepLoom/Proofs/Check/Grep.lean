import StepLoom.Pattern
import StepLoom.Proofs.Splitting

/-!
# Searching lines

`grep -E` prints the lines of its input in which it finds one of some regular expressions. They are
the lines of its argument. Only what path patterns need is read: anchors, classes, stars and escaped
characters.

**Theorem (`output_regexOf`).** The expression of a pattern without a line feed is found in the
names that the pattern accepts. A line feed cuts it into expressions that are found in more names.
-/

namespace StepLoom

/-- A text of the class is cut off, and the rest is accepted. -/
theorem Pattern.afterSome_iff {p : Char → Bool} {accept : List Char → Bool} {cs : List Char} :
    afterSome p accept cs ↔
      ∃ part rest, cs = part ++ rest ∧ (∀ c ∈ part, p c) ∧ accept rest := by
  induction cs with
  | nil =>
    rw [afterSome]
    refine ⟨fun h => ⟨[], [], rfl, by simp, h⟩, ?_⟩
    rintro ⟨part, rest, hcut, -, h⟩
    rwa [(List.append_eq_nil_iff.mp hcut.symm).2] at h
  | cons c cs ih =>
    rw [afterSome, Bool.or_eq_true, Bool.and_eq_true, ih]
    constructor
    · rintro (h | ⟨hc, part, rest, rfl, hpart, h⟩)
      · exact ⟨[], c :: cs, rfl, by simp, h⟩
      · exact ⟨c :: part, rest, rfl, List.forall_mem_cons.mpr ⟨hc, hpart⟩, h⟩
    · rintro ⟨part, rest, hcut, hpart, h⟩
      cases part with
      | nil => exact Or.inl (by rwa [hcut])
      | cons d part =>
        obtain ⟨rfl, rfl⟩ := List.cons.inj hcut
        obtain ⟨hc, hpart⟩ := List.forall_mem_cons.mp hpart
        exact Or.inr ⟨hc, part, rest, rfl, hpart, h⟩

/-- The texts that a piece accepts. -/
def Pattern.Piece.Covers : Piece → List Char → Prop
  | anyText, part => '\n' ∉ part
  | segment, part => '/' ∉ part
  | literal c, part => part = [c]

/-- **The pieces take their parts off the text one after another.** -/
theorem Pattern.accepts_cons {p : Piece} {ps : List Piece} {cs : List Char} :
    accepts (p :: ps) cs ↔ ∃ part rest, cs = part ++ rest ∧ p.Covers part ∧ accepts ps rest := by
  have hne : ∀ (d : Char) (part : List Char), (∀ c ∈ part, decide (c ≠ d) = true) ↔ d ∉ part := by
    intro d part
    simp only [ne_eq, decide_eq_true_eq]
    exact ⟨fun hall hmem => hall d hmem rfl, fun hnot c hc h => hnot (h ▸ hc)⟩
  cases p with
  | anyText =>
    rw [accepts, afterSome_iff]
    simp only [hne, Piece.Covers]
  | segment =>
    rw [accepts, afterSome_iff]
    simp only [hne, Piece.Covers]
  | literal c =>
    cases cs with
    | nil => simp [accepts, Piece.Covers]
    | cons d ds =>
      rw [accepts, Bool.and_eq_true, beq_iff_eq]
      constructor
      · rintro ⟨rfl, h⟩
        exact ⟨[c], ds, rfl, rfl, h⟩
      · rintro ⟨part, rest, hcut, rfl, h⟩
        obtain ⟨rfl, rfl⟩ := List.cons.inj hcut
        exact ⟨rfl, h⟩

namespace Grep

/-! ## Expressions -/

/-- What stands for one character. -/
inductive CharClass
  | any
  | only (c : Char)
  | except (c : Char)
  deriving DecidableEq

inductive Item
  /-- The beginning of the line. -/
  | start
  /-- The end of the line. -/
  | finish
  | one (k : CharClass)
  | many (k : CharClass)
  deriving DecidableEq

def isSpecial (c : Char) : Bool := c ∈ ".[]^$()*+?|\\\x7b\x7d".toList

/-- The last item is repeated. -/
def star : List Item → Option (List Item)
  | .one k :: before => some (.many k :: before)
  | _ => none

/-- The items of an expression, after those that have been read, the last one first. -/
def read (before : List Item) : List Char → Option (List Item)
  | [] => some before.reverse
  | '\\' :: c :: rest => if isSpecial c then read (.one (.only c) :: before) rest else none
  | '[' :: '^' :: c :: ']' :: rest => read (.one (.except c) :: before) rest
  | c :: rest =>
    if c = '*' then (star before).bind fun before => read before rest
    else if c = '^' then read (.start :: before) rest
    else if c = '$' then read (.finish :: before) rest
    else if c = '.' then read (.one .any :: before) rest
    else if isSpecial c then none
    else read (.one (.only c) :: before) rest

/-! ## Searching -/

def CharClass.holds : CharClass → Char → Bool
  | any, _ => true
  | only c, d => d == c
  | except c, d => d != c

/-- After some characters that `p` holds of, `k` holds. It is told whether nothing of the line
stands before. -/
def skip (p : Char → Bool) (k : Bool → List Char → Bool) : Bool → List Char → Bool
  | fresh, [] => k fresh []
  | fresh, c :: cs => k fresh (c :: cs) || p c && skip p k false cs

/-- The items stand here. -/
def fits : List Item → Bool → List Char → Bool
  | [], _, _ => true
  | .start :: items, fresh, cs => fresh && fits items fresh cs
  | .finish :: items, fresh, cs => cs.isEmpty && fits items fresh cs
  | .one _ :: _, _, [] => false
  | .one k :: items, _, c :: cs => k.holds c && fits items false cs
  | .many k :: items, fresh, cs => skip k.holds (fits items) fresh cs

/-- The items stand somewhere in the line. -/
def found (line : List Char) (items : List Item) : Bool :=
  skip CharClass.any.holds (fits items) true line

/-- The lines of the input in which one of the expressions is found. -/
def output (argument input : List Char) : Option (List Char) :=
  ((Text.splitOnChar '\n' argument).mapM (read [])).map fun expressions =>
    Text.unlines ((Shell.linesOf input).filter fun line => expressions.any (found line.toList))

/-! ## Expressions of patterns -/

open Pattern (Piece)

/-- What a piece of a pattern is as an item. -/
def item : Piece → Item
  | .anyText => .many .any
  | .segment => .many (.except '/')
  | .literal c => .one (.only c)

variable {p : Piece} {ps : List Piece} {cs expression line : List Char} {before : List Item}
  {pattern : String}

theorem isSpecial_iff {c : Char} (hc : c ≠ '*') : isSpecial c = Pattern.specials.contains c := by
  have hlist : ".[]^$()*+?|\\\x7b\x7d".toList =
      ['.', '[', ']', '^', '$', '(', ')', '*', '+', '?', '|', '\\', '\x7b', '\x7d'] := by decide
  rw [Bool.eq_iff_iff, isSpecial, hlist, Pattern.specials, List.contains_iff_mem]
  simp only [List.mem_cons, List.not_mem_nil, or_false, decide_eq_true_eq]
  tauto

theorem read_cons {c : Char} (hc : isSpecial c = false) :
    read before (c :: cs) = read (.one (.only c) :: before) cs := by
  have hne : ∀ d, isSpecial d → c ≠ d := by
    rintro d hd rfl
    simp [hd] at hc
  rw [read, if_neg (hne _ rfl), if_neg (hne _ rfl), if_neg (hne _ rfl), if_neg (hne _ rfl), hc,
    if_neg (by decide)]
  · exact fun _ _ h => absurd h (hne _ rfl)
  · exact fun _ _ h => absurd h (hne _ rfl)

/-- **A piece is read as an item**, whatever follows it. -/
theorem read_regex (hp : p ≠ .literal '*') :
    read before (p.regex ++ cs) = read (item p :: before) cs := by
  cases p with
  | anyText => rfl
  | segment => rfl
  | literal c =>
    have hc : c ≠ '*' := fun h => hp (h ▸ rfl)
    rw [Piece.regex, ← isSpecial_iff hc]
    split_ifs with hspecial
    · change (if isSpecial c = true then read (.one (.only c) :: before) cs else none) = _
      rw [if_pos hspecial]
      rfl
    · exact read_cons (eq_false_of_ne_true hspecial)

theorem read_flatMap (hps : .literal '*' ∉ ps) :
    read before (ps.flatMap Piece.regex ++ cs) = read ((ps.map item).reverse ++ before) cs := by
  induction ps generalizing before with
  | nil => rfl
  | cons p ps ih =>
    obtain ⟨hp, hps⟩ := List.ne_and_not_mem_of_not_mem_cons hps
    rw [List.flatMap_cons, List.append_assoc, read_regex hp.symm, ih hps]
    simp

/-- The expression of some pieces, without its beginning. -/
theorem read_regexOf (hps : .literal '*' ∉ ps) :
    read [] (Pattern.regexOf ps).toList = some (.start :: ps.map item ++ [.finish]) := by
  have hstart : read [] ('^' :: (ps.flatMap Piece.regex ++ ['$'])) =
      read [.start] (ps.flatMap Piece.regex ++ ['$']) := rfl
  have hfinish : ∀ before, read before ['$'] = some (before.reverse ++ [.finish]) := by
    intro before
    exact congrArg some List.reverse_cons
  rw [Pattern.regexOf, String.toList_ofList, List.cons_append, hstart, read_flatMap hps, hfinish]
  simp

/-! ## Line feeds in patterns -/

theorem newline_mem_regex : '\n' ∈ p.regex ↔ p = .literal '\n' := by
  cases p with
  | anyText => decide
  | segment => decide
  | literal c =>
    rw [Piece.regex]
    split_ifs with hc
    · have hne : c ≠ '\n' := by
        rintro rfl
        exact absurd hc (by decide)
      simp [hne, hne.symm]
    · simp [eq_comm]

/-- **Between line feeds, everything is read.** -/
theorem exists_read (before : List Item) (hps : .literal '*' ∉ ps)
    (h : expression ∈ Text.splitOnChar '\n' (ps.flatMap Piece.regex ++ ['$'])) :
    ∃ items, read before expression = some items := by
  induction ps generalizing before expression with
  | nil =>
    obtain rfl := List.mem_singleton.mp h
    exact ⟨_, rfl⟩
  | cons p ps ih =>
    obtain ⟨hp, hps⟩ := List.ne_and_not_mem_of_not_mem_cons hps
    rw [List.flatMap_cons, List.append_assoc] at h
    by_cases hnewline : p = .literal '\n'
    · have hregex : p.regex = ['\n'] := by
        rw [hnewline]
        rfl
      rw [hregex, List.singleton_append, Text.splitOnChar, if_pos rfl] at h
      rcases List.mem_cons.mp h with rfl | h
      · exact ⟨_, rfl⟩
      · exact ih _ hps h
    · obtain ⟨first, more, hsplit⟩ := List.exists_cons_of_ne_nil
        (Text.splitOnChar_ne_nil '\n' (ps.flatMap Piece.regex ++ ['$']))
      rw [Text.splitOnChar_append (mt newline_mem_regex.mp hnewline), hsplit,
        List.modifyHead_cons] at h
      rw [hsplit] at ih
      rcases List.mem_cons.mp h with rfl | h
      · rw [read_regex hp.symm]
        exact ih _ hps List.mem_cons_self
      · exact ih _ hps (List.mem_cons_of_mem _ h)

/-- What a pattern accepts holds its line feeds. -/
theorem newline_mem_of_accepts (h : Pattern.accepts ps cs) (hmem : .literal '\n' ∈ ps) :
    '\n' ∈ cs := by
  induction ps generalizing cs with
  | nil => cases hmem
  | cons p ps ih =>
    obtain ⟨part, rest, rfl, hpart, haccepts⟩ := Pattern.accepts_cons.mp h
    rcases List.mem_cons.mp hmem with rfl | hmem
    · obtain rfl : part = ['\n'] := hpart
      exact List.mem_append_left rest (List.mem_singleton_self _)
    · exact List.mem_append_right part (ih haccepts hmem)

theorem pieces_spec (h : Pattern.pieces? cs = some ps) :
    .literal '*' ∉ ps ∧ (.literal '\n' ∈ ps ↔ '\n' ∈ cs) := by
  fun_induction Pattern.pieces? cs generalizing ps with
  | case1 =>
    obtain rfl := Option.some.inj h
    simp
  | case2 rest ih =>
    obtain ⟨qs, hqs, rfl⟩ := Option.map_eq_some_iff.mp h
    simpa using ih hqs
  | case3 => cases h
  | case4 rest _ _ ih =>
    obtain ⟨qs, hqs, rfl⟩ := Option.map_eq_some_iff.mp h
    simpa using ih hqs
  | case5 rest _ _ _ ih =>
    obtain ⟨qs, hqs, rfl⟩ := Option.map_eq_some_iff.mp h
    simpa using ih hqs
  | case6 c rest _ _ _ hc ih =>
    obtain ⟨qs, hqs, rfl⟩ := Option.map_eq_some_iff.mp h
    have hstar : '*' ≠ c := fun hc' => hc hc'.symm
    obtain ⟨hnot, hnewline⟩ := ih hqs
    simp [hstar, hnot, hnewline]

/-! ## What is found -/

theorem skip_eq_afterSome {p q : Char → Bool} {k : Bool → List Char → Bool}
    {accept : List Char → Bool} {fresh : Bool} (hp : ∀ c ∈ cs, p c = q c)
    (hk : ∀ fresh ds, ds <:+ cs → k fresh ds = accept ds) :
    skip p k fresh cs = Pattern.afterSome q accept cs := by
  induction cs generalizing fresh with
  | nil => exact hk fresh [] (List.suffix_refl _)
  | cons c rest ih =>
    obtain ⟨hc, hrest⟩ := List.forall_mem_cons.mp hp
    rw [skip, Pattern.afterSome, hk fresh _ (List.suffix_refl _), hc,
      ih hrest fun fresh ds hds => hk fresh ds (hds.trans (List.suffix_cons _ _))]

/-- The items of a pattern stand up to the end of a text that the pattern accepts. -/
theorem fits_eq_accepts {fresh : Bool} (hcs : '\n' ∉ cs) :
    fits (ps.map item ++ [.finish]) fresh cs = Pattern.accepts ps cs := by
  induction ps generalizing fresh cs with
  | nil =>
    cases cs with
    | nil => rfl
    | cons c rest =>
      have hc : c ≠ '\n' := (List.ne_and_not_mem_of_not_mem_cons hcs).1.symm
      simp [fits, Pattern.accepts, hc]
  | cons p ps ih =>
    have hrest : ∀ fresh ds, ds <:+ cs →
        fits (ps.map item ++ [.finish]) fresh ds = Pattern.accepts ps ds :=
      fun _ _ hds => ih fun hmem => hcs (hds.subset hmem)
    rw [List.map_cons, List.cons_append]
    cases p with
    | anyText =>
      refine skip_eq_afterSome (fun c hc => ?_) hrest
      simpa [CharClass.holds] using fun h : c = '\n' => hcs (h ▸ hc)
    | segment =>
      refine skip_eq_afterSome (fun c _ => ?_) hrest
      rw [Bool.eq_iff_iff]
      simp [CharClass.holds]
    | literal c =>
      cases cs with
      | nil => rfl
      | cons d ds =>
        rw [item, fits, Pattern.accepts, hrest false ds (List.suffix_cons d ds), CharClass.holds,
          Bool.beq_comm]

/-- The beginning of the line is found nowhere else. -/
theorem found_start {items : List Item} : found line (.start :: items) = fits items true line := by
  have hskip : ∀ fresh cs, skip CharClass.any.holds (fits (.start :: items)) fresh cs =
      (fresh && fits items fresh cs) := by
    intro fresh cs
    induction cs generalizing fresh with
    | nil => rfl
    | cons c rest ih => rw [skip, ih, fits, Bool.false_and, Bool.and_false, Bool.or_false]
  rw [found, hskip, Bool.true_and]

theorem exists_mapM {α β : Type} {f : α → Option β} {xs : List α}
    (h : ∀ x ∈ xs, ∃ y, f x = some y) : ∃ ys, xs.mapM f = some ys := by
  induction xs with
  | nil => exact ⟨[], rfl⟩
  | cons x rest ih =>
    obtain ⟨⟨y, hy⟩, hrest⟩ := List.forall_mem_cons.mp h
    obtain ⟨ys, hys⟩ := ih hrest
    exact ⟨y :: ys, by simp [List.mapM_cons, hy, hys]⟩

theorem regexOf_toList :
    (Pattern.regexOf ps).toList = ['^'] ++ (ps.flatMap Piece.regex ++ ['$']) :=
  String.toList_ofList

/-- Whatever line feeds are in a pattern, all expressions are read. -/
theorem exists_expressions (hps : .literal '*' ∉ ps) : ∃ expressions,
    (Text.splitOnChar '\n' (Pattern.regexOf ps).toList).mapM (read []) = some expressions := by
  refine exists_mapM fun e he => ?_
  obtain ⟨first, more, hsplit⟩ := List.exists_cons_of_ne_nil
    (Text.splitOnChar_ne_nil '\n' (ps.flatMap Piece.regex ++ ['$']))
  rw [regexOf_toList, Text.splitOnChar_append (by decide), hsplit, List.modifyHead_cons] at he
  rcases List.mem_cons.mp he with rfl | he
  · exact exists_read [.start] hps (hsplit ▸ List.mem_cons_self)
  · exact exists_read [] hps (hsplit ▸ List.mem_cons_of_mem _ he)

/-- A pattern without a line feed has one expression. -/
theorem expressions_eq (hps : .literal '*' ∉ ps) (hnewline : .literal '\n' ∉ ps) :
    (Text.splitOnChar '\n' (Pattern.regexOf ps).toList).mapM (read []) =
      some [.start :: ps.map item ++ [.finish]] := by
  have hnot : '\n' ∉ (Pattern.regexOf ps).toList := by
    rw [regexOf_toList, List.mem_append, List.mem_append, List.mem_flatMap]
    rintro (h | ⟨p, hp, h⟩ | h)
    · exact absurd h (by decide)
    · exact hnewline (newline_mem_regex.mp h ▸ hp)
    · exact absurd h (by decide)
  rw [Text.splitOnChar_of_not_mem hnot]
  simp [read_regexOf hps]

/-- **What is found by the expression of a pattern.** -/
theorem output_regexOf {files : List String} (hpieces : Pattern.pieces? pattern.toList = some ps)
    (hfiles : ∀ f ∈ files, '\n' ∉ f.toList) : ∃ selected : String → Bool,
    output (Pattern.regexOf ps).toList (Text.unlines files) =
      some (Text.unlines (files.filter selected)) ∧
    ∀ f ∈ files, (Pattern.accepts ps f.toList → selected f) ∧
      (selected f → Pattern.accepts ps f.toList ∨ '\n' ∈ pattern.toList) := by
  obtain ⟨hstar, hnewline⟩ := pieces_spec hpieces
  obtain ⟨expressions, hexpressions⟩ := exists_expressions hstar
  refine ⟨fun f => expressions.any (found f.toList), ?_, fun f hf => ?_⟩
  · rw [output, hexpressions, Shell.linesOf_unlines hfiles]
    rfl
  · by_cases hmem : '\n' ∈ pattern.toList
    · exact ⟨fun h => absurd (newline_mem_of_accepts h (hnewline.mpr hmem)) (hfiles f hf),
        fun _ => .inr hmem⟩
    · obtain rfl := Option.some.inj
        (hexpressions.symm.trans (expressions_eq hstar (mt hnewline.mp hmem)))
      have hfound : found f.toList (.start :: ps.map item ++ [.finish]) =
          Pattern.accepts ps f.toList := found_start.trans (fits_eq_accepts (hfiles f hf))
      dsimp only
      rw [List.any_cons, List.any_nil, Bool.or_false, hfound]
      exact ⟨id, .inl⟩

end Grep

end StepLoom
