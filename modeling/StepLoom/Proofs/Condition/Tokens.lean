import StepLoom.Proofs.Condition.Scan

/-!
# Tokens of conditions

A condition is split into words, quoted texts, brackets, dots and operators. Names end before a dot,
numbers do not. In a quoted text, two quotes stand for one.

**Theorem (`tokens_append_close`).** A bracket ends whatever stands before it.

**Theorem (`tokens_name`).** A name ends where a character comes that no name has.
-/

namespace StepLoom

namespace Condition

/-- An operator between two operands. -/
inductive Op
  | or | and | eq | ne | lt | le | gt | ge
  deriving DecidableEq

inductive Token
  | word (cs : List Char)
  | text (cs : List Char)
  | dot | star | comma | open | close | left | right
  | not
  | op (op : Op)
  deriving DecidableEq

/-- What has been read of a token that may go on. -/
inductive Pending
  | between
  | word (cs : List Char)
  | text (cs : List Char)
  /-- A quote has been read that ends the text, unless another one follows. -/
  | quote (cs : List Char)
  /-- An operator of one or two characters. -/
  | half (c : Char)
  deriving DecidableEq

/-! ## Characters -/

def isBoundary (c : Char) : Bool := c.isWhitespace || c ∈ "([)],.!<>=&|".toList

def isNameHead (c : Char) : Bool := c.isAlpha || c == '_'

def isNameChar (c : Char) : Bool := c.isAlphanum || c == '_' || c == '-'

def isName : List Char → Bool
  | [] => false
  | c :: cs => isNameHead c && cs.all isNameChar

/-- The word begins like a number. -/
def isNumeric : List Char → Bool
  | [] => false
  | c :: _ => c.isDigit || c == '+' || c == '-'

/-- The character belongs to a word that has begun. -/
def continues (cs : List Char) (c : Char) : Bool := !isBoundary c || (c == '.' && isNumeric cs)

/-! ## The scanner -/

/-- The operator of two characters. -/
def pair (c d : Char) : Option Token :=
  if d = '=' then
    match c with
    | '=' => some (.op .eq)
    | '!' => some (.op .ne)
    | '<' => some (.op .le)
    | '>' => some (.op .ge)
    | _ => none
  else if c = '&' ∧ d = '&' then some (.op .and)
  else if c = '|' ∧ d = '|' then some (.op .or)
  else none

/-- The operator of one character. -/
def alone (c : Char) : Option Token :=
  if c = '!' then some .not
  else if c = '<' then some (.op .lt)
  else if c = '>' then some (.op .gt)
  else none

/-- A character at the beginning of a token. -/
def begin (c : Char) : List Token × Pending :=
  match c with
  | '(' => ([.open], .between)
  | ')' => ([.close], .between)
  | '[' => ([.left], .between)
  | ']' => ([.right], .between)
  | ',' => ([.comma], .between)
  | '.' => ([.dot], .between)
  | '*' => ([.star], .between)
  | '\'' => ([], .text [])
  | c =>
    if c.isWhitespace then ([], .between)
    else if isBoundary c then ([], .half c)
    else ([], .word [c])

/-- A character at the beginning of a token, after one that has come out. -/
def beginAfter (t : Token) (c : Char) : List Token × Pending := (t :: (begin c).1, (begin c).2)

def step : Pending → Char → Option (List Token × Pending)
  | .between, c => some (begin c)
  | .word cs, c =>
    some (if continues cs c then ([], .word (cs ++ [c])) else beginAfter (.word cs) c)
  | .text cs, c => some ([], if c = '\'' then .quote cs else .text (cs ++ [c]))
  | .quote cs, c =>
    some (if c = '\'' then ([], .text (cs ++ [c])) else beginAfter (.text cs) c)
  | .half c, d =>
    match pair c d with
    | some t => some ([t], .between)
    | none => (alone c).map fun t => beginAfter t d

def finish : Pending → Option (List Token)
  | .between => some []
  | .word cs => some [.word cs]
  | .text _ => none
  | .quote cs => some [.text cs]
  | .half c => (alone c).map ([·])

def scan : Scan Pending Token := ⟨.between, step, finish⟩

/-- The tokens of a condition. -/
def tokens (cs : List Char) : Option (List Token) := scan.output .between cs

variable {c d : Char} {cs ds w : List Char} {ts : List Token}

/-! ## Brackets and blanks -/

/-- A character that is neither a quote nor in an operator ends every word and operator. -/
theorem ends_of_begin {os : List Token} (hb : isBoundary d = true) (hd : d ≠ '.')
    (hop : d ∉ "=&|".toList) (hq : d ≠ '\'') (h : begin d = (os, .between)) : scan.Ends d os := by
  have hafter : ∀ t, beginAfter t d = ([t] ++ os, .between) := by
    intro t
    rw [beginAfter, h]
    rfl
  intro q fs hfs
  cases q with
  | between =>
    obtain rfl := Option.some.inj hfs
    exact congrArg some h
  | word cs =>
    obtain rfl := Option.some.inj hfs
    have hnot : continues cs d = false := by simp [continues, hb, hd]
    change some (if continues cs d = true then _ else _) = _
    rw [hnot, if_neg (by decide), hafter]
    rfl
  | text cs => cases hfs
  | quote cs =>
    obtain rfl := Option.some.inj hfs
    change some (if d = '\'' then _ else _) = _
    rw [if_neg hq, hafter]
    rfl
  | half c =>
    obtain ⟨t, ht, rfl⟩ := Option.map_eq_some_iff.mp hfs
    have hpair : pair c d = none := by
      have hop' : d ≠ '=' ∧ d ≠ '&' ∧ d ≠ '|' := by simpa using hop
      simp [pair, hop']
    change (match pair c d with | some t => _ | none => _) = _
    rw [hpair, ht]
    exact congrArg some (hafter t)

theorem ends_close : scan.Ends ')' [.close] :=
  ends_of_begin rfl (by decide) (by decide) (by decide) rfl

theorem ends_blank : scan.Ends ' ' [] :=
  ends_of_begin rfl (by decide) (by decide) (by decide) rfl

/-- **A bracket ends what stands before it.** -/
theorem tokens_append_close (h : tokens cs = some ts) :
    tokens (cs ++ ')' :: ds) = (tokens ds).map (ts ++ .close :: ·) := by
  rw [tokens, Scan.output_append_cons ends_close h]
  simp only [List.append_assoc, List.singleton_append]
  rfl

theorem tokens_append_blank (h : tokens cs = some ts) :
    tokens (cs ++ ' ' :: ds) = (tokens ds).map (ts ++ ·) := by
  rw [tokens, Scan.output_append_cons ends_blank h, List.append_nil]
  rfl

theorem tokens_cons {os : List Token} (h : begin d = (os, .between)) :
    tokens (d :: ds) = (tokens ds).map (os ++ ·) := by
  have hstep : scan.step .between d = some (os, .between) := congrArg some h
  exact scan.output_cons hstep

theorem tokens_open : tokens ('(' :: ds) = (tokens ds).map (.open :: ·) := by
  have hopen : begin '(' = ([.open], .between) := rfl
  exact tokens_cons hopen

theorem tokens_dot : tokens ('.' :: ds) = (tokens ds).map (.dot :: ·) := by
  have hdot : begin '.' = ([.dot], .between) := rfl
  exact tokens_cons hdot

theorem tokens_blank : tokens (' ' :: ds) = tokens ds := by
  have hblank : begin ' ' = ([], .between) := rfl
  rw [tokens_cons hblank]
  exact Option.map_id'

/-- An operator of two characters. -/
theorem tokens_pair {t : Token} (hc : begin c = ([], .half c)) (h : pair c d = some t) :
    tokens (c :: d :: ds) = (tokens ds).map (t :: ·) := by
  have hfirst : scan.step .between c = some ([], .half c) := congrArg some hc
  have hsecond : scan.step (.half c) d = some ([t], .between) := by
    change (match pair c d with | some t => _ | none => _) = _
    rw [h]
  rw [tokens, scan.output_cons hfirst, scan.output_cons hsecond, Option.map_map]
  rfl

theorem tokens_not_open : tokens ('!' :: '(' :: ds) = (tokens ds).map (.not :: .open :: ·) := by
  have hfirst : scan.step .between '!' = some ([], .half '!') := rfl
  have hsecond : scan.step (.half '!') '(' = some ([.not, .open], .between) := rfl
  rw [tokens, scan.output_cons hfirst, scan.output_cons hsecond, Option.map_map]
  rfl

/-! ## Names -/

theorem isNameChar_of_head (h : isNameHead c) : isNameChar c := by
  unfold isNameHead at h
  unfold isNameChar Char.isAlphanum
  rcases Bool.or_eq_true _ _ |>.mp h with h | h <;> simp [h]

theorem not_boundary_of_nameChar (h : isNameChar c) : isBoundary c = false := by
  by_contra hb
  rw [Bool.not_eq_false, isBoundary, Bool.or_eq_true] at hb
  rcases hb with hb | hb
  · simp only [Char.isWhitespace, Bool.or_eq_true, decide_eq_true_eq] at hb
    rcases hb with ((rfl | rfl) | rfl) | rfl <;> exact absurd h (by decide)
  · have hnone : "([)],.!<>=&|".toList.all (!isNameChar ·) = true := by decide
    have hnot := List.all_eq_true.mp hnone c (by simpa using hb)
    simp [h] at hnot

theorem begin_nameHead (h : isNameHead c) : begin c = ([], .word [c]) := by
  have hb := not_boundary_of_nameChar (isNameChar_of_head h)
  have hw : c.isWhitespace = false := by
    rw [isBoundary, Bool.or_eq_false_iff] at hb
    exact hb.1
  unfold begin
  split
  all_goals first | exact absurd h (by decide) | skip
  rw [if_neg (by simp [hw]), if_neg (by simp [hb])]

theorem not_numeric_of_head (h : isNameHead c) (cs : List Char) : isNumeric (c :: cs) = false := by
  rw [isNumeric, Bool.or_eq_false_iff, Bool.or_eq_false_iff]
  refine ⟨⟨?_, ?_⟩, ?_⟩
  · by_contra hd
    simp only [Bool.not_eq_false, Char.isDigit, Bool.and_eq_true, decide_eq_true_eq,
      UInt32.le_iff_toNat_le, ge_iff_le] at hd
    delta isNameHead Char.isAlpha Char.isUpper Char.isLower at h
    simp only [Bool.or_eq_true, Bool.and_eq_true, decide_eq_true_eq, UInt32.le_iff_toNat_le,
      ge_iff_le, beq_iff_eq] at h
    change 48 ≤ c.toNat ∧ c.toNat ≤ 57 at hd
    change ((65 ≤ c.toNat ∧ c.toNat ≤ 90) ∨ (97 ≤ c.toNat ∧ c.toNat ≤ 122)) ∨ c = '_' at h
    rcases h with (h | h) | rfl
    · omega
    · omega
    · exact absurd hd (by decide)
  · by_contra hd
    obtain rfl : c = '+' := by simpa using hd
    exact absurd h (by decide)
  · by_contra hd
    obtain rfl : c = '-' := by simpa using hd
    exact absurd h (by decide)

/-- The characters of a name go to the word that has begun. -/
theorem run_nameChars {v : List Char} (h : ∀ c ∈ w, isNameChar c) :
    scan.run (.word v) w = some ([], .word (v ++ w)) := by
  induction w generalizing v with
  | nil => simp
  | cons c w ih =>
    have hc : continues v c = true := by
      simp [continues, not_boundary_of_nameChar (h c (by simp))]
    have hstep : scan.step (.word v) c = some ([], .word (v ++ [c])) := by
      change some (if continues v c = true then _ else _) = _
      rw [if_pos hc]
    rw [scan.run_cons_of_step hstep]
    simp [ih fun c hc => h c (List.mem_cons_of_mem _ hc)]

theorem isName_iff : isName w ↔ ∃ c cs, w = c :: cs ∧ isNameHead c ∧ ∀ d ∈ cs, isNameChar d := by
  cases w with
  | nil => simp [isName]
  | cons c cs => simp [isName]

theorem run_name (h : isName w) : scan.run .between w = some ([], .word w) := by
  obtain ⟨c, cs, rfl, hc, hcs⟩ := isName_iff.mp h
  have hstep : scan.step .between c = some ([], .word [c]) := congrArg some (begin_nameHead hc)
  rw [scan.run_cons_of_step hstep]
  simp [run_nameChars hcs]

theorem not_numeric_of_name (h : isName w) : isNumeric w = false := by
  obtain ⟨c, cs, rfl, hc, -⟩ := isName_iff.mp h
  exact not_numeric_of_head hc cs

/-- **A name ends where a character comes that no name has.** -/
theorem tokens_name (h : isName w) (hd : isBoundary d) :
    tokens (w ++ d :: ds) = (tokens (d :: ds)).map (.word w :: ·) := by
  have hstep : scan.step (.word w) d = some (.word w :: (begin d).1, (begin d).2) := by
    change some (if continues w d = true then _ else _) = _
    rw [if_neg (by simp [continues, hd, not_numeric_of_name h])]
    rfl
  have hbetween : scan.step .between d = some ((begin d).1, (begin d).2) := rfl
  rw [tokens, scan.output_append_of_run (run_name h), tokens, scan.output_cons hstep,
    scan.output_cons hbetween]
  simp [Function.comp_def]

end Condition

end StepLoom
