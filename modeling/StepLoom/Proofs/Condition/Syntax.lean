import StepLoom.Proofs.Condition.Tokens

/-!
# The grammar of conditions

`Reads` is the grammar, read from left to right: a phrase, the tokens that begin with it, the
expression that it stands for, and the tokens after it. Of the operators, `!` binds tightest, then
comparisons, then `&&`, then `||`; those of one rank are taken from left to right.

**Theorem (`Reads.unique`).** Tokens can be read in one way only.

**Theorem (`Reads.append`).** A phrase is read the same way in front of a closing bracket.

**Theorems (`reads_both`, `reads_not`).** So expressions in brackets can be joined by an operator,
whatever operators they hold.
-/

namespace StepLoom

namespace Condition

/-- What a condition means, apart from what names and constants stand for. -/
inductive Expr
  | constant (w : List Char)
  | text (cs : List Char)
  | name (w : List Char)
  | field (e : Expr) (w : List Char)
  /-- All that is in the value. -/
  | each (e : Expr)
  | index (e i : Expr)
  | call (f : List Char) (args : List Expr)
  | not (e : Expr)
  | binary (op : Op) (a b : Expr)

/-- How tightly an operator binds. -/
def Op.rank : Op → Nat
  | .or => 0
  | .and => 1
  | .eq | .ne => 2
  | .lt | .le | .gt | .ge => 3

/-- The rank of phrases that hold no operator between operands, unless in brackets. -/
def tightest : Nat := 4

/-! ## Words -/

def keywords : List (List Char) :=
  ["null".toList, "true".toList, "false".toList, "NaN".toList, "Infinity".toList]

def IsSign (cs : List Char) : Prop := cs = [] ∨ cs = ['+'] ∨ cs = ['-']

def IsDigits (cs : List Char) : Prop := cs ≠ [] ∧ ∀ c ∈ cs, c.isDigit

/-- A keyword or a number. -/
inductive IsConstant : List Char → Prop
  | keyword {w : List Char} (h : w ∈ keywords) : IsConstant w
  | decimal {sign whole fraction exponent : List Char} (hs : IsSign sign) (hw : IsDigits whole)
      (hf : fraction = [] ∨ ∃ ds, fraction = '.' :: ds ∧ ∀ c ∈ ds, c.isDigit)
      (he : exponent = [] ∨ ∃ e s ds, exponent = e :: (s ++ ds) ∧ (e = 'e' ∨ e = 'E') ∧
        IsSign s ∧ IsDigits ds) : IsConstant (sign ++ whole ++ fraction ++ exponent)
  | hex {ds : List Char} (hne : ds ≠ []) (h : ∀ c ∈ ds, c ∈ "0123456789abcdefABCDEF".toList) :
      IsConstant ('0' :: 'x' :: ds)
  | octal {ds : List Char} (hne : ds ≠ []) (h : ∀ c ∈ ds, c ∈ "01234567".toList) :
      IsConstant ('0' :: 'o' :: ds)

/-- A name that is not a constant. -/
def IsReference (w : List Char) : Prop := isName w ∧ ¬ IsConstant w

/-! ## Phrases -/

/-- What is to be read next. -/
inductive Phrase
  /-- Operands joined by operators of at least this rank. -/
  | level (n : Nat)
  /-- Operators of this rank and their right operands, after the left one. -/
  | more (n : Nat) (left : Expr)
  | primary
  /-- What is selected from a value. -/
  | selection (e : Expr)
  /-- The rest of the arguments of a call. -/
  | arguments (f : List Char) (done : List Expr)

/-- The tokens begin with the phrase, which stands for the expression. -/
inductive Reads : Phrase → List Token → Expr → List Token → Prop
  | binary {n : Nat} {ts mid rest : List Token} {a e : Expr} (hn : n < tightest)
      (ha : Reads (.level (n + 1)) ts a mid) (h : Reads (.more n a) mid e rest) :
      Reads (.level n) ts e rest
  | more {n : Nat} {op : Op} {ts mid rest : List Token} {a b e : Expr} (hop : op.rank = n)
      (hb : Reads (.level (n + 1)) ts b mid) (h : Reads (.more n (.binary op a b)) mid e rest) :
      Reads (.more n a) (.op op :: ts) e rest
  | last {n : Nat} {ts : List Token} {a : Expr}
      (hop : ∀ op, ts.head? = some (.op op) → op.rank ≠ n) : Reads (.more n a) ts a ts
  | not {ts rest : List Token} {e : Expr} (h : Reads (.level tightest) ts e rest) :
      Reads (.level tightest) (.not :: ts) (.not e) rest
  | operand {ts mid rest : List Token} {a e : Expr} (ha : Reads .primary ts a mid)
      (h : Reads (.selection a) mid e rest) : Reads (.level tightest) ts e rest
  | constant {w : List Char} {rest : List Token} (hw : IsConstant w) :
      Reads .primary (.word w :: rest) (.constant w) rest
  | text {cs : List Char} {rest : List Token} : Reads .primary (.text cs :: rest) (.text cs) rest
  | name {w : List Char} {rest : List Token} (hw : IsReference w)
      (hopen : rest.head? ≠ some .open) : Reads .primary (.word w :: rest) (.name w) rest
  | paren {ts rest : List Token} {e : Expr} (h : Reads (.level 0) ts e (.close :: rest)) :
      Reads .primary (.open :: ts) e rest
  | call₀ {f : List Char} {rest : List Token} (hf : IsReference f) :
      Reads .primary (.word f :: .open :: .close :: rest) (.call f []) rest
  | call {f : List Char} {ts rest : List Token} {e : Expr} (hf : IsReference f)
      (h : Reads (.arguments f []) ts e rest) :
      Reads .primary (.word f :: .open :: ts) e rest
  | argument {f : List Char} {done : List Expr} {ts mid rest : List Token} {a e : Expr}
      (ha : Reads (.level 0) ts a (.comma :: mid))
      (h : Reads (.arguments f (done ++ [a])) mid e rest) : Reads (.arguments f done) ts e rest
  | lastArgument {f : List Char} {done : List Expr} {ts rest : List Token} {a : Expr}
      (ha : Reads (.level 0) ts a (.close :: rest)) :
      Reads (.arguments f done) ts (.call f (done ++ [a])) rest
  | field {w : List Char} {ts rest : List Token} {a e : Expr} (hw : isName w)
      (h : Reads (.selection (.field a w)) ts e rest) :
      Reads (.selection a) (.dot :: .word w :: ts) e rest
  | eachField {ts rest : List Token} {a e : Expr} (h : Reads (.selection (.each a)) ts e rest) :
      Reads (.selection a) (.dot :: .star :: ts) e rest
  | eachIndex {ts rest : List Token} {a e : Expr} (h : Reads (.selection (.each a)) ts e rest) :
      Reads (.selection a) (.left :: .star :: .right :: ts) e rest
  | index {ts mid rest : List Token} {a i e : Expr} (hi : Reads (.level 0) ts i (.right :: mid))
      (h : Reads (.selection (.index a i)) mid e rest) : Reads (.selection a) (.left :: ts) e rest
  | whole {ts : List Token} {a : Expr} (hdot : ts.head? ≠ some .dot)
      (hleft : ts.head? ≠ some .left) : Reads (.selection a) ts a ts

variable {n : Nat} {p : Phrase} {ts ts' rest rest' : List Token} {e e' a b : Expr}

/-- The phrase has to begin with an operand. -/
def Phrase.isOperand : Phrase → Bool
  | .level _ | .primary | .arguments _ _ => true
  | .more _ _ | .selection _ => false

/-- No operand begins with a star or with a closing bracket. -/
theorem Reads.begins (h : Reads p ts e rest) (hp : p.isOperand) :
    ∃ t more, ts = t :: more ∧ t ≠ .star ∧ t ≠ .close := by
  induction h with
  | binary hn ha h iha ih => exact iha rfl
  | more hop hb h ihb ih => cases hp
  | last hop => cases hp
  | not h ih => exact ⟨_, _, rfl, by simp, by simp⟩
  | operand ha h iha ih => exact iha rfl
  | constant hw => exact ⟨_, _, rfl, by simp, by simp⟩
  | text => exact ⟨_, _, rfl, by simp, by simp⟩
  | name hw hopen => exact ⟨_, _, rfl, by simp, by simp⟩
  | paren h ih => exact ⟨_, _, rfl, by simp, by simp⟩
  | call₀ hf => exact ⟨_, _, rfl, by simp, by simp⟩
  | call hf h ih => exact ⟨_, _, rfl, by simp, by simp⟩
  | argument ha h iha ih => exact iha rfl
  | lastArgument ha iha => exact iha rfl
  | field hw h ih => cases hp
  | eachField h ih => cases hp
  | eachIndex h ih => cases hp
  | index hi h ihi ih => cases hp
  | whole hdot hleft => cases hp

theorem Reads.not_star (hp : p.isOperand) : ¬ Reads p (.star :: ts) e rest := by
  intro h
  obtain ⟨t, more, heq, hstar, -⟩ := h.begins hp
  exact hstar (List.cons.inj heq).1.symm

theorem Reads.not_close (hp : p.isOperand) : ¬ Reads p (.close :: ts) e rest := by
  intro h
  obtain ⟨t, more, heq, -, hclose⟩ := h.begins hp
  exact hclose (List.cons.inj heq).1.symm

/-- **Tokens can be read in one way only.** -/
theorem Reads.unique (h : Reads p ts e rest) (h' : Reads p ts e' rest') :
    e = e' ∧ rest = rest' := by
  induction h generalizing e' rest' with
  | binary hn ha h iha ih =>
    cases h' with
    | binary hn' ha' h' =>
      obtain ⟨rfl, rfl⟩ := iha ha'
      exact ih h'
    | not h' => exact absurd hn (Nat.lt_irrefl _)
    | operand ha' h' => exact absurd hn (Nat.lt_irrefl _)
  | more hop hb h ihb ih =>
    cases h' with
    | more hop' hb' h' =>
      obtain ⟨rfl, rfl⟩ := ihb hb'
      exact ih h'
    | last hop' => exact absurd hop (hop' _ rfl)
  | last hop =>
    cases h' with
    | more hop' hb' h' => exact absurd hop' (hop _ rfl)
    | last hop' => exact ⟨rfl, rfl⟩
  | not h ih =>
    cases h' with
    | binary hn' ha' h' => exact absurd hn' (Nat.lt_irrefl _)
    | not h' =>
      obtain ⟨rfl, rfl⟩ := ih h'
      exact ⟨rfl, rfl⟩
    | operand ha' h' => cases ha'
  | operand ha h iha ih =>
    cases h' with
    | binary hn' ha' h' => exact absurd hn' (Nat.lt_irrefl _)
    | not h' => cases ha
    | operand ha' h' =>
      obtain ⟨rfl, rfl⟩ := iha ha'
      exact ih h'
  | constant hw =>
    cases h' with
    | constant hw' => exact ⟨rfl, rfl⟩
    | name hw' hopen' => exact absurd hw hw'.2
    | call₀ hf' => exact absurd hw hf'.2
    | call hf' h' => exact absurd hw hf'.2
  | text =>
    cases h' with
    | text => exact ⟨rfl, rfl⟩
  | name hw hopen =>
    cases h' with
    | constant hw' => exact absurd hw' hw.2
    | name hw' hopen' => exact ⟨rfl, rfl⟩
    | call₀ hf' => exact absurd rfl hopen
    | call hf' h' => exact absurd rfl hopen
  | paren h ih =>
    cases h' with
    | paren h' =>
      obtain ⟨rfl, hrest⟩ := ih h'
      exact ⟨rfl, (List.cons.inj hrest).2⟩
  | call₀ hf =>
    cases h' with
    | constant hw' => exact absurd hw' hf.2
    | name hw' hopen' => exact absurd rfl hopen'
    | call₀ hf' => exact ⟨rfl, rfl⟩
    | call hf' h' => exact absurd h' (Reads.not_close rfl)
  | call hf h ih =>
    cases h' with
    | constant hw' => exact absurd hw' hf.2
    | name hw' hopen' => exact absurd rfl hopen'
    | call₀ hf' => exact absurd h (Reads.not_close rfl)
    | call hf' h' => exact ih h'
  | argument ha h iha ih =>
    cases h' with
    | argument ha' h' =>
      obtain ⟨rfl, hmid⟩ := iha ha'
      obtain rfl := (List.cons.inj hmid).2
      exact ih h'
    | lastArgument ha' => cases (iha ha').2
  | lastArgument ha iha =>
    cases h' with
    | argument ha' h' => cases (iha ha').2
    | lastArgument ha' =>
      obtain ⟨rfl, hrest⟩ := iha ha'
      exact ⟨rfl, (List.cons.inj hrest).2⟩
  | field hw h ih =>
    cases h' with
    | field hw' h' => exact ih h'
    | whole hdot' hleft' => exact absurd rfl hdot'
  | eachField h ih =>
    cases h' with
    | eachField h' => exact ih h'
    | whole hdot' hleft' => exact absurd rfl hdot'
  | eachIndex h ih =>
    cases h' with
    | eachIndex h' => exact ih h'
    | index hi' h' => exact absurd hi' (Reads.not_star rfl)
    | whole hdot' hleft' => exact absurd rfl hleft'
  | index hi h ihi ih =>
    cases h' with
    | eachIndex h' => exact absurd hi (Reads.not_star rfl)
    | index hi' h' =>
      obtain ⟨rfl, hmid⟩ := ihi hi'
      obtain rfl := (List.cons.inj hmid).2
      exact ih h'
    | whole hdot' hleft' => exact absurd rfl hleft'
  | whole hdot hleft =>
    cases h' with
    | field hw' h' => exact absurd rfl hdot
    | eachField h' => exact absurd rfl hdot
    | eachIndex h' => exact absurd rfl hleft
    | index hi' h' => exact absurd rfl hleft
    | whole hdot' hleft' => exact ⟨rfl, rfl⟩

/-! ## Brackets -/

theorem head?_append_ne {t : Token} (h : ts.head? ≠ some t) (ht : t ≠ .close)
    {more : List Token} (hmore : ∀ u, more.head? = some u → u = .close) :
    (ts ++ more).head? ≠ some t := by
  cases ts with
  | nil =>
    intro he
    exact ht (hmore t he)
  | cons u ts => simpa using h

/-- **A phrase is read the same way in front of a closing bracket.** -/
theorem Reads.append (h : Reads p ts e rest) {more : List Token}
    (hmore : ∀ u, more.head? = some u → u = .close) : Reads p (ts ++ more) e (rest ++ more) := by
  induction h with
  | binary hn ha h iha ih => exact .binary hn iha ih
  | more hop hb h ihb ih => exact .more hop ihb ih
  | @last n ts a hop =>
    refine .last fun op hhead hrank => ?_
    exact head?_append_ne (fun he => hop op he hrank) (by simp) hmore hhead
  | not h ih => exact .not ih
  | operand ha h iha ih => exact .operand iha ih
  | constant hw => exact .constant hw
  | text => exact .text
  | name hw hopen => exact .name hw (head?_append_ne hopen (by simp) hmore)
  | paren h ih => exact .paren ih
  | call₀ hf => exact .call₀ hf
  | call hf h ih => exact .call hf ih
  | argument ha h iha ih => exact .argument iha ih
  | lastArgument ha iha => exact .lastArgument iha
  | field hw h ih => exact .field hw ih
  | eachField h ih => exact .eachField ih
  | eachIndex h ih => exact .eachIndex ih
  | index hi h ihi ih => exact .index ihi ih
  | whole hdot hleft =>
    exact .whole (head?_append_ne hdot (by simp) hmore) (head?_append_ne hleft (by simp) hmore)

/-- A phrase of high rank is one of any lower rank, if no operator of such a rank comes next. -/
theorem Reads.lower {m : Nat} (h : Reads (.level m) ts e rest) (hnm : n ≤ m) (hm : m ≤ tightest)
    (hop : ∀ op, rest.head? = some (.op op) → op.rank < n) : Reads (.level n) ts e rest := by
  obtain ⟨k, rfl⟩ := Nat.exists_eq_add_of_le hnm
  clear hnm
  induction k generalizing n with
  | zero => exact h
  | succ k ih =>
    have hcount : n + (k + 1) = n + 1 + k := by omega
    rw [hcount] at h hm
    have hnext : Reads (.level (n + 1)) ts e rest :=
      ih (fun op he => Nat.lt_succ_of_lt (hop op he)) h hm
    exact .binary (by omega) hnext (.last fun op he => Nat.ne_of_lt (hop op he))

/-- An expression in brackets is an operand. -/
theorem Reads.bracketed (h : Reads (.level 0) ts e []) (hdot : rest.head? ≠ some .dot)
    (hleft : rest.head? ≠ some .left) :
    Reads (.level tightest) (.open :: (ts ++ .close :: rest)) e rest := by
  have hclose : Reads (.level 0) (ts ++ .close :: rest) e (.close :: rest) := h.append (by simp)
  exact .operand (.paren hclose) (.whole hdot hleft)

/-- Two expressions in brackets, with `&&` between them. -/
theorem reads_both (ha : Reads (.level 0) ts a []) (hb : Reads (.level 0) ts' b []) :
    Reads (.level 0) (.open :: (ts ++ .close :: .op .and :: .open :: (ts' ++ [.close])))
      (.binary .and a b) [] := by
  have hleft : Reads (.level 2) _ a (.op .and :: .open :: (ts' ++ [.close])) :=
    (ha.bracketed (by simp) (by simp)).lower (by decide) (Nat.le_refl _) (by simp [Op.rank])
  have hright : Reads (.level 2) (.open :: (ts' ++ [.close])) b [] :=
    (hb.bracketed (by simp) (by simp)).lower (by decide) (Nat.le_refl _) (by simp)
  have hand : Reads (.level 1) _ (.binary .and a b) [] :=
    .binary (by decide) hleft (.more rfl hright (.last (by simp)))
  exact hand.lower (by decide) (by decide) (by simp)

/-- The negation of an expression in brackets. -/
theorem reads_not (h : Reads (.level 0) ts e []) :
    Reads (.level 0) (.not :: .open :: (ts ++ [.close])) (.not e) [] := by
  have hnot : Reads (.level tightest) _ (.not e) [] := .not (h.bracketed (by simp) (by simp))
  exact hnot.lower (Nat.zero_le _) (Nat.le_refl _) (by simp)

end Condition

end StepLoom
