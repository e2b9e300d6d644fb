import Mathlib.Data.List.Basic

/-!
# Scanning texts

A scanner reads a text character by character and puts out items. What it has put out may depend on
what comes next, so the rest comes out when the text ends.

**Theorem (`output_append_cons`).** At a character that ends whatever came before it, a text can be
scanned in two parts.

The first scanner finds the expressions that are embedded in a text between `$` and two braces, and
the end of it. Two braces in a quoted text do not end an expression.
-/

namespace StepLoom

/-- A machine that reads characters and puts out items. -/
structure Scan (σ ο : Type) where
  start : σ
  step : σ → Char → Option (List ο × σ)
  finish : σ → Option (List ο)

namespace Scan

variable {σ ο : Type} (m : Scan σ ο) {q p : σ} {cs ds : List Char} {d : Char} {os fs : List ο}

/-- What is put out on the way, and the state that is reached. -/
def run : σ → List Char → Option (List ο × σ)
  | q, [] => some ([], q)
  | q, c :: cs => (m.step q c).bind fun (os, p) => (run p cs).map fun (more, p) => (os ++ more, p)

/-- All that is put out for the rest of a text. -/
def output (q : σ) (cs : List Char) : Option (List ο) :=
  (m.run q cs).bind fun (os, p) => (m.finish p).map (os ++ ·)

/-- A character that ends all that came before it, and is `os` itself. -/
def Ends (d : Char) (os : List ο) : Prop :=
  ∀ q fs, m.finish q = some fs → m.step q d = some (fs ++ os, m.start)

@[simp]
theorem run_nil : m.run q [] = some ([], q) := rfl

theorem run_cons (c : Char) : m.run q (c :: cs) =
    (m.step q c).bind fun (os, p) => (m.run p cs).map fun (more, p) => (os ++ more, p) := rfl

theorem run_append : m.run q (cs ++ ds) =
    (m.run q cs).bind fun (os, p) => (m.run p ds).map fun (more, p) => (os ++ more, p) := by
  induction cs generalizing q with
  | nil => simp
  | cons c cs ih =>
    rw [List.cons_append, run_cons, run_cons]
    cases m.step q c with
    | none => rfl
    | some first =>
      simp only [Option.bind_some, ih]
      cases m.run first.2 cs with
      | none => rfl
      | some second =>
        simp only [Option.bind_some, Option.map_some]
        cases m.run second.2 ds <;> simp

theorem run_cons_of_step (h : m.step q d = some (os, p)) : m.run q (d :: cs) =
    (m.run p cs).map fun (more, p) => (os ++ more, p) := by
  rw [run_cons, h, Option.bind_some]

theorem run_append_of_run (h : m.run q cs = some (os, p)) : m.run q (cs ++ ds) =
    (m.run p ds).map fun (more, p) => (os ++ more, p) := by
  rw [run_append, h, Option.bind_some]

theorem output_nil : m.output q [] = m.finish q := by simp [output]

theorem output_append : m.output q (cs ++ ds) =
    (m.run q cs).bind fun (os, p) => (m.output p ds).map (os ++ ·) := by
  rw [output, run_append]
  cases m.run q cs with
  | none => rfl
  | some first =>
    simp only [Option.bind_some, output]
    cases m.run first.2 ds with
    | none => rfl
    | some second =>
      simp only [Option.bind_some, Option.map_some]
      cases m.finish second.2 <;> simp

theorem output_append_of_run (h : m.run q cs = some (os, p)) :
    m.output q (cs ++ ds) = (m.output p ds).map (os ++ ·) := by
  rw [output_append, h, Option.bind_some]

theorem output_cons (h : m.step q d = some (os, p)) :
    m.output q (d :: ds) = (m.output p ds).map (os ++ ·) := by
  have hrun : m.run q [d] = some (os, p) := by simp [run_cons_of_step m h]
  rw [← List.singleton_append, m.output_append_of_run hrun]

variable {m}

/-- **A text that is ended by its next character.** -/
theorem output_append_cons (hd : m.Ends d os) (hc : m.output q cs = some fs) :
    m.output q (cs ++ d :: ds) = (m.output m.start ds).map (fs ++ os ++ ·) := by
  rw [output] at hc
  cases hrun : m.run q cs with
  | none => simp [hrun] at hc
  | some first =>
    obtain ⟨before, p⟩ := first
    rw [hrun, Option.bind_some, Option.map_eq_some_iff] at hc
    obtain ⟨last, hlast, rfl⟩ := hc
    rw [m.output_append_of_run hrun, m.output_cons (hd p last hlast), Option.map_map]
    congr 1
    funext more
    simp

end Scan

/-! ## Embedded expressions -/

namespace Embedded

/-- Something in a text: a character, or an embedded expression. -/
inductive Piece
  | char (c : Char)
  | code (cs : List Char)
  deriving DecidableEq

/-- How far an embedded expression has been seen. -/
inductive State
  | outside
  | dollar
  | brace
  | inside (code : List Char)
  | quoted (code : List Char)
  | closing (code : List Char)
  deriving DecidableEq

/-- A character between embedded expressions, after others that turned out to begin none. -/
def plain (before : List Char) (c : Char) : Option (List Piece × State) :=
  if c = '$' then some (before.map .char, .dollar)
  else some ((before ++ [c]).map .char, .outside)

/-- A character of an embedded expression that is not a closing brace. -/
def enter (code : List Char) (c : Char) : State :=
  if c = '\'' then .quoted (code ++ [c]) else .inside (code ++ [c])

def step : State → Char → Option (List Piece × State)
  | .outside, c => plain [] c
  | .dollar, c => if c = '{' then some ([], .brace) else plain ['$'] c
  | .brace, c => if c = '{' then some ([], .inside []) else plain ['$', '{'] c
  | .inside code, c => some ([], if c = '}' then .closing code else enter code c)
  | .quoted code, c =>
    some ([], if c = '\'' then .inside (code ++ [c]) else .quoted (code ++ [c]))
  | .closing code, c =>
    if c = '}' then some ([.code code], .outside) else some ([], enter (code ++ ['}']) c)

def finish : State → Option (List Piece)
  | .outside => some []
  | .dollar => some [.char '$']
  | .brace => some [.char '$', .char '{']
  | .inside _ | .quoted _ | .closing _ => none

def scan : Scan State Piece := ⟨.outside, step, finish⟩

/-- The pieces of a text, unless an embedded expression does not end. -/
def pieces (cs : List Char) : Option (List Piece) := scan.output .outside cs

/-- The text of a piece. -/
def Piece.spell : Piece → List Char
  | .char c => [c]
  | .code cs => ['$', '{', '{'] ++ cs ++ ['}', '}']

/-- What has been read of a piece that has not ended. -/
def State.pending : State → List Char
  | .outside => []
  | .dollar => ['$']
  | .brace => ['$', '{']
  | .inside code | .quoted code => ['$', '{', '{'] ++ code
  | .closing code => ['$', '{', '{'] ++ code ++ ['}']

variable {q p : State} {c d : Char} {cs ds : List Char} {ps : List Piece}

theorem flatMap_char (cs : List Char) : (cs.map Piece.char).flatMap Piece.spell = cs := by
  induction cs with
  | nil => rfl
  | cons c cs ih => simpa [Piece.spell] using ih

theorem spell_enter (code : List Char) (c : Char) :
    (enter code c).pending = ['$', '{', '{'] ++ code ++ [c] := by
  unfold enter
  split_ifs <;> simp [State.pending]

theorem spell_plain {before : List Char} (h : plain before c = some (ps, p)) :
    ps.flatMap Piece.spell ++ p.pending = before ++ [c] := by
  unfold plain at h
  split_ifs at h with hc
  · obtain ⟨rfl, rfl⟩ := Prod.mk.inj (Option.some.inj h)
    rw [flatMap_char, hc, State.pending]
  · obtain ⟨rfl, rfl⟩ := Prod.mk.inj (Option.some.inj h)
    rw [flatMap_char, State.pending, List.append_nil]

/-- Nothing is lost from one character to the next. -/
theorem spell_step (h : step q c = some (ps, p)) :
    ps.flatMap Piece.spell ++ p.pending = q.pending ++ [c] := by
  cases q with
  | outside => exact spell_plain h
  | dollar =>
    rw [step] at h
    split_ifs at h with hc
    · obtain ⟨rfl, rfl⟩ := Prod.mk.inj (Option.some.inj h)
      simp [State.pending, hc]
    · exact spell_plain h
  | brace =>
    rw [step] at h
    split_ifs at h with hc
    · obtain ⟨rfl, rfl⟩ := Prod.mk.inj (Option.some.inj h)
      simp [State.pending, hc]
    · exact spell_plain h
  | inside code =>
    obtain ⟨rfl, rfl⟩ := Prod.mk.inj (Option.some.inj h)
    split_ifs with hc
    · simp [State.pending, hc]
    · rw [spell_enter]
      rfl
  | quoted code =>
    obtain ⟨rfl, rfl⟩ := Prod.mk.inj (Option.some.inj h)
    split_ifs with hc <;> simp [State.pending]
  | closing code =>
    rw [step] at h
    split_ifs at h with hc
    · obtain ⟨rfl, rfl⟩ := Prod.mk.inj (Option.some.inj h)
      simp [State.pending, Piece.spell, hc]
    · obtain ⟨rfl, rfl⟩ := Prod.mk.inj (Option.some.inj h)
      rw [spell_enter, State.pending]
      simp

theorem spell_run (h : scan.run q cs = some (ps, p)) :
    ps.flatMap Piece.spell ++ p.pending = q.pending ++ cs := by
  induction cs generalizing q ps with
  | nil =>
    obtain ⟨rfl, rfl⟩ := Prod.mk.inj (Option.some.inj h)
    simp
  | cons c cs ih =>
    rw [Scan.run_cons] at h
    obtain ⟨⟨first, q₁⟩, hfirst, h⟩ := Option.bind_eq_some_iff.mp h
    obtain ⟨⟨more, p₁⟩, hmore, h⟩ := Option.map_eq_some_iff.mp h
    obtain ⟨rfl, rfl⟩ := Prod.mk.inj h
    rw [List.flatMap_append, List.append_assoc, ih hmore, ← List.append_assoc, spell_step hfirst]
    simp

/-- A text is made up of its pieces. -/
theorem spell_pieces (h : pieces cs = some ps) : ps.flatMap Piece.spell = cs := by
  obtain ⟨⟨first, q⟩, hrun, h⟩ := Option.bind_eq_some_iff.mp h
  obtain ⟨last, hlast, rfl⟩ := Option.map_eq_some_iff.mp h
  have hspell : last.flatMap Piece.spell = q.pending := by
    cases q <;> first | (obtain rfl := Option.some.inj hlast; rfl) | cases hlast
  rw [List.flatMap_append, hspell, spell_run hrun]
  rfl

/-- Characters that begin no embedded expression end what came before. -/
theorem ends_of_ne (h : d ≠ '$') (h' : d ≠ '{') : scan.Ends d [.char d] := by
  intro q fs hq
  cases q with
  | outside =>
    obtain rfl := Option.some.inj hq
    exact if_neg h
  | dollar =>
    obtain rfl := Option.some.inj hq
    exact (if_neg h').trans (if_neg h)
  | brace =>
    obtain rfl := Option.some.inj hq
    exact (if_neg h').trans (if_neg h)
  | inside code => cases hq
  | quoted code => cases hq
  | closing code => cases hq

theorem pieces_cons (h : d ≠ '$') : pieces (d :: ds) = (pieces ds).map (.char d :: ·) := by
  have hstep : scan.step .outside d = some ([.char d], .outside) := if_neg h
  exact scan.output_cons hstep

theorem pieces_append_cons (h : d ≠ '$') (h' : d ≠ '{') (hc : pieces cs = some ps) :
    pieces (cs ++ d :: ds) = (pieces ds).map (ps ++ .char d :: ·) := by
  rw [pieces, Scan.output_append_cons (ends_of_ne h h') hc]
  simp only [List.append_assoc, List.singleton_append]
  rfl

end Embedded

end StepLoom
