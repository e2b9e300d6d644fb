import StepLoom.Proofs.Check.Grep
import StepLoom.Proofs.Pattern.Reading

/-!
# What a pattern selects

A text is spelled by the tokens of a pattern if it can be cut into one part for each token
(`Spells`): any text for `**/*` and `**`, a text without a slash for `*`, and the character itself
for every other character.

**Theorem (`selects_spelled`).** A pattern that is not rejected selects a file exactly if its
reading spells the file's whole name. A search for its regular expression in the name gives the same
answer.

The matcher takes the parts off the name one after another, so it is compared with `Spells` by an
induction over the tokens.
-/

namespace StepLoom

namespace Pattern

/-- The tokens stand for the parts of the text, in order. -/
inductive Spells : List Token → List Char → Prop
  | nil : Spells [] []
  | deep {ts : List Token} {part rest : List Char} (h : Spells ts rest) :
      Spells (.deep :: ts) (part ++ rest)
  | anyText {ts : List Token} {part rest : List Char} (h : Spells ts rest) :
      Spells (.stars 2 :: ts) (part ++ rest)
  | segment {ts : List Token} {part rest : List Char} (hpart : '/' ∉ part) (h : Spells ts rest) :
      Spells (.stars 1 :: ts) (part ++ rest)
  | char {ts : List Token} {c : Char} {rest : List Char} (h : Spells ts rest) :
      Spells (.char c :: ts) (c :: rest)

variable {cs : List Char} {t : Token} {ts : List Token} {ps : List Piece}
  {pattern file regex : String}

/-- The texts that a token stands for. -/
def Token.Covers : Token → List Char → Prop
  | deep, _ | stars 2, _ => True
  | stars 1, part => '/' ∉ part
  | stars _, _ => False
  | char c, part => part = [c]

/-- The first part of what a token spells, together with the rest. -/
theorem spells_cons : Spells (t :: ts) cs ↔
    ∃ part rest, cs = part ++ rest ∧ t.Covers part ∧ Spells ts rest := by
  constructor
  · intro h
    cases h with
    | deep h => exact ⟨_, _, rfl, trivial, h⟩
    | anyText h => exact ⟨_, _, rfl, trivial, h⟩
    | segment hpart h => exact ⟨_, _, rfl, hpart, h⟩
    | char h => exact ⟨_, _, rfl, rfl, h⟩
  · rintro ⟨part, rest, rfl, hpart, h⟩
    match t with
    | .deep => exact .deep h
    | .stars 1 => exact .segment hpart h
    | .stars 2 => exact .anyText h
    | .stars 0 => exact hpart.elim
    | .stars (n + 3) => exact hpart.elim
    | .char c =>
      obtain rfl : part = [c] := hpart
      exact .char h

/-- A token and its piece stand for the same texts of one line. -/
theorem covers_piece? {p : Piece} {part : List Char} (hp : t.piece? = some p)
    (hpart : '\n' ∉ part) :
    p.Covers part ↔ t.Covers part := by
  have hany : Piece.anyText.Covers part ↔ True := iff_true_intro hpart
  cases t with
  | deep =>
    obtain rfl := Option.some.inj hp
    exact hany
  | stars n =>
    rcases n with - | - | - | n
    · cases hp
    · obtain rfl := Option.some.inj hp
      exact Iff.rfl
    · obtain rfl := Option.some.inj hp
      exact hany
    · cases hp
  | char c =>
    obtain rfl := Option.some.inj hp
    exact Iff.rfl

/-- **The matcher accepts what the tokens spell.** -/
theorem accepts_iff_spells (hps : ts.mapM Token.piece? = some ps) (hcs : '\n' ∉ cs) :
    accepts ps cs ↔ Spells ts cs := by
  induction ts generalizing ps cs with
  | nil =>
    obtain rfl : [] = ps := Option.some.inj hps
    have hline : cs ≠ ['\n'] := fun h => hcs (h ▸ List.mem_singleton_self _)
    rw [accepts, Bool.or_eq_true, beq_iff_eq, beq_iff_eq, or_iff_left hline]
    exact ⟨fun h => h ▸ .nil, fun h => by cases h; rfl⟩
  | cons t ts ih =>
    obtain ⟨p, hp, rest, hrest, rfl⟩ : ∃ p, t.piece? = some p ∧ ∃ rest,
        ts.mapM Token.piece? = some rest ∧ p :: rest = ps := by
      simpa [List.mapM_cons, Option.bind_eq_some_iff] using hps
    rw [accepts_cons, spells_cons]
    refine exists_congr fun part => exists_congr fun more => and_congr_right fun h => ?_
    -- The part and the rest after it are in the name, so neither holds a line feed.
    have hparts : '\n' ∉ part ∧ '\n' ∉ more := by simpa [h] using hcs
    rw [covers_piece? hp hparts.1, ih hrest hparts.2]

/-- **What is selected**: a file whose whole name is spelled by the pattern, as the pattern is read
from left to right. Searching the name for the pattern's regular expression gives the same
answer. -/
theorem selects_spelled (hregex : Pattern.regex pattern = .ok regex) (hfile : '\n' ∉ file.toList) :
    ∃ items selected, Grep.read [] regex.toList = some items ∧
      Grep.found file.toList items = selected ∧ Pattern.selects pattern file = .ok selected ∧
      (selected = true ↔ ∃ ts, Reads pattern.toList ts ∧ Spells ts file.toList) := by
  obtain ⟨ps, hps, rfl⟩ := regex_eq_ok.mp hregex
  refine ⟨_, accepts ps file.toList, Grep.read_regexOf (Grep.pieces_spec hps).1, ?_, ?_, ?_⟩
  · exact Grep.found_start.trans (Grep.fits_eq_accepts hfile)
  · rw [selects, parse, hps]
    rfl
  · constructor
    · intro h
      obtain ⟨ts, hts⟩ := exists_reads pattern.toList
      exact ⟨ts, hts, (accepts_iff_spells (hts.pieces?.symm.trans hps) hfile).mp h⟩
    · rintro ⟨ts, hts, h⟩
      exact (accepts_iff_spells (hts.pieces?.symm.trans hps) hfile).mpr h

/-- Stars, special characters and a backslash together. -/
theorem selects_spelled_sample : Pattern.regex "**/*a+b\\[*]" = .ok "^.*a\\+b\\\\\\[[^/]*\\]$" ∧
    '\n' ∉ "src/x/a+b\\[1]".toList ∧ ∃ items selected,
      Grep.read [] "^.*a\\+b\\\\\\[[^/]*\\]$".toList = some items ∧
      Grep.found "src/x/a+b\\[1]".toList items = selected ∧
      Pattern.selects "**/*a+b\\[*]" "src/x/a+b\\[1]" = .ok selected ∧
      (selected = true ↔ ∃ ts, Reads "**/*a+b\\[*]".toList ts ∧
        Spells ts "src/x/a+b\\[1]".toList) :=
  ⟨rfl, by decide, selects_spelled rfl (by decide)⟩

end Pattern

end StepLoom
