import StepLoom.Pattern
import Mathlib.Data.List.Infix

/-!
# How a pattern is read

A pattern is read from left to right. `**/*` is taken as a whole where it stands, and so is every
other run of stars (`Reads`). Each text has a reading, and it decides what pieces the pattern has.

**Theorem (`regex_rejects`).** A pattern is rejected exactly if its reading has a run of three or
more stars, and it is translated otherwise. So three stars in a row are always needed for a
rejection. They suffice as well, unless they stand behind `**/`.

There, the first of the three stars is read as the end of `**/*`, and two stars are left, which mean
something (`regex_starsBehindDeep`).
-/

namespace StepLoom

namespace Pattern

inductive Token where
  /-- The text `**/*`. -/
  | deep
  /-- A run of so many stars. -/
  | stars (n : Nat)
  | char (c : Char)
deriving DecidableEq, Repr

/-- What a text is read as. A run of stars ends where no further star follows. -/
inductive Reads : List Char → List Token → Prop
  | nil : Reads [] []
  | deep {rest : List Char} {ts : List Token} (h : Reads rest ts) :
      Reads ('*' :: '*' :: '/' :: '*' :: rest) (.deep :: ts)
  | stars {n : Nat} {rest : List Char} {ts : List Token} (hn : 0 < n)
      (hend : ¬ ['*'] <+: rest) (hdeep : n = 2 → ¬ ['/', '*'] <+: rest) (h : Reads rest ts) :
      Reads (List.replicate n '*' ++ rest) (.stars n :: ts)
  | char {c : Char} {rest : List Char} {ts : List Token} (hc : c ≠ '*') (h : Reads rest ts) :
      Reads (c :: rest) (.char c :: ts)

/-- What a token means; longer runs of stars mean nothing. -/
def Token.piece? : Token → Option Piece
  | deep => some .anyText
  | stars 1 => some .segment
  | stars 2 => some .anyText
  | stars _ => none
  | char c => some (.literal c)

def Token.text : Token → List Char
  | deep => ['*', '*', '/', '*']
  | stars n => List.replicate n '*'
  | char c => [c]

variable {cs : List Char} {ts : List Token} {n : Nat} {pattern : String}

/-! ## Readings -/

/-- The run of stars that begins with a star. -/
theorem exists_run (rest : List Char) :
    ∃ n after, 0 < n ∧ '*' :: rest = List.replicate n '*' ++ after ∧ ¬ ['*'] <+: after := by
  induction rest with
  | nil => exact ⟨1, [], Nat.one_pos, rfl, by simp⟩
  | cons c rest ih =>
    by_cases hc : '*' = c
    · obtain ⟨n, after, -, hsplit, hend⟩ := ih
      refine ⟨n + 1, after, Nat.succ_pos n, ?_, hend⟩
      rw [← hc, hsplit, List.replicate_succ, List.cons_append]
    · exact ⟨1, c :: rest, Nat.one_pos, rfl, by simp [List.cons_prefix_cons, hc]⟩

/-- **Every text has a reading.** -/
theorem exists_reads (cs : List Char) : ∃ ts, Reads cs ts := by
  induction hlen : cs.length using Nat.strong_induction_on generalizing cs with
  | _ len ih =>
    subst hlen
    match cs with
    | [] => exact ⟨[], .nil⟩
    | c :: rest =>
      by_cases hc : c = '*'
      · subst hc
        obtain ⟨n, after, hn, hsplit, hend⟩ := exists_run rest
        rw [hsplit] at ih ⊢
        by_cases hdeep : n = 2 ∧ ['/', '*'] <+: after
        · obtain ⟨rfl, more, rfl⟩ := hdeep
          obtain ⟨ts, hts⟩ := ih more.length (by simp; omega) more rfl
          exact ⟨.deep :: ts, .deep hts⟩
        · obtain ⟨ts, hts⟩ := ih after.length (by simpa using hn) after rfl
          exact ⟨.stars n :: ts, .stars hn hend (fun h h' => hdeep ⟨h, h'⟩) hts⟩
      · obtain ⟨ts, hts⟩ := ih rest.length (by simp) rest rfl
        exact ⟨.char c :: ts, .char hc hts⟩

/-- A reading tells what the pieces of the text are. -/
theorem Reads.pieces? (h : Reads cs ts) : Pattern.pieces? cs = ts.mapM Token.piece? := by
  induction h with
  | nil => rfl
  | deep _ ih =>
    rw [Pattern.pieces?, ih, List.mapM_cons]
    cases List.mapM Token.piece? _ <;> rfl
  | @stars n rest ts hn hend hdeep _ ih =>
    rw [List.mapM_cons, ← ih]
    match n with
    | 1 =>
      rw [List.replicate_one, List.singleton_append, Pattern.pieces?]
      · cases Pattern.pieces? rest <;> rfl
      all_goals
        rintro more rfl
        exact hend (by simp)
    | 2 =>
      rw [List.replicate_succ, List.replicate_one, List.cons_append, List.singleton_append,
        Pattern.pieces?]
      · cases Pattern.pieces? rest <;> rfl
      · rintro more rfl
        exact hdeep rfl (by simp)
      · rintro more rfl
        exact hend (by simp)
    | n + 3 =>
      rw [List.replicate_succ, List.replicate_succ, List.replicate_succ]
      rfl
  | @char c rest ts hc _ ih =>
    rw [List.mapM_cons, ← ih, Pattern.pieces?]
    · cases Pattern.pieces? rest <;> rfl
    all_goals
      intros
      simp_all

theorem Reads.text (h : Reads cs ts) : cs = ts.flatMap Token.text := by
  induction h with
  | nil => rfl
  | deep _ ih => rw [List.flatMap_cons, ← ih]; rfl
  | stars _ _ _ _ ih => rw [List.flatMap_cons, ← ih]; rfl
  | char _ _ ih => rw [List.flatMap_cons, ← ih]; rfl

theorem Reads.pos (h : Reads cs ts) (hmem : .stars n ∈ ts) : 0 < n := by
  induction h with
  | nil => cases hmem
  | deep _ ih => exact ih (by simpa using hmem)
  | stars hn _ _ _ ih =>
    rcases List.mem_cons.mp hmem with heq | hmem
    · exact Token.stars.inj heq ▸ hn
    · exact ih hmem
  | char _ _ ih => exact ih (by simpa using hmem)

/-! ## What is rejected -/

/-- The reading has a run of stars that means nothing. -/
def HasLongRun (ts : List Token) : Prop := ∃ n, .stars n ∈ ts ∧ 3 ≤ n

theorem mapM_eq_none {α β : Type} {f : α → Option β} {xs : List α} :
    xs.mapM f = none ↔ ∃ x ∈ xs, f x = none := by
  induction xs with
  | nil => simp
  | cons x rest ih =>
    rw [List.mapM_cons]
    cases hx : f x with
    | none => simp [hx]
    | some y =>
      rw [List.exists_mem_cons_iff, ← ih]
      cases rest.mapM f <;> simp [hx]

theorem Reads.pieces?_eq_none (h : Reads cs ts) : Pattern.pieces? cs = none ↔ HasLongRun ts := by
  rw [h.pieces?, mapM_eq_none]
  constructor
  · rintro ⟨t, ht, hnone⟩
    match t, hnone with
    | .stars 0, _ => exact absurd (h.pos ht) (Nat.lt_irrefl 0)
    | .stars (n + 3), _ => exact ⟨n + 3, ht, by omega⟩
  · rintro ⟨n, hmem, hn⟩
    obtain ⟨k, rfl⟩ := Nat.exists_eq_add_of_le' hn
    exact ⟨_, hmem, rfl⟩

theorem regex_eq_error {e : Fault} : Pattern.regex pattern = .error e ↔
    pieces? pattern.toList = none ∧ e = .invalidPattern pattern := by
  rw [regex, parse]
  cases pieces? pattern.toList with
  | none => exact ⟨fun h => ⟨rfl, (Except.error.inj h).symm⟩, fun h => h.2 ▸ rfl⟩
  | some ps => exact ⟨(nomatch ·), (nomatch ·.1)⟩

theorem regex_eq_ok {regex : String} : Pattern.regex pattern = .ok regex ↔
    ∃ ps, pieces? pattern.toList = some ps ∧ regexOf ps = regex := by
  rw [Pattern.regex, parse]
  cases pieces? pattern.toList with
  | none => simp [bind, Except.bind]
  | some ps => simp [bind, Except.bind, pure, Except.pure]

/-- A run that is too long stands in the text. -/
theorem Reads.threeStars (h : Reads cs ts) (hlong : HasLongRun ts) : ['*', '*', '*'] <:+: cs := by
  obtain ⟨n, hmem, hn⟩ := hlong
  obtain ⟨k, rfl⟩ := Nat.exists_eq_add_of_le hn
  have hrun : ['*', '*', '*'] <:+: (Token.stars (3 + k)).text :=
    ⟨[], List.replicate k '*', by rw [Token.text, List.replicate_add]; rfl⟩
  rw [h.text]
  exact hrun.trans (List.infix_of_mem_flatten (List.mem_map_of_mem hmem))

/-- **Three stars in a row that do not stand behind `**/` are read as one run.** -/
theorem Reads.hasLongRun (h : Reads cs ts) (hbehind : ¬ ['*', '*', '/', '*', '*', '*'] <:+: cs)
    (hstars : ['*', '*', '*'] <:+: cs) : HasLongRun ts := by
  have hcons : ∀ {t : Token} {ts : List Token}, HasLongRun ts → HasLongRun (t :: ts) :=
    fun ⟨n, hmem, hn⟩ => ⟨n, List.mem_cons_of_mem _ hmem, hn⟩
  induction h with
  | nil => simp at hstars
  | @deep rest ts _ ih =>
    -- Only the last of the four characters could begin the three stars.
    have hfirst : ¬ ['*', '*', '*'] <+: '*' :: rest := fun h => hbehind <|
      List.IsPrefix.isInfix (by simpa [List.cons_prefix_cons] using h)
    refine hcons (ih (fun h => hbehind ?_) ?_)
    · simp [List.infix_cons_iff, h]
    · simpa [List.infix_cons_iff, List.cons_prefix_cons, hfirst] using hstars
  | @stars n rest ts hn hend _ _ ih =>
    by_cases hlong : 3 ≤ n
    · exact ⟨n, List.mem_cons_self, hlong⟩
    · refine hcons (ih (fun h => hbehind (h.trans (List.suffix_append _ _).isInfix)) ?_)
      have hone : ¬ ['*', '*'] <+: rest := fun h => hend ((List.prefix_append ['*'] ['*']).trans h)
      obtain rfl | rfl : n = 1 ∨ n = 2 := by omega
      · simpa [List.infix_cons_iff, List.cons_prefix_cons, hone] using hstars
      · simpa [List.replicate_succ, List.infix_cons_iff, List.cons_prefix_cons, hone, hend]
          using hstars
  | @char c rest ts hc _ ih =>
    refine hcons (ih (fun h => hbehind (List.infix_cons h)) ?_)
    simpa [List.infix_cons_iff, List.cons_prefix_cons, hc.symm] using hstars

/-- **What is rejected**: a pattern that is read with a run of three or more stars. Three stars in a
row are one such run unless they stand behind `**/`. -/
theorem regex_rejects (pattern : String) :
    ((∃ regex, Pattern.regex pattern = .ok regex) ↔
      Pattern.regex pattern ≠ .error (.invalidPattern pattern)) ∧
    (∃ ts, Reads pattern.toList ts ∧
      (Pattern.regex pattern = .error (.invalidPattern pattern) ↔ HasLongRun ts)) ∧
    (Pattern.regex pattern = .error (.invalidPattern pattern) →
      "***".toList <:+: pattern.toList) ∧
    ("***".toList <:+: pattern.toList → ¬ "**/***".toList <:+: pattern.toList →
      Pattern.regex pattern = .error (.invalidPattern pattern)) := by
  obtain ⟨ts, hts⟩ := exists_reads pattern.toList
  have hrejects : Pattern.regex pattern = .error (.invalidPattern pattern) ↔ HasLongRun ts := by
    rw [regex_eq_error, hts.pieces?_eq_none, and_iff_left rfl]
  refine ⟨?_, ⟨ts, hts, hrejects⟩, fun h => hts.threeStars (hrejects.mp h),
    fun hstars hbehind => ?_⟩
  · rw [ne_eq, regex_eq_error, and_iff_left rfl]
    cases hpieces : pieces? pattern.toList with
    | none => simp [regex_eq_ok, hpieces]
    | some ps => simp [regex_eq_ok, hpieces]
  · exact hrejects.mpr (hts.hasLongRun hbehind hstars)

/-- Three stars in a row that are not rejected: they stand behind `**/`. -/
theorem regex_starsBehindDeep : "***".toList <:+: "**/***".toList ∧
    Pattern.regex "**/***" = .ok "^.*.*$" := ⟨⟨"**/".toList, [], rfl⟩, rfl⟩

end Pattern

end StepLoom
