import StepLoom.Compile.Bail
import StepLoom.Proofs.Condition.Scan

/-!
# Conditions on a step's own outputs

In the bail condition of a step, `outputs.` is replaced by a reference through the step's id.
Whether an expression is embedded does not depend on it, wherever in the text the replacements are
made.

**Theorem (`Follows.output`).** A scanner goes through both texts side by side if it does so for a
single character and for a single replacement.

**Theorems (`pieces_qualified_char`, `pieces_qualified_code`).** A text without embedded expressions
gets none, and a text that is one embedded expression stays one.
-/

namespace StepLoom

open Bail (outputsWord qualifyFrom)

/-- Some of the words `outputs.` in a text are replaced. -/
inductive Qualified (replacement : List Char) : List Char → List Char → Prop
  | nil : Qualified replacement [] []
  | keep (c : Char) {cs cs' : List Char} (h : Qualified replacement cs cs') :
      Qualified replacement (c :: cs) (c :: cs')
  | replace {cs cs' : List Char} (h : Qualified replacement cs cs') :
      Qualified replacement (outputsWord ++ cs) (replacement ++ cs')

variable {replacement cs cs' ds ds' : List Char}

theorem qualified_qualifyFrom (skip : Nat) (previous : Char) (cs : List Char) :
    Qualified replacement (cs.drop skip) (qualifyFrom replacement skip previous cs) := by
  induction cs generalizing skip previous with
  | nil =>
    rw [List.drop_nil]
    cases skip <;> exact .nil
  | cons c cs ih =>
    cases skip with
    | succ skip => exact ih skip c
    | zero =>
      rw [List.drop_zero, qualifyFrom]
      by_cases hmatch : previous ≠ '.' ∧ outputsWord.isPrefixOf (c :: cs) = true
      · rw [if_pos hmatch]
        obtain ⟨ds, hds⟩ := List.isPrefixOf_iff_prefix.mp hmatch.2
        have htail : cs.drop (outputsWord.length - 1) = ds := by
          have hdrop := congrArg (List.drop outputsWord.length) hds
          rw [List.drop_left] at hdrop
          exact hdrop.symm
        rw [← hds]
        exact .replace (htail ▸ ih (outputsWord.length - 1) c)
      · rw [if_neg hmatch]
        exact .keep c (ih 0 c)

/-- A brace stays where it is. -/
theorem Qualified.of_append_brace (h : Qualified replacement (cs ++ '}' :: ds) cs') :
    ∃ as bs, cs' = as ++ '}' :: bs ∧ Qualified replacement cs as ∧ Qualified replacement ds bs := by
  generalize hall : cs ++ '}' :: ds = all at h
  induction h generalizing cs with
  | nil => simp at hall
  | @keep c rest rest' h ih =>
    cases cs with
    | nil =>
      obtain ⟨rfl, rfl⟩ := List.cons.inj hall
      exact ⟨[], rest', rfl, .nil, h⟩
    | cons d cs =>
      obtain ⟨rfl, hrest⟩ := List.cons.inj hall
      obtain ⟨as, bs, rfl, has, hbs⟩ := ih hrest
      exact ⟨d :: as, bs, rfl, .keep d has, hbs⟩
  | @replace rest rest' h ih =>
    rcases List.append_eq_append_iff.mp hall with ⟨more, hword, hmore⟩ | ⟨more, rfl, hrest⟩
    · -- The word would have to reach over the brace.
      cases more with
      | nil =>
        rw [List.append_nil] at hword
        subst hword
        have hnil : [] ++ '}' :: ds = rest := hmore
        obtain ⟨as, bs, rfl, has, hbs⟩ := ih hnil
        refine ⟨replacement ++ as, bs, by simp, ?_, hbs⟩
        simpa using Qualified.replace has
      | cons d more =>
        obtain ⟨rfl, -⟩ := List.cons.inj hmore
        have hmem : '}' ∈ outputsWord := by simp [hword]
        exact absurd hmem (by decide)
    · obtain ⟨as, bs, rfl, has, hbs⟩ := ih hrest.symm
      exact ⟨replacement ++ as, bs, by simp, .replace has, hbs⟩

/-- A character with which the word does not begin stays where it is. -/
theorem Qualified.of_cons {c : Char} (hc : c ≠ 'o') (h : Qualified replacement (c :: cs) cs') :
    ∃ ds, cs' = c :: ds ∧ Qualified replacement cs ds := by
  generalize hall : c :: cs = all at h
  cases h with
  | nil => cases hall
  | keep d h =>
    obtain ⟨rfl, rfl⟩ := List.cons.inj hall
    exact ⟨_, rfl, h⟩
  | replace h => exact absurd (List.cons.inj hall).1 hc

theorem Qualified.of_nil (h : Qualified replacement [] cs') : cs' = [] := by
  generalize hall : ([] : List Char) = all at h
  cases h with
  | nil => rfl
  | keep => cases hall
  | replace h => cases hall

/-! ## Scanning side by side -/

/-- How a scanner fares on a text and on a replacement: states that answer each other, and outputs
that do. -/
structure Follows {σ ο : Type} (m : Scan σ ο) (replacement : List Char) (R : σ → σ → Prop)
    (S : List ο → List ο → Prop) : Prop where
  nil : S [] []
  append : ∀ {as as' bs bs'}, S as as' → S bs bs' → S (as ++ bs) (as' ++ bs')
  step : ∀ {q q' c os p}, R q q' → m.step q c = some (os, p) →
    ∃ os' p', m.step q' c = some (os', p') ∧ S os os' ∧ R p p'
  word : ∀ {q q' os p}, R q q' → m.run q outputsWord = some (os, p) →
    ∃ os' p', m.run q' replacement = some (os', p') ∧ S os os' ∧ R p p'
  finish : ∀ {q q' os}, R q q' → m.finish q = some os → ∃ os', m.finish q' = some os' ∧ S os os'

section

variable {σ ο : Type} {m : Scan σ ο} {R : σ → σ → Prop} {S : List ο → List ο → Prop} {q q' : σ}

/-- **A scanner goes through both texts side by side.** -/
theorem Follows.output (hf : Follows m replacement R S) (h : Qualified replacement cs cs')
    (hq : R q q') {os : List ο} (hos : m.output q cs = some os) :
    ∃ os', m.output q' cs' = some os' ∧ S os os' := by
  induction h generalizing q q' os with
  | nil =>
    rw [Scan.output_nil] at hos ⊢
    exact hf.finish hq hos
  | @keep c cs cs' _ ih =>
    cases hstep : m.step q c with
    | none => simp [Scan.output, Scan.run_cons, hstep] at hos
    | some first =>
      obtain ⟨as, p⟩ := first
      rw [m.output_cons hstep, Option.map_eq_some_iff] at hos
      obtain ⟨bs, hbs, rfl⟩ := hos
      obtain ⟨as', p', hstep', has, hp⟩ := hf.step hq hstep
      obtain ⟨bs', hbs', hb⟩ := ih hp hbs
      exact ⟨as' ++ bs', by rw [m.output_cons hstep', hbs']; rfl, hf.append has hb⟩
  | @replace cs cs' _ ih =>
    rw [Scan.output_append] at hos
    cases hrun : m.run q outputsWord with
    | none => simp [hrun] at hos
    | some first =>
      obtain ⟨as, p⟩ := first
      rw [hrun, Option.bind_some, Option.map_eq_some_iff] at hos
      obtain ⟨bs, hbs, rfl⟩ := hos
      obtain ⟨as', p', hrun', has, hp⟩ := hf.word hq hrun
      obtain ⟨bs', hbs', hb⟩ := ih hp hbs
      refine ⟨as' ++ bs', ?_, hf.append has hb⟩
      rw [m.output_append_of_run hrun', hbs']
      rfl

end

/-! ## Embedded expressions -/

namespace Embedded

def Piece.isCode : Piece → Bool
  | .char _ => false
  | .code _ => true

/-- The state, whatever has been read of an embedded expression. -/
def State.kind : State → State
  | .inside _ => .inside []
  | .quoted _ => .quoted []
  | .closing _ => .closing []
  | q => q

/-- As many embedded expressions as before, and no characters if there were none. -/
def SameShape (ps ps' : List Piece) : Prop :=
  ps.countP Piece.isCode = ps'.countP Piece.isCode ∧ (ps.all Piece.isCode → ps'.all Piece.isCode)

/-- A text that neither begins nor ends an embedded expression. -/
def IsPlain (cs : List Char) : Prop := ∀ c ∈ cs, c ∉ ['$', '{', '}', '\'']

variable {q q' p p' : State} {ps ps' : List Piece} {c : Char}

theorem SameShape.refl (ps : List Piece) : SameShape ps ps := ⟨rfl, id⟩

theorem SameShape.chars (cs cs' : List Char) (h : cs ≠ []) :
    SameShape (cs.map .char) (cs'.map .char) := by
  obtain ⟨c, cs, rfl⟩ := List.exists_cons_of_ne_nil h
  have hcount : ∀ ds : List Char, (ds.map Piece.char).countP Piece.isCode = 0 := by
    intro ds
    rw [List.countP_eq_zero]
    simp [Piece.isCode]
  exact ⟨by rw [hcount, hcount], by simp [Piece.isCode]⟩

/-- States of one kind go on to states of one kind. -/
theorem step_kind (hq : q.kind = q'.kind) (h : step q c = some (ps, p)) :
    ∃ ps' p', step q' c = some (ps', p') ∧ SameShape ps ps' ∧ p.kind = p'.kind := by
  have henter : ∀ cs cs', (enter cs c).kind = (enter cs' c).kind := by
    intro cs cs'
    unfold enter
    split_ifs <;> rfl
  cases q <;> cases q' <;> try cases hq
  · exact ⟨ps, p, h, .refl ps, rfl⟩
  · exact ⟨ps, p, h, .refl ps, rfl⟩
  · exact ⟨ps, p, h, .refl ps, rfl⟩
  · obtain ⟨rfl, rfl⟩ := Prod.mk.inj (Option.some.inj h)
    refine ⟨_, _, rfl, .refl _, ?_⟩
    by_cases hc : c = '}'
    · rw [if_pos hc, if_pos hc]
      rfl
    · rw [if_neg hc, if_neg hc]
      exact henter _ _
  · obtain ⟨rfl, rfl⟩ := Prod.mk.inj (Option.some.inj h)
    refine ⟨_, _, rfl, .refl _, ?_⟩
    by_cases hc : c = '\'' <;> simp [hc, State.kind]
  · by_cases hc : c = '}'
    · rw [step, if_pos hc] at h
      obtain ⟨rfl, rfl⟩ := Prod.mk.inj (Option.some.inj h)
      exact ⟨_, _, if_pos hc, ⟨rfl, fun _ => rfl⟩, rfl⟩
    · rw [step, if_neg hc] at h
      obtain ⟨rfl, rfl⟩ := Prod.mk.inj (Option.some.inj h)
      exact ⟨_, _, if_neg hc, .refl _, henter _ _⟩

theorem run_outside (h : IsPlain cs) : scan.run .outside cs = some (cs.map .char, .outside) := by
  induction cs with
  | nil => rfl
  | cons c cs ih =>
    have hc : c ≠ '$' := by
      rintro rfl
      exact absurd (h '$' (by simp)) (by decide)
    have hstep : scan.step .outside c = some ([.char c], .outside) := if_neg hc
    rw [scan.run_cons_of_step hstep]
    simp [ih fun d hd => h d (List.mem_cons_of_mem c hd)]

theorem run_inside {code : List Char} (h : IsPlain cs) :
    scan.run (.inside code) cs = some ([], .inside (code ++ cs)) := by
  induction cs generalizing code with
  | nil => simp
  | cons c cs ih =>
    have hc : c ≠ '}' ∧ c ≠ '\'' := by
      have hmem := h c (by simp)
      simp only [List.mem_cons, not_or] at hmem
      exact ⟨hmem.2.2.1, hmem.2.2.2.1⟩
    have hstep : scan.step (.inside code) c = some ([], .inside (code ++ [c])) := by
      change some ([], if c = '}' then _ else enter code c) = _
      rw [if_neg hc.1, enter, if_neg hc.2]
    rw [scan.run_cons_of_step hstep]
    simp [ih fun d hd => h d (List.mem_cons_of_mem c hd)]

theorem run_quoted {code : List Char} (h : IsPlain cs) :
    scan.run (.quoted code) cs = some ([], .quoted (code ++ cs)) := by
  induction cs generalizing code with
  | nil => simp
  | cons c cs ih =>
    have hc : c ≠ '\'' := by
      rintro rfl
      exact absurd (h '\'' (by simp)) (by decide)
    have hstep : scan.step (.quoted code) c = some ([], .quoted (code ++ [c])) := by
      change some ([], if c = '\'' then _ else _) = _
      rw [if_neg hc]
    rw [scan.run_cons_of_step hstep]
    simp [ih fun d hd => h d (List.mem_cons_of_mem c hd)]

/-- What a plain text comes to. -/
def State.after (q : State) (cs : List Char) : List Piece × State :=
  match q with
  | .outside | .dollar | .brace => ((q.pending ++ cs).map .char, .outside)
  | .inside code => ([], .inside (code ++ cs))
  | .quoted code => ([], .quoted (code ++ cs))
  | .closing code => ([], .inside (code ++ '}' :: cs))

theorem run_plain (h : IsPlain cs) (hne : cs ≠ []) : scan.run q cs = some (q.after cs) := by
  obtain ⟨c, cs, rfl⟩ := List.exists_cons_of_ne_nil hne
  have hmem := h c (by simp)
  simp only [List.mem_cons, not_or] at hmem
  obtain ⟨hdollar, hbrace, hclose, hquote, -⟩ := hmem
  have hrest : IsPlain cs := fun d hd => h d (List.mem_cons_of_mem c hd)
  cases q with
  | outside => exact run_outside h
  | dollar =>
    have hstep : scan.step .dollar c = some ([.char '$', .char c], .outside) :=
      (if_neg hbrace).trans (if_neg hdollar)
    rw [scan.run_cons_of_step hstep]
    simp [run_outside hrest, State.after, State.pending]
  | brace =>
    have hstep : scan.step .brace c = some ([.char '$', .char '{', .char c], .outside) :=
      (if_neg hbrace).trans (if_neg hdollar)
    rw [scan.run_cons_of_step hstep]
    simp [run_outside hrest, State.after, State.pending]
  | inside code => exact run_inside h
  | quoted code => exact run_quoted h
  | closing code =>
    have hstep : scan.step (.closing code) c = some ([], .inside (code ++ ['}'] ++ [c])) := by
      change (if c = '}' then _ else some ([], enter (code ++ ['}']) c)) = _
      rw [if_neg hclose, enter, if_neg hquote]
    rw [scan.run_cons_of_step hstep]
    simp [run_inside hrest, State.after]

theorem isPlain_outputsWord : IsPlain outputsWord := by
  have hall : outputsWord.all (fun c => decide (c ∉ ['$', '{', '}', '\''])) = true := by decide
  exact fun c hc => of_decide_eq_true (List.all_eq_true.mp hall c hc)

/-- The pieces of a text and of the text with replacements have the same shape. -/
theorem follows (h : IsPlain replacement) (hne : replacement ≠ []) :
    Follows scan replacement (fun q q' => q.kind = q'.kind) SameShape where
  nil := .refl []
  append := by
    intro as as' bs bs' has hbs
    refine ⟨by rw [List.countP_append, List.countP_append, has.1, hbs.1], fun hall => ?_⟩
    rw [List.all_append, Bool.and_eq_true] at hall ⊢
    exact ⟨has.2 hall.1, hbs.2 hall.2⟩
  step := step_kind
  word := by
    intro q q' ps p hq hrun
    rw [run_plain isPlain_outputsWord (by decide)] at hrun
    obtain ⟨rfl, rfl⟩ := Prod.mk.inj (Option.some.inj hrun)
    refine ⟨_, _, run_plain h hne, ?_⟩
    cases q <;> cases q' <;> try cases hq
    · exact ⟨.chars _ _ (by decide), rfl⟩
    · exact ⟨.chars _ _ (by decide), rfl⟩
    · exact ⟨.chars _ _ (by decide), rfl⟩
    · exact ⟨.refl [], rfl⟩
    · exact ⟨.refl [], rfl⟩
    · exact ⟨.refl [], rfl⟩
  finish := by
    intro q q' ps hq hfin
    cases q <;> cases q' <;> try cases hq
    · exact ⟨ps, hfin, .refl ps⟩
    · exact ⟨ps, hfin, .refl ps⟩
    · exact ⟨ps, hfin, .refl ps⟩
    · cases hfin
    · cases hfin
    · cases hfin

theorem pieces_qualified (h : IsPlain replacement) (hne : replacement ≠ [])
    (hq : Qualified replacement cs cs') (hps : pieces cs = some ps) :
    ∃ ps', pieces cs' = some ps' ∧ SameShape ps ps' :=
  (follows h hne).output hq rfl hps

/-- A text without embedded expressions gets none. -/
theorem pieces_qualified_char (h : IsPlain replacement) (hne : replacement ≠ [])
    (hq : Qualified replacement cs cs') (hps : pieces cs = some (cs.map .char)) :
    pieces cs' = some (cs'.map .char) := by
  obtain ⟨ps', hps', hcount, -⟩ := pieces_qualified h hne hq hps
  have hchars : ∀ p ∈ ps', p.isCode = false := by
    have hzero : (cs.map Piece.char).countP Piece.isCode = 0 := by
      rw [List.countP_eq_zero]
      simp [Piece.isCode]
    rw [hzero] at hcount
    simpa using List.countP_eq_zero.mp hcount.symm
  have heq : ∀ qs : List Piece, (∀ p ∈ qs, p.isCode = false) →
      qs = (qs.flatMap Piece.spell).map .char := by
    intro qs hqs
    induction qs with
    | nil => rfl
    | cons p qs ih =>
      have hrest := ih fun r hr => hqs r (List.mem_cons_of_mem p hr)
      cases p with
      | char c =>
        rw [List.flatMap_cons, List.map_append, ← hrest]
        rfl
      | code ds => cases hqs (.code ds) (by simp)
  rw [hps', heq ps' hchars, spell_pieces hps']

/-- One embedded expression and nothing else stays so. -/
theorem pieces_qualified_code (h : IsPlain replacement) (hne : replacement ≠ [])
    (hq : Qualified replacement cs cs') (hps : pieces cs = some [.code ds]) :
    ∃ ds', pieces cs' = some [.code ds'] ∧ Qualified replacement ds ds' := by
  obtain ⟨ps', hps', hcount, hall⟩ := pieces_qualified h hne hq hps
  have hcodes : ps'.all Piece.isCode = true := hall rfl
  obtain ⟨ds', rfl⟩ : ∃ ds', ps' = [.code ds'] := by
    cases ps' with
    | nil => cases hcount
    | cons p ps' =>
      cases ps' with
      | nil =>
        cases p with
        | char c => cases hcodes
        | code ds' => exact ⟨ds', rfl⟩
      | cons r ps' =>
        rw [List.all_cons, List.all_cons, Bool.and_eq_true, Bool.and_eq_true] at hcodes
        rw [List.countP_cons_of_pos hcodes.1, List.countP_cons_of_pos hcodes.2.1] at hcount
        simp [Piece.isCode] at hcount
  refine ⟨ds', hps', ?_⟩
  have hcs : cs = '$' :: '{' :: '{' :: (ds ++ '}' :: ['}']) := by
    rw [← spell_pieces hps]
    simp [Piece.spell]
  have hcs' : cs' = '$' :: '{' :: '{' :: (ds' ++ '}' :: ['}']) := by
    rw [← spell_pieces hps']
    simp [Piece.spell]
  rw [hcs, hcs'] at hq
  obtain ⟨_, heq₁, hq₁⟩ := hq.of_cons (by decide)
  obtain ⟨_, heq₂, hq₂⟩ := hq₁.of_cons (by decide)
  obtain ⟨_, heq₃, hq₃⟩ := hq₂.of_cons (by decide)
  obtain rfl := (List.cons.inj heq₁).2
  obtain rfl := (List.cons.inj heq₂).2
  obtain rfl := (List.cons.inj heq₃).2
  obtain ⟨as, bs, heq, has, hbs⟩ := hq₃.of_append_brace
  obtain ⟨_, rfl, hnil⟩ := hbs.of_cons (by decide)
  obtain rfl := hnil.of_nil
  obtain rfl : ds' = as := List.append_cancel_right heq
  exact has

end Embedded

end StepLoom
