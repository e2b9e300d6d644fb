import StepLoom.Proofs.Condition.Changed
import StepLoom.Proofs.Condition.Qualified
import StepLoom.Proofs.Condition.Renamed

/-!
# Bail conditions that were qualified

A replacement for `outputs.` goes through the names and the quoted texts of a condition. The tokens
that come out are those of the condition, with other names and with more fields.

**Theorem (`IsCondition.qualified`).** If the id of a step is a name, a condition on its outputs can
still be read after it was qualified, and it is wrapped if it was.
-/

namespace StepLoom

namespace Condition

open Bail (outputsWord)

/-- What `outputs.` is replaced by. -/
def reference (id : List Char) : List Char :=
  "steps".toList ++ ['.'] ++ (id ++ ['.'] ++ ("outputs".toList ++ ['.']))

variable {id v w w' cs cs' : List Char} {c : Char} {q q' p : Pending} {ts ts' os : List Token}

/-! ## Words -/

theorem not_constant_of_numeric (hn : isNumeric w) (hu : 'u' ∈ w) : ¬ IsConstant w := by
  have hdigits : ∀ {ds : List Char}, (∀ d ∈ ds, d.isDigit = true) → 'u' ∉ ds := by
    intro ds hds hmem
    exact absurd (hds 'u' hmem) (by decide)
  have hsign : ∀ {ds : List Char}, IsSign ds → 'u' ∉ ds := by
    intro ds hds
    rcases hds with rfl | rfl | rfl <;> decide
  intro h
  cases h with
  | keyword h =>
    rw [(by decide : ∀ w ∈ keywords, isNumeric w = false) w h] at hn
    cases hn
  | decimal hs hw hf he =>
    rw [List.mem_append, List.mem_append, List.mem_append] at hu
    rcases hu with ((hu | hu) | hu) | hu
    · exact hsign hs hu
    · exact hdigits hw.2 hu
    · rcases hf with rfl | ⟨ds, rfl, hds⟩
      · cases hu
      · rcases List.mem_cons.mp hu with hu | hu
        · exact absurd hu (by decide)
        · exact hdigits hds hu
    · rcases he with rfl | ⟨e, s, ds, rfl, he, hs', hds⟩
      · cases hu
      · rcases List.mem_cons.mp hu with rfl | hu
        · rcases he with he | he <;> exact absurd he (by decide)
        · rcases List.mem_append.mp hu with hu | hu
          · exact hsign hs' hu
          · exact hdigits hds.2 hu
  | hex hne h =>
    rcases List.mem_cons.mp hu with hu | hu
    · exact absurd hu (by decide)
    · rcases List.mem_cons.mp hu with hu | hu
      · exact absurd hu (by decide)
      · exact absurd (h 'u' hu) (by decide)
  | octal hne h =>
    rcases List.mem_cons.mp hu with hu | hu
    · exact absurd hu (by decide)
    · rcases List.mem_cons.mp hu with hu | hu
      · exact absurd hu (by decide)
      · exact absurd (h 'u' hu) (by decide)

/-- What is neither a name nor a constant may become anything. -/
theorem wordLike_of_numeric (hn : isNumeric w) (hu : 'u' ∈ w) (w' : List Char) : WordLike w w' := by
  have hname : ¬ isName w := by
    intro h
    rw [not_numeric_of_name h] at hn
    cases hn
  exact ⟨fun h => absurd h hname, fun h => absurd h.1 hname,
    fun h => absurd h (not_constant_of_numeric hn hu)⟩

theorem isNumeric_append (hv : isNumeric v) (w : List Char) : isNumeric (v ++ w) := by
  cases v with
  | nil => cases hv
  | cons c v => exact hv

theorem not_numeric_append (hv : isNumeric v = false) (hw : isNumeric w = false) :
    isNumeric (v ++ w) = false := by
  cases v with
  | nil => exact hw
  | cons c v => exact hv

/-- A word in front of a replacement. -/
theorem wordLike_outputs (hv : isNumeric v = false) :
    WordLike (v ++ "outputs".toList) (v ++ "steps".toList) := by
  have hkey : ∀ {w : List Char}, w.getLast? = some 's' → w ∉ keywords := by
    intro w hlast hw
    exact (by decide : ∀ w ∈ keywords, w.getLast? ≠ some 's') w hw hlast
  have hname : isName (v ++ "outputs".toList) → isName (v ++ "steps".toList) := by
    intro h
    cases v with
    | nil => decide
    | cons c v =>
      obtain ⟨d, ds, heq, hd, hds⟩ := isName_iff.mp h
      obtain ⟨rfl, rfl⟩ := List.cons.inj heq
      refine isName_iff.mpr ⟨c, v ++ "steps".toList, rfl, hd, fun e he => ?_⟩
      rcases List.mem_append.mp he with he | he
      · exact hds e (List.mem_append_left _ he)
      · exact List.all_eq_true.mp (by decide : "steps".toList.all isNameChar = true) e he
  refine ⟨hname, fun h => isReference_of_name (hname h.1) (hkey (by simp)), fun h => ?_⟩
  rcases isNumeric_of_constant h with hk | hn
  · exact absurd hk (hkey (by simp))
  · rw [not_numeric_append hv (by decide)] at hn
    cases hn

/-! ## Runs of the scanner -/

theorem run_name_dot (h : isName w) :
    scan.run .between (w ++ ['.']) = some ([.word w, .dot], .between) := by
  have hstep : scan.step (.word w) '.' = some ([.word w, .dot], .between) := by
    change some (if continues w '.' = true then _ else _) = _
    have hnot : continues w '.' = false := by
      rw [continues, not_numeric_of_name h]
      rfl
    rw [if_neg (by simp [hnot])]
    rfl
  rw [scan.run_append_of_run (run_name h), scan.run_cons_of_step hstep]
  rfl

theorem run_word_dot (hn : isNumeric (v ++ w) = false) (hw : ∀ c ∈ w, isNameChar c) :
    scan.run (.word v) (w ++ ['.']) = some ([.word (v ++ w), .dot], .between) := by
  have hstep : scan.step (.word (v ++ w)) '.' = some ([.word (v ++ w), .dot], .between) := by
    change some (if continues (v ++ w) '.' = true then _ else _) = _
    have hnot : continues (v ++ w) '.' = false := by
      rw [continues, hn]
      rfl
    rw [if_neg (by simp [hnot])]
    rfl
  rw [scan.run_append_of_run (run_nameChars hw), scan.run_cons_of_step hstep]
  rfl

/-- Dots do not end a number. -/
theorem run_numeric (hv : isNumeric v) (h : ∀ c ∈ cs, isNameChar c ∨ c = '.') :
    scan.run (.word v) cs = some ([], .word (v ++ cs)) := by
  induction cs generalizing v with
  | nil => simp
  | cons c cs ih =>
    have hc : continues v c = true := by
      rcases h c (by simp) with hc | rfl
      · simp [continues, not_boundary_of_nameChar hc]
      · rw [continues, hv]
        rfl
    have hstep : scan.step (.word v) c = some ([], .word (v ++ [c])) := by
      change some (if continues v c = true then _ else _) = _
      rw [if_pos hc]
    rw [scan.run_cons_of_step hstep]
    simp [ih (isNumeric_append hv [c]) fun d hd => h d (List.mem_cons_of_mem c hd)]

theorem run_text (h : '\'' ∉ cs) : scan.run (.text v) cs = some ([], .text (v ++ cs)) := by
  induction cs generalizing v with
  | nil => simp
  | cons c cs ih =>
    rw [List.mem_cons, not_or] at h
    have hstep : scan.step (.text v) c = some ([], .text (v ++ [c])) := by
      change some ([], if c = '\'' then _ else _) = _
      rw [if_neg fun he => h.1 he.symm]
    rw [scan.run_cons_of_step hstep]
    simp [ih h.2]

/-- A name ends a text or an operator that may go on. -/
theorem run_after {before : List Token}
    (hq : scan.step q c = some (before ++ (begin c).1, (begin c).2)) :
    scan.run q (c :: cs) =
      (scan.run .between (c :: cs)).map fun (os, p) => (before ++ os, p) := by
  have hbetween : scan.step .between c = some ((begin c).1, (begin c).2) := rfl
  rw [scan.run_cons_of_step hq, scan.run_cons_of_step hbetween]
  cases scan.run (begin c).2 cs <;> simp

theorem step_quote (hc : isNameHead c) :
    scan.step (.quote v) c = some ([.text v] ++ (begin c).1, (begin c).2) := by
  have hne : c ≠ '\'' := by
    rintro rfl
    cases hc
  change some (if c = '\'' then _ else _) = _
  rw [if_neg hne]
  rfl

theorem step_half {d : Char} (hc : isNameHead c) : scan.step (.half d) c =
    (alone d).map fun t => ([t] ++ (begin c).1, (begin c).2) := by
  have hne : c ≠ '=' ∧ c ≠ '&' ∧ c ≠ '|' := by
    refine ⟨?_, ?_, ?_⟩ <;> (rintro rfl; cases hc)
  have hpair : pair d c = none := by simp [pair, hne]
  change step (.half d) c = _
  rw [step, hpair]
  rfl

theorem run_reference (hid : isName id) (h : scan.run q ("steps".toList ++ ['.']) =
    some (os, .between)) : scan.run q (reference id) =
      some (os ++ [.word id, .dot, .word "outputs".toList, .dot], .between) := by
  rw [reference, scan.run_append_of_run h, scan.run_append_of_run (run_name_dot hid),
    run_name_dot (by decide)]
  rfl

/-! ## Side by side -/

/-- States that answer each other. A number that holds a letter is none, whatever the letters
are. -/
inductive Pending.Like : Pending → Pending → Prop
  | same (q : Pending) : Pending.Like q q
  | word {v v' : List Char} (hv : isNumeric v) (hv' : isNumeric v') (hu : 'u' ∈ v) :
      Pending.Like (.word v) (.word v')
  | text (cs cs' : List Char) : Pending.Like (.text cs) (.text cs')
  | quote (cs cs' : List Char) : Pending.Like (.quote cs) (.quote cs')

theorem Renamed.replaced (hid : isName id) {w w' : List Char} (h : WordLike w w') :
    Renamed [.word w, .dot]
      ([.word w', .dot] ++ [.word id, .dot, .word "outputs".toList, .dot]) :=
  .cons (.word h) (.insert hid (.insert (by decide) (.cons (.same .dot) .nil)))

theorem nameChars_reference (hid : isName id) : ∀ c ∈ reference id, isNameChar c ∨ c = '.' := by
  obtain ⟨d, ds, rfl, hd, hds⟩ := isName_iff.mp hid
  intro c hc
  simp only [reference, List.mem_append, List.mem_cons, List.not_mem_nil, or_false] at hc
  rcases hc with (hc | hc) | ((hc | hc) | hc) | hc | hc
  · exact Or.inl (List.all_eq_true.mp (by decide : "steps".toList.all isNameChar = true) c hc)
  · exact Or.inr hc
  · exact Or.inl (hc ▸ isNameChar_of_head hd)
  · exact Or.inl (hds c hc)
  · exact Or.inr hc
  · exact Or.inl (List.all_eq_true.mp (by decide : "outputs".toList.all isNameChar = true) c hc)
  · exact Or.inr hc

theorem not_mem_reference (hid : isName id) (hc : isNameChar c = false) (hdot : c ≠ '.') :
    c ∉ reference id := by
  intro hmem
  rcases nameChars_reference hid c hmem with h | h
  · rw [hc] at h
    cases h
  · exact hdot h

/-- Numbers stay numbers that hold letters. -/
theorem follows_numeric (hid : isName id) {v v' : List Char} (hv : isNumeric v)
    (hv' : isNumeric v') (h : scan.run (.word v) outputsWord = some (os, p)) :
    ∃ os' p', scan.run (.word v') (reference id) = some (os', p') ∧ Renamed os os' ∧ p.Like p' := by
  have hword : outputsWord.all (fun c => isNameChar c || c == '.') = true := by decide
  have hchars : ∀ c ∈ outputsWord, isNameChar c ∨ c = '.' := fun c hc => by
    simpa using List.all_eq_true.mp hword c hc
  rw [run_numeric hv hchars] at h
  obtain ⟨rfl, rfl⟩ := Prod.mk.inj (Option.some.inj h)
  refine ⟨_, _, run_numeric hv' (nameChars_reference hid), .nil, ?_⟩
  refine .word (isNumeric_append hv _) (isNumeric_append hv' _) (List.mem_append_right _ ?_)
  decide

theorem follows_text (hid : isName id) (v v' : List Char)
    (h : scan.run (.text v) outputsWord = some (os, p)) :
    ∃ os' p', scan.run (.text v') (reference id) = some (os', p') ∧ Renamed os os' ∧ p.Like p' := by
  rw [run_text (by decide)] at h
  obtain ⟨rfl, rfl⟩ := Prod.mk.inj (Option.some.inj h)
  exact ⟨_, _, run_text (not_mem_reference hid rfl (by decide)), .nil, .text _ _⟩

/-- Both words begin at once, after tokens that are complete. -/
theorem follows_after (hid : isName id) {before before' : List Token}
    (hbefore : Renamed before before')
    (hq : scan.step q 'o' = some (before ++ (begin 'o').1, (begin 'o').2))
    (hq' : scan.step q' 's' = some (before' ++ (begin 's').1, (begin 's').2))
    (h : scan.run q outputsWord = some (os, p)) :
    ∃ os' p', scan.run q' (reference id) = some (os', p') ∧ Renamed os os' ∧ p.Like p' := by
  have hword : scan.run q outputsWord =
      some (before ++ [.word "outputs".toList, .dot], .between) := by
    rw [show outputsWord = 'o' :: "utputs.".toList from rfl, run_after hq]
    exact congrArg _ (run_name_dot (w := "outputs".toList) (by decide))
  have hsteps : scan.run q' ("steps".toList ++ ['.']) =
      some (before' ++ [.word "steps".toList, .dot], .between) := by
    rw [show "steps".toList ++ ['.'] = 's' :: "teps.".toList from rfl, run_after hq']
    exact congrArg _ (run_name_dot (w := "steps".toList) (by decide))
  obtain ⟨rfl, rfl⟩ := Prod.mk.inj (Option.some.inj (hword.symm.trans h))
  refine ⟨_, _, run_reference hid hsteps, ?_, .same .between⟩
  rw [List.append_assoc]
  exact hbefore.append (.replaced hid (wordLike_outputs (v := []) (by decide)))

/-- The replacement goes on with a word that has begun. -/
theorem follows_word (hid : isName id) {v : List Char} (hv : isNumeric v = false)
    (h : scan.run (.word v) outputsWord = some (os, p)) : ∃ os' p',
    scan.run (.word v) (reference id) = some (os', p') ∧ Renamed os os' ∧ p.Like p' := by
  have hword := run_word_dot (v := v) (w := "outputs".toList)
    (not_numeric_append hv (by decide)) (List.all_eq_true.mp (by decide))
  have hsteps := run_word_dot (v := v) (w := "steps".toList)
    (not_numeric_append hv (by decide)) (List.all_eq_true.mp (by decide))
  obtain ⟨rfl, rfl⟩ := Prod.mk.inj (Option.some.inj (hword.symm.trans h))
  exact ⟨_, _, run_reference hid hsteps, .replaced hid (wordLike_outputs hv), .same .between⟩

theorem renamed_beginAfter {t t' : Token} (ht : Like t t') (c : Char) :
    Renamed (beginAfter t c).1 (beginAfter t' c).1 ∧
      (beginAfter t c).2.Like (beginAfter t' c).2 :=
  ⟨.cons ht (.refl _), .same _⟩

/-- A step of the scan goes alike from alike pending characters. -/
theorem step_like (hq : Pending.Like q q') {c : Char} (h : scan.step q c = some (os, p)) :
    ∃ os' p', scan.step q' c = some (os', p') ∧ Renamed os os' ∧ p.Like p' := by
  cases hq with
  | same => exact ⟨os, p, h, .refl os, .same p⟩
  | @word v v' hv hv' hu =>
    have hcontinues : continues v c = continues v' c := by rw [continues, continues, hv, hv']
    obtain heq := Option.some.inj h
    by_cases hc : continues v c = true
    · rw [if_pos hc] at heq
      obtain ⟨rfl, rfl⟩ := Prod.mk.inj heq
      refine ⟨_, _, congrArg some (if_pos (hcontinues ▸ hc)), .nil, ?_⟩
      exact .word (isNumeric_append hv _) (isNumeric_append hv' _) (List.mem_append_left _ hu)
    · rw [if_neg hc] at heq
      obtain ⟨rfl, rfl⟩ := Prod.mk.inj heq
      have hlike : Like (.word v) (.word v') := .word (wordLike_of_numeric hv hu v')
      obtain ⟨hos, hp⟩ := renamed_beginAfter hlike c
      exact ⟨_, _, congrArg some (if_neg (hcontinues ▸ hc)), hos, hp⟩
  | text cs cs' =>
    obtain ⟨rfl, rfl⟩ := Prod.mk.inj (Option.some.inj h)
    refine ⟨_, _, rfl, .nil, ?_⟩
    by_cases hc : c = '\''
    · rw [if_pos hc, if_pos hc]
      exact .quote cs cs'
    · rw [if_neg hc, if_neg hc]
      exact .text _ _
  | quote cs cs' =>
    obtain heq := Option.some.inj h
    by_cases hc : c = '\''
    · rw [if_pos hc] at heq
      obtain ⟨rfl, rfl⟩ := Prod.mk.inj heq
      exact ⟨_, _, congrArg some (if_pos hc), .nil, .text _ _⟩
    · rw [if_neg hc] at heq
      obtain ⟨rfl, rfl⟩ := Prod.mk.inj heq
      obtain ⟨hos, hp⟩ := renamed_beginAfter (.text cs cs') c
      exact ⟨_, _, congrArg some (if_neg hc), hos, hp⟩

/-- The replacement behind any pending characters. -/
theorem follows_same (hid : isName id) (h : scan.run q outputsWord = some (os, p)) :
    ∃ os' p', scan.run q (reference id) = some (os', p') ∧ Renamed os os' ∧ p.Like p' := by
  cases q with
  | between =>
    have hnil : Renamed ([] : List Token) [] := .nil
    exact follows_after hid hnil rfl rfl h
  | word v =>
    by_cases hv : isNumeric v = true
    · exact follows_numeric hid hv hv h
    · exact follows_word hid (eq_false_of_ne_true hv) h
  | text v => exact follows_text hid v v h
  | quote v => exact follows_after hid (.cons (.same _) .nil) (step_quote rfl) (step_quote rfl) h
  | half d =>
    cases hd : alone d with
    | none =>
      have hstep : scan.step (.half d) 'o' = none := by rw [step_half rfl, hd]; rfl
      rw [show outputsWord = 'o' :: "utputs.".toList from rfl, Scan.run_cons, hstep] at h
      cases h
    | some t =>
      have hstep : ∀ c, isNameHead c → scan.step (.half d) c =
          some ([t] ++ (begin c).1, (begin c).2) := by
        intro c hc
        rw [step_half hc, hd]
        rfl
      exact follows_after hid (.cons (.same t) .nil) (hstep 'o' rfl) (hstep 's' rfl) h

/-- **The tokens are those of the condition, with other names and more fields.** -/
theorem follows (hid : isName id) : Follows scan (reference id) Pending.Like Renamed where
  nil := .nil
  append := Renamed.append
  step hq h := step_like hq h
  word := by
    intro q q' os p hq h
    cases hq with
    | same => exact follows_same hid h
    | word hv hv' _ => exact follows_numeric hid hv hv' h
    | text v v' => exact follows_text hid v v' h
    | quote v v' =>
      exact follows_after hid (.cons (.text v v') .nil) (step_quote rfl) (step_quote rfl) h
  finish := by
    intro q q' os hq h
    cases hq with
    | same => exact ⟨os, h, .refl os⟩
    | @word v v' hv _ hu =>
      obtain rfl := Option.some.inj h
      exact ⟨_, rfl, .cons (.word (wordLike_of_numeric hv hu v')) .nil⟩
    | text => cases h
    | quote cs cs' =>
      obtain rfl := Option.some.inj h
      exact ⟨_, rfl, .cons (.text cs cs') .nil⟩

/-! ## Conditions -/

variable {e : Expr} {s : Sense}

theorem Parses.qualified (hid : isName id) (hq : Qualified (reference id) cs cs')
    (h : Parses cs e) : ∃ e', Parses cs' e' := by
  obtain ⟨ts, hts, hread⟩ := h
  obtain ⟨ts', hts', hrenamed⟩ := (follows hid).output hq (.same .between) hts
  obtain ⟨e', rest, hread', hrest⟩ := hread.renamed hrenamed (.level 0)
  cases hrest with
  | nil => exact ⟨e', ts', hts', hread'⟩

theorem isPlain_reference (hid : isName id) : Embedded.IsPlain (reference id) := by
  intro c hc hmem
  refine not_mem_reference hid ?_ ?_ hc
  · simp only [List.mem_cons, List.not_mem_nil, or_false] at hmem
    rcases hmem with rfl | rfl | rfl | rfl <;> rfl
  · rintro rfl
    simp at hmem

/-- A text that is a condition as a whole, maybe embedded. -/
def IsCondition (cs : List Char) (wrapped : Bool) : Prop :=
  ∃ e, Means cs (if wrapped then .wrapped e else .bare e)

/-- **A condition that was qualified is one.** -/
theorem IsCondition.qualified {wrapped : Bool} (hid : isName id)
    (hq : Qualified (reference id) cs cs') (h : IsCondition cs wrapped) :
    IsCondition cs' wrapped := by
  have hplain := isPlain_reference hid
  have hne : reference id ≠ [] := by simp [reference]
  obtain ⟨e, he⟩ := h
  cases wrapped with
  | false =>
    cases he with
    | bare hp hparse =>
      obtain ⟨e', he'⟩ := hparse.qualified hid hq
      exact ⟨e', .bare (Embedded.pieces_qualified_char hplain hne hq hp) he'⟩
  | true =>
    cases he with
    | wrapped hp hparse =>
      obtain ⟨ds', hp', hds⟩ := Embedded.pieces_qualified_code hplain hne hq hp
      obtain ⟨e', he'⟩ := hparse.qualified hid hds
      exact ⟨e', .wrapped hp' he'⟩

end Condition

end StepLoom
