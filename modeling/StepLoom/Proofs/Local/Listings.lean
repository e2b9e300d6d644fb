import StepLoom.Git
import StepLoom.Proofs.Distinct
import StepLoom.Proofs.Local.Acts
import StepLoom.Proofs.Splitting

/-!
# Listings of changed files

Git lists the names of files one below another. What it prints is stripped as a whole before it is
cut into lines, so a listing loses the blanks at its two ends, and keeps those in between: names of
blanks only that stand first or last are gone, and so are the leading blanks of the first name that
is left and the trailing blanks of the last one (`trimmed`).

**Theorem (`changedFiles_trimmed`).** The changed files are the names of the trimmed listings, first
of the differing files and then of the unknown ones, each once at its first place. A name without
blanks at its ends is never lost, and listings without blanks at their ends come back as they are.

So a name that begins with a blank is altered if it is the first one (`changedFiles_blankName`).
-/

namespace StepLoom

namespace Text

variable {cs ds line : List Char} {c : Char} {name : String} {names : List String}

/-! ## Cutting into lines -/

theorem linesFrom_nil : linesFrom line [] = if line.isEmpty then [] else [line.reverse] := rfl

theorem linesFrom_newline : linesFrom line ('\n' :: cs) = line.reverse :: linesFrom [] cs := rfl

theorem linesFrom_cons (h : ¬ isLineEnd c) :
    linesFrom line (c :: cs) = linesFrom (c :: line) cs := by
  have hne : c ≠ '\r' := by
    rintro rfl
    exact h (by decide)
  rw [linesFrom, if_neg h]
  exact fun _ hc => absurd hc hne

theorem linesFrom_append (h : ∀ c ∈ cs, ¬ isLineEnd c) :
    linesFrom line (cs ++ ds) = linesFrom (cs.reverse ++ line) ds := by
  induction cs generalizing line with
  | nil => rfl
  | cons c rest ih =>
    obtain ⟨hc, hrest⟩ := List.forall_mem_cons.mp h
    rw [List.cons_append, linesFrom_cons hc, ih hrest, List.reverse_cons, List.append_assoc]
    rfl

theorem linesFrom_append_newline (h : ∀ c ∈ cs, ¬ isLineEnd c) :
    linesFrom [] (cs ++ '\n' :: ds) = cs :: linesFrom [] ds := by
  rw [linesFrom_append h, linesFrom_newline, List.append_nil, List.reverse_reverse]

theorem linesFrom_of_not_mem (h : ∀ c ∈ cs, ¬ isLineEnd c) (hne : cs ≠ []) :
    linesFrom [] cs = [cs] := by
  have hrun : linesFrom [] (cs ++ []) = linesFrom (cs.reverse ++ []) [] := linesFrom_append h
  simpa [linesFrom_nil, hne] using hrun

theorem linesFrom_ne_nil (h : line ≠ [] ∨ cs ≠ []) : linesFrom line cs ≠ [] := by
  fun_induction linesFrom line cs with
  | case1 line hempty => simp_all
  | case2 line hempty => simp
  | case3 line rest ih => simp
  | case4 line c rest _ hend ih => simp
  | case5 line c rest _ hend ih => exact ih (Or.inl (List.cons_ne_nil c line))

/-! ## Blanks at the ends of a listing -/

theorem unlines_cons (name : String) (names : List String) :
    unlines (name :: names) = name.toList ++ '\n' :: unlines names := by
  rw [unlines, List.flatMap_cons, List.append_assoc]
  rfl

theorem dropEndWhile_append (p : Char → Bool) (cs ds : List Char) : dropEndWhile p (cs ++ ds) =
    if dropEndWhile p ds = [] then dropEndWhile p cs else cs ++ dropEndWhile p ds := by
  simp only [dropEndWhile, List.reverse_append, List.dropWhile_append, List.reverse_eq_nil_iff,
    List.isEmpty_iff]
  split_ifs
  · rfl
  · simp

/-- A listing without the blanks in front of it. -/
def trimStart : List String → List String
  | [] => []
  | name :: rest =>
    match name.toList.dropWhile isBlank with
    | [] => trimStart rest
    | c :: cs => String.ofList (c :: cs) :: rest

/-- A listing without the blanks behind it. -/
def trimEnd : List String → List String
  | [] => []
  | name :: rest =>
    if trimEnd rest = [] then [String.ofList (dropEndWhile isBlank name.toList)].filter (· ≠ "")
    else name :: trimEnd rest

theorem trimStart_cons (name : String) (rest : List String) : trimStart (name :: rest) =
    match name.toList.dropWhile isBlank with
    | [] => trimStart rest
    | c :: cs => String.ofList (c :: cs) :: rest := rfl

theorem trimEnd_cons (name : String) (rest : List String) : trimEnd (name :: rest) =
    if trimEnd rest = [] then [String.ofList (dropEndWhile isBlank name.toList)].filter (· ≠ "")
    else name :: trimEnd rest := rfl

/-- The names that are left of a listing when it is stripped. -/
def trimmed (names : List String) : List String := trimEnd (trimStart names)

theorem dropWhile_unlines (names : List String) :
    (unlines names).dropWhile isBlank = unlines (trimStart names) := by
  induction names with
  | nil => rfl
  | cons name rest ih =>
    have hnewline : isBlank '\n' := by decide
    rw [unlines_cons, List.dropWhile_append, trimStart_cons]
    cases hname : name.toList.dropWhile isBlank with
    | nil => simpa [hnewline] using ih
    | cons c cs => rw [unlines_cons, String.toList_ofList]; rfl

/-- What is left of a listing has no line ends if the listing has none, and no empty names. -/
theorem of_mem_trimStart (hnames : ∀ m ∈ names, m ≠ "" ∧ ∀ c ∈ m.toList, ¬ isLineEnd c)
    (h : name ∈ trimStart names) : name ≠ "" ∧ ∀ c ∈ name.toList, ¬ isLineEnd c := by
  induction names with
  | nil => cases h
  | cons first rest ih =>
    obtain ⟨hfirst, hrest⟩ := List.forall_mem_cons.mp hnames
    rw [trimStart_cons] at h
    split at h
    · exact ih hrest h
    · next c cs hdrop =>
      rcases List.mem_cons.mp h with rfl | h
      · refine ⟨fun he => ?_, fun d hd => hfirst.2 d ?_⟩
        · simpa using congrArg String.toList he
        · rw [String.toList_ofList, ← hdrop] at hd
          exact (List.dropWhile_suffix _).subset hd
      · exact hrest name h

theorem ne_empty_of_mem_trimEnd (hnames : ∀ m ∈ names, m ≠ "") (h : name ∈ trimEnd names) :
    name ≠ "" := by
  induction names with
  | nil => cases h
  | cons first rest ih =>
    obtain ⟨hfirst, hrest⟩ := List.forall_mem_cons.mp hnames
    rw [trimEnd_cons] at h
    split_ifs at h
    · simpa using (List.mem_filter.mp h).2
    · rcases List.mem_cons.mp h with rfl | h
      · exact hfirst
      · exact ih hrest h

/-- The lines that are left of a listing when the blanks behind it are gone. -/
theorem linesFrom_dropEndWhile (h : ∀ name ∈ names, ∀ c ∈ name.toList, ¬ isLineEnd c) :
    (linesFrom [] (dropEndWhile isBlank (unlines names))).map String.ofList = trimEnd names := by
  induction names with
  | nil => rfl
  | cons name rest ih =>
    obtain ⟨hname, hrest⟩ := List.forall_mem_cons.mp h
    have ih := ih hrest
    have hsplit : unlines (name :: rest) = (name.toList ++ ['\n']) ++ unlines rest := by
      rw [unlines_cons, List.append_assoc]
      rfl
    rw [hsplit, dropEndWhile_append, trimEnd_cons]
    by_cases hempty : dropEndWhile isBlank (unlines rest) = []
    · -- Nothing is left of the rest, so the blanks behind this name go, too.
      have hrest : trimEnd rest = [] := by rw [← ih, hempty]; rfl
      rw [if_pos hempty, if_pos hrest, dropEndWhile_append,
        if_pos (by decide : dropEndWhile isBlank ['\n'] = [])]
      generalize hkept : dropEndWhile isBlank name.toList = kept
      have hsub : ∀ c ∈ kept, ¬ isLineEnd c := by
        intro c hc
        refine hname c ?_
        rw [← hkept, dropEndWhile, List.mem_reverse] at hc
        exact List.mem_reverse.mp ((List.dropWhile_suffix _).subset hc)
      by_cases hnil : kept = []
      · simp [hnil, linesFrom_nil]
      · rw [linesFrom_of_not_mem hsub hnil]
        simp [hnil]
    · have hne : trimEnd rest ≠ [] := by
        rw [← ih]
        simpa using linesFrom_ne_nil (Or.inr hempty)
      rw [if_neg hempty, if_neg hne, List.append_assoc, List.singleton_append,
        linesFrom_append_newline hname, List.map_cons, ih, String.ofList_toList]

/-- **The lines of a listing that is stripped.** -/
theorem lines_strip (h : ∀ name ∈ names, name ≠ "" ∧ ∀ c ∈ name.toList, ¬ isLineEnd c) :
    lines (strip (String.ofList (unlines names))) = trimmed names := by
  rw [strip, stripChars, String.toList_ofList, dropWhile_unlines, lines, String.toList_ofList]
  exact linesFrom_dropEndWhile fun name hname => (of_mem_trimStart h hname).2

theorem ne_empty_of_mem_trimmed
    (h : ∀ name ∈ names, name ≠ "" ∧ ∀ c ∈ name.toList, ¬ isLineEnd c)
    (hname : name ∈ trimmed names) :
    name ≠ "" :=
  ne_empty_of_mem_trimEnd (fun _ hm => (of_mem_trimStart h hm).1) hname

/-! ## Listings without blanks at their ends -/

/-- A text whose first character is no blank. -/
def StartsSolid (name : String) : Prop := ∀ c ∈ name.toList.head?, ¬ isBlank c

/-- A text whose last character is no blank. -/
def EndsSolid (name : String) : Prop := ∀ c ∈ name.toList.getLast?, ¬ isBlank c

instance (name : String) : Decidable (StartsSolid name) :=
  decidable_of_iff (name.toList.head?.all fun c => !isBlank c)
    (by simp [StartsSolid, Option.all_eq_true])

instance (name : String) : Decidable (EndsSolid name) :=
  decidable_of_iff (name.toList.getLast?.all fun c => !isBlank c)
    (by simp [EndsSolid, Option.all_eq_true])

theorem StartsSolid.dropWhile_eq (h : StartsSolid name) :
    name.toList.dropWhile isBlank = name.toList := by
  cases hname : name.toList with
  | nil => rfl
  | cons c cs => exact List.dropWhile_cons_of_neg (h c (by rw [hname]; rfl))

theorem EndsSolid.dropEndWhile_eq (h : EndsSolid name) :
    dropEndWhile isBlank name.toList = name.toList := by
  rw [EndsSolid, ← List.head?_reverse] at h
  rw [dropEndWhile]
  cases hname : name.toList.reverse with
  | nil => rw [List.reverse_eq_nil_iff.mp hname]; rfl
  | cons c cs =>
    rw [List.dropWhile_cons_of_neg (h c (by rw [hname]; rfl)), ← hname, List.reverse_reverse]

theorem trimStart_cons_of_solid (hne : name ≠ "") (h : StartsSolid name) :
    trimStart (name :: names) = name :: names := by
  obtain ⟨c, cs, hname⟩ := List.exists_cons_of_ne_nil (mt String.toList_eq_nil_iff.mp hne)
  rw [trimStart_cons, h.dropWhile_eq, hname]
  dsimp only
  rw [← hname, String.ofList_toList]

theorem trimEnd_cons_of_solid (hne : name ≠ "") (h : EndsSolid name) :
    trimEnd (name :: names) = name :: trimEnd names := by
  rw [trimEnd_cons]
  split_ifs with hrest
  · rw [h.dropEndWhile_eq, String.ofList_toList, hrest]
    simpa using hne
  · rfl

/-- No blank stands at either end of a listing. -/
def IsTight (names : List String) : Prop :=
  (∀ name ∈ names.head?, StartsSolid name) ∧ ∀ name ∈ names.getLast?, EndsSolid name

theorem trimEnd_of_tight (hne : ∀ name ∈ names, name ≠ "")
    (h : ∀ name ∈ names.getLast?, EndsSolid name) : trimEnd names = names := by
  induction names with
  | nil => rfl
  | cons name rest ih =>
    obtain ⟨hname, hrest⟩ := List.forall_mem_cons.mp hne
    cases rest with
    | nil => rw [trimEnd_cons_of_solid hname (h name rfl)]; rfl
    | cons next more =>
      rw [trimEnd_cons, ih hrest (by simpa using h), if_neg (List.cons_ne_nil next more)]

/-- A tight listing keeps all its names. -/
theorem IsTight.trimmed_eq (h : IsTight names) (hne : ∀ name ∈ names, name ≠ "") :
    trimmed names = names := by
  have hstart : trimStart names = names := by
    cases names with
    | nil => rfl
    | cons name rest => exact trimStart_cons_of_solid (hne name (by simp)) (h.1 name rfl)
  rw [trimmed, hstart, trimEnd_of_tight hne h.2]

theorem mem_trimEnd_of_solid (hne : name ≠ "") (hend : EndsSolid name) (h : name ∈ names) :
    name ∈ trimEnd names := by
  induction names with
  | nil => cases h
  | cons first rest ih =>
    rcases List.mem_cons.mp h with rfl | h
    · rw [trimEnd_cons_of_solid hne hend]
      exact List.mem_cons_self
    · have hrest : trimEnd rest ≠ [] := List.ne_nil_of_mem (ih h)
      rw [trimEnd_cons, if_neg hrest]
      exact List.mem_cons_of_mem first (ih h)

/-- A name without blanks at its ends is kept, wherever it stands. -/
theorem mem_trimmed_of_solid (hne : name ≠ "") (hstart : StartsSolid name) (hend : EndsSolid name)
    (h : name ∈ names) : name ∈ trimmed names := by
  refine mem_trimEnd_of_solid hne hend ?_
  induction names with
  | nil => cases h
  | cons first rest ih =>
    rcases List.mem_cons.mp h with rfl | h
    · rw [trimStart_cons_of_solid hne hstart]
      exact List.mem_cons_self
    · rw [trimStart_cons]
      split
      · exact ih h
      · exact List.mem_cons_of_mem _ h

end Text

namespace Git

open Text (EndsSolid IsTight StartsSolid trimmed unlines)

variable {w : Workspace} {base root : String} {D U : List String}

/-- A name that stands on one line. -/
def IsName (name : String) : Prop := name ≠ "" ∧ ∀ c ∈ name.toList, ¬ Text.isLineEnd c

instance (name : String) : Decidable (IsName name) :=
  decidable_of_iff (name ≠ "" ∧ name.toList.all fun c => !Text.isLineEnd c) (by simp [IsName])

/-- Git answers with names, each on a line of its own. -/
def Lists (w : Workspace) (args names : List String) : Prop :=
  ∃ a, w.git.find? (fun a => a.args == args) = some a ∧ a.code = 0 ∧
    a.output = String.ofList (unlines names)

/-- What lists the files that differ from a base. -/
def differing (base : String) : List String := ["diff", "--name-only", base, "--relative"]

/-- What lists the files that git does not know. -/
def unknown : List String := ["ls-files", "--others", "--exclude-standard"]

theorem namesIn_trimmed (hD : ∀ name ∈ D, IsName name) (hU : ∀ name ∈ U, IsName name) :
    namesIn [Text.strip (String.ofList (unlines D)), Text.strip (String.ofList (unlines U))] =
      (trimmed D ++ trimmed U).eraseDups := by
  have hflat : [Text.strip (String.ofList (unlines D)),
      Text.strip (String.ofList (unlines U))].flatMap Text.lines = trimmed D ++ trimmed U := by
    simp only [List.flatMap_cons, List.flatMap_nil, List.append_nil, Text.lines_strip hD,
      Text.lines_strip hU]
  rw [namesIn, hflat, distinct_eq_eraseDups, List.filter_eq_self]
  intro name hname
  have hne : name ≠ "" := by
    rcases List.mem_append.mp (List.mem_eraseDups.mp hname) with hname | hname
    · exact Text.ne_empty_of_mem_trimmed hD hname
    · exact Text.ne_empty_of_mem_trimmed hU hname
  simpa using hne

theorem exec_changedFiles {a b : GitAnswer}
    (ha : w.git.find? (fun a => a.args == differing base) = some a) (hcode : a.code = 0)
    (hb : w.git.find? (fun a => a.args == unknown) = some b) (hcode' : b.code = 0) :
    exec (changedFiles base root) w = (.ok (namesIn [Text.strip a.output, Text.strip b.output]),
      { w with
        tree := (w.tree.putFiles a.writes).putFiles b.writes
        calls := w.calls ++ [.git (differing base) (some root)] ++
          [.git unknown (some root)] }) := by
  -- The first answer leaves what git will answer as it is, so the second one is still there.
  have hunknown (cwd : Option String) := @Act.exec_git { w with
    tree := w.tree.putFiles a.writes
    calls := w.calls ++ [.git (differing base) (some root)] } b unknown cwd hb hcode'
  rw [changedFiles, ← differing, ← unknown, exec_bind_ok (Act.exec_git ha hcode),
    exec_bind_ok (hunknown (some root))]
  rfl

/-- **The changed files** are the names of the stripped listings, each once at its first place. No
name without blanks at its ends is lost, and if no listing begins or ends with a blank, then the
changed files are all the names that git lists. -/
theorem changedFiles_trimmed (hD : ∀ name ∈ D, IsName name) (hU : ∀ name ∈ U, IsName name)
    (hdiff : Lists w (differing base) D) (hunknown : Lists w unknown U) :
    ∃ files w', exec (changedFiles base root) w = (.ok files, w') ∧
      w'.calls = w.calls ++ [.git (differing base) (some root), .git unknown (some root)] ∧
      files = (trimmed D ++ trimmed U).eraseDups ∧
      (∀ name ∈ D ++ U, StartsSolid name → EndsSolid name → name ∈ files) ∧
      (IsTight D → IsTight U → files = (D ++ U).eraseDups) := by
  obtain ⟨a, ha, hcode, hout⟩ := hdiff
  obtain ⟨b, hb, hcode', hout'⟩ := hunknown
  refine ⟨_, _, exec_changedFiles ha hcode hb hcode', by simp, ?_⟩
  rw [hout, hout', namesIn_trimmed hD hU]
  refine ⟨rfl, fun name hname hstart hend => List.mem_eraseDups.mpr ?_, fun hTightD hTightU => ?_⟩
  · rcases List.mem_append.mp hname with hname | hname
    · exact List.mem_append_left _ (Text.mem_trimmed_of_solid (hD name hname).1 hstart hend hname)
    · exact List.mem_append_right _ (Text.mem_trimmed_of_solid (hU name hname).1 hstart hend hname)
  · rw [hTightD.trimmed_eq fun name h => (hD name h).1,
      hTightU.trimmed_eq fun name h => (hU name h).1]

/-- A repository with three changed files and two unknown ones; one name has blanks at its ends, and
one stands in both listings. -/
def sampleAnswers : Workspace where
  git := [{ args := differing "main", output := "a.js\n b \nc.js\n" },
    { args := unknown, output := "c.js\nd e\n" }]

theorem changedFiles_trimmed_sample : ∃ files w',
    exec (changedFiles "main" ".") sampleAnswers = (.ok files, w') ∧
      w'.calls = [.git (differing "main") (some "."), .git unknown (some ".")] ∧
      files = ["a.js", " b ", "c.js", "d e"] := by
  obtain ⟨files, w', hrun, hcalls, -, -, htight⟩ :=
    @changedFiles_trimmed sampleAnswers "main" "." ["a.js", " b ", "c.js"] ["c.js", "d e"]
      (by decide) (by decide) ⟨_, rfl, rfl, by decide⟩ ⟨_, rfl, rfl, by decide⟩
  refine ⟨files, w', hrun, hcalls, (htight ?_ ?_).trans (by decide)⟩
  · exact ⟨by decide, by decide⟩
  · exact ⟨by decide, by decide⟩

/-- **A blank in front of the first name is lost.** -/
theorem changedFiles_blankName :
    let w : Workspace :=
      { git := [{ args := differing "main", output := " a.txt\nb.txt\n" },
          { args := unknown, output := "" }] }
    Lists w (differing "main") [" a.txt", "b.txt"] ∧ Lists w unknown [] ∧
      (exec (changedFiles "main" ".") w).1 = .ok ["a.txt", "b.txt"] := by
  refine ⟨⟨_, rfl, rfl, by decide⟩, ⟨_, rfl, rfl, by decide⟩, by decide⟩

end Git

end StepLoom
