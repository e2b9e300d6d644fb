import StepLoom.Proofs.Check.Bash
import StepLoom.Proofs.Pattern.Reading

/-!
# The script of a path check

A path check exists twice: as a script for the shell, and as a matcher for local runs.

**Theorem (`check_agrees`).** The script, run with git printing some changed files, reports a change
if the matcher selects one of the files. If no pattern holds a line feed, it reports a change only
then.

A pattern with a line feed selects no file, but the script makes two searches of it. If the line
feed comes last, the second one looks for the end of a line, and every name has one
(`check_disagrees`).
-/

namespace StepLoom

namespace Bash

/-! ## Reading the script -/

def branch : Word := plain "refs/remotes/origin/" ++ [.variable Check.baseRefVariable.toList]

def changedFiles : List Word :=
  [plain "git", plain "diff", plain "--name-only", branch, plain "--relative"]

def search (regex : String) : List Word :=
  [plain "grep", plain "-E", regex.toList.map .quoted]

def outputFile : Word := [.variable "GITHUB_OUTPUT".toList]

/-- The output of the step is set, and the script ends. -/
def report (changed : Bool) : List Command :=
  [⟨[plain "echo", (if changed then "changed=true" else "changed=false").toList.map .quoted],
    some outputFile⟩, ⟨[plain "exit", plain "0"], none⟩]

def testStatement (regex : String) : Statement :=
  .ifOutput [changedFiles, search regex] (report true)

/-- The tokens of a command that appends its output to a file, and of the line after it. -/
def reportTokens (changed : Bool) : List Token :=
  [.word (plain "echo"),
    .word ((if changed then "changed=true" else "changed=false").toList.map .quoted), .append,
    .word outputFile, .newline, .word (plain "exit"), .word (plain "0")]

def testTokens (regex : String) : List Token :=
  ([.word (plain "if"), .word (plain "[["), .word (plain "-n"), .open] : List Token) ++
    changedFiles.map Token.word ++ ([.pipe] : List Token) ++ (search regex).map Token.word ++
    ([.close, .word (plain "]]"), .newline, .word (plain "then"), .newline] : List Token) ++
    reportTokens true ++ ([.newline, .word (plain "fi"), .newline] : List Token)

variable {regex : String} {rest : List Char} {ts : List Token}

theorem output_test : scan.output .between ((Check.test regex).toList ++ '\n' :: rest) =
    (scan.output .between rest).map (testTokens regex ++ ·) := by
  have hbefore : scan.run .between ("if [[ -n $(git diff --name-only refs/remotes/origin/$" ++
      Check.baseRefVariable ++ " --relative | grep -E ").toList =
      some (([.word (plain "if"), .word (plain "[["), .word (plain "-n"), .open] : List Token) ++
        changedFiles.map Token.word ++
        ([.pipe, .word (plain "grep"), .word (plain "-E")] : List Token), .between) := by
    decide +kernel
  have hclose : ∀ w, scan.run (.word w) ") ]]\n".toList =
      some ([.word w, .close, .word (plain "]]"), .newline], .between) := fun _ => rfl
  have hafter : scan.run .between
      ("then\necho \"changed=true\" >> \"$GITHUB_OUTPUT\"\nexit 0\nfi" ++ "\n").toList =
      some (([.word (plain "then"), .newline] : List Token) ++ reportTokens true ++
        ([.newline, .word (plain "fi"), .newline] : List Token), .between) := by
    decide
  have htest : (Check.test regex).toList ++ '\n' :: rest =
      ("if [[ -n $(git diff --name-only refs/remotes/origin/$" ++ Check.baseRefVariable ++
        " --relative | grep -E ").toList ++ ((Check.shellQuote regex).toList ++ (") ]]\n".toList ++
          (("then\necho \"changed=true\" >> \"$GITHUB_OUTPUT\"\nexit 0\nfi" ++ "\n").toList ++
            rest))) := by
    unfold Check.test
    simp only [String.toList_append, List.append_assoc]
    rfl
  rw [htest, Scan.output_append_of_run _ hbefore, Scan.output_append_of_run _ run_shellQuote,
    Scan.output_append_of_run _ (hclose _), Scan.output_append_of_run _ hafter]
  simp only [Option.map_map]
  refine congrArg (Option.map · _) (funext fun ts => ?_)
  simp [testTokens, search]

theorem statements_test : statements .top (linesOf [] (testTokens regex ++ ts)) =
    (statements .top (linesOf [] ts)).map (testStatement regex :: ·) := rfl

theorem parse_test : parse ((Check.test regex).toList ++ '\n' :: rest) =
    (parse rest).map (testStatement regex :: ·) := by
  rw [parse, output_test, parse]
  cases scan.output .between rest with
  | none => rfl
  | some ts => exact statements_test

theorem parse_newline : parse ('\n' :: rest) = parse rest := by
  have hstep : scan.step .between '\n' = some ([.newline], .between) := rfl
  rw [parse, Scan.output_cons _ hstep, parse]
  cases scan.output .between rest with
  | none => rfl
  | some ts => rfl

theorem parse_tests {regexes : List String} {last : String} (hlast : last.toList = '\n' :: rest) :
    parse ("\n\n".intercalate (regexes.map Check.test) ++ last).toList =
      (parse rest).map (regexes.map testStatement ++ ·) := by
  have hnewlines : "\n\n".toList = ['\n', '\n'] := by decide
  induction regexes with
  | nil =>
    rw [List.map_nil, String.intercalate_nil, String.empty_append, hlast, parse_newline]
    exact Option.map_id'.symm
  | cons regex more ih =>
    cases more with
    | nil =>
      rw [List.map_singleton, String.intercalate_singleton, String.toList_append, hlast, parse_test]
      rfl
    | cons next more =>
      rw [List.map_cons, List.map_cons, String.intercalate_cons_cons, ← List.map_cons,
        String.append_assoc, String.append_assoc, String.toList_append,
        String.toList_append (s := "\n\n"), hnewlines, List.cons_append, parse_test,
        List.singleton_append, parse_newline, ih, Option.map_map]
      rfl

/-- **The statements of the script.** -/
theorem parse_script {regexes : List String} : parse (Check.script regexes).toList =
    some (regexes.map testStatement ++ (report false).map .command) := by
  have hlast : "\necho \"changed=false\" >> \"$GITHUB_OUTPUT\"\nexit 0".toList =
      '\n' :: "echo \"changed=false\" >> \"$GITHUB_OUTPUT\"\nexit 0".toList := by
    decide
  have hreport : parse "echo \"changed=false\" >> \"$GITHUB_OUTPUT\"\nexit 0".toList =
      some ((report false).map .command) := by
    decide
  rw [Check.script, parse_tests hlast, hreport, Option.map_some]

/-! ## Running the script -/

variable {world : World} {patterns files : List String} {pattern : String}

theorem run_script {regexes : List String} : world.run (Check.script regexes).toList =
    (inOrder world.statement (regexes.map testStatement ++ (report false).map .command)).map
      Prod.fst := by
  rw [World.run, parse_script, Option.map_eq_bind]
  rfl

theorem word_plain {s : String} : world.word (plain s) = s.toList := by
  simp [World.word, plain, List.flatMap_map, World.piece]

theorem word_quoted {cs : List Char} : world.word (cs.map .quoted) = cs := by
  simp [World.word, List.flatMap_map, World.piece]

/-- The arguments that git is given. -/
def diffArguments (world : World) : List (List Char) :=
  ["diff".toList, "--name-only".toList,
    "refs/remotes/origin/".toList ++ world.value Check.baseRefVariable.toList, "--relative".toList]

theorem word_branch : world.word branch =
    "refs/remotes/origin/".toList ++ world.value Check.baseRefVariable.toList := by
  rw [World.word, branch, List.flatMap_append, ← World.word, word_plain]
  simp [World.piece]

theorem printed_changedFiles {input : List Char} :
    world.printed input changedFiles = some (world.git (diffArguments world)) := by
  simp [World.printed, changedFiles, word_plain, word_branch, diffArguments]

theorem printed_search {input : List Char} :
    world.printed input (search regex) = Grep.output regex.toList input := by
  simp [World.printed, search, word_plain, word_quoted]

/-- What is set as the output of the step. -/
def reported (world : World) (changed : Bool) : List (List Char × List Char) :=
  [(world.value "GITHUB_OUTPUT".toList,
    (if changed then "changed=true\n" else "changed=false\n").toList)]

theorem inOrder_report {changed : Bool} :
    inOrder world.command (report changed) = some (reported world changed, true) := by
  have hfile : world.word outputFile = world.value "GITHUB_OUTPUT".toList := by
    simp [World.word, outputFile, World.piece]
  have hecho : world.command ⟨[plain "echo",
      (if changed then "changed=true" else "changed=false").toList.map .quoted], some outputFile⟩ =
      some (reported world changed, false) := by
    rw [World.command, List.map_cons, List.map_singleton, word_plain, word_quoted]
    dsimp only
    rw [hfile, if_pos ⟨rfl, by cases changed <;> decide⟩, reported]
    cases changed <;> rfl
  have hexit : world.command ⟨[plain "exit", plain "0"], none⟩ = some ([], true) := by
    rw [World.command, List.map_cons, List.map_singleton, word_plain, word_plain]
    exact if_pos ⟨rfl, rfl⟩
  simp [report, inOrder, hecho, hexit]

/-- The names of files are more than line feeds. -/
theorem any_unlines (hfiles : ∀ f ∈ files, f ≠ "" ∧ '\n' ∉ f.toList) {selected : String → Bool} :
    (Text.unlines (files.filter selected)).any (· ≠ '\n') = files.any selected := by
  rw [Bool.eq_iff_iff, List.any_eq_true, List.any_eq_true]
  constructor
  · rintro ⟨c, hc, -⟩
    obtain ⟨f, hf, -⟩ := List.mem_flatMap.mp hc
    exact ⟨f, List.mem_filter.mp hf⟩
  · rintro ⟨f, hf, hselected⟩
    obtain ⟨hne, hnewline⟩ := hfiles f hf
    obtain ⟨c, rest, hchars⟩ := List.exists_cons_of_ne_nil (mt String.toList_eq_nil_iff.mp hne)
    have hc : c ∈ f.toList := by simp [hchars]
    refine ⟨c, List.mem_flatMap.mpr ⟨f, List.mem_filter.mpr ⟨hf, hselected⟩, by simp [hc]⟩, ?_⟩
    simpa using fun h : c = '\n' => hnewline (h ▸ hc)

/-- **One test** finds a file that its pattern selects. -/
theorem prints_search {ps : List Pattern.Piece} (hpieces : Pattern.pieces? pattern.toList = some ps)
    (hfiles : ∀ f ∈ files, f ≠ "" ∧ '\n' ∉ f.toList)
    (hgit : world.git (diffArguments world) = Text.unlines files) : ∃ found : Bool,
    world.prints [changedFiles, search (Pattern.regexOf ps)] = some found ∧
      (∀ f ∈ files, Pattern.accepts ps f.toList → found) ∧
      ('\n' ∉ pattern.toList → found → ∃ f ∈ files, Pattern.accepts ps f.toList) := by
  obtain ⟨selected, houtput, hselected⟩ := Grep.output_regexOf hpieces fun f hf => (hfiles f hf).2
  refine ⟨files.any selected, ?_, fun f hf haccepts => ?_, fun hnot hfound => ?_⟩
  · simp [World.prints, printed_changedFiles, printed_search, hgit, houtput, ← any_unlines hfiles]
  · exact List.any_eq_true.mpr ⟨f, hf, (hselected f hf).1 haccepts⟩
  · obtain ⟨f, hf, hsel⟩ := List.any_eq_true.mp hfound
    exact ⟨f, hf, ((hselected f hf).2 hsel).resolve_right hnot⟩

theorem statement_test {found : Bool} (h : world.prints [changedFiles, search regex] = some found) :
    world.statement (testStatement regex) =
      some (if found then (reported world true, true) else ([], false)) := by
  have hreport : inOrder world.command (report true) = some (reported world true, true) :=
    inOrder_report
  rw [testStatement, World.statement, h]
  cases found with
  | true => exact hreport
  | false => rfl

/-- The pattern selects the file. -/
def Takes (pattern file : String) : Prop :=
  ∃ ps, Pattern.pieces? pattern.toList = some ps ∧ Pattern.accepts ps file.toList

/-- **The tests**, and the report that no file was found after them. -/
theorem inOrder_tests (hpatterns : ∀ p ∈ patterns, ∃ regex, Pattern.regex p = .ok regex)
    (hfiles : ∀ f ∈ files, f ≠ "" ∧ '\n' ∉ f.toList)
    (hgit : world.git (diffArguments world) = Text.unlines files) :
    ∃ regexes changed, Check.regexes patterns = .ok regexes ∧
      inOrder world.statement (regexes.map testStatement ++ (report false).map .command) =
        some (reported world changed, true) ∧
      (∀ p ∈ patterns, ∀ f ∈ files, Takes p f → changed) ∧
      ((∀ p ∈ patterns, '\n' ∉ p.toList) → changed → ∃ p ∈ patterns, ∃ f ∈ files, Takes p f) := by
  induction patterns with
  | nil =>
    have hreport : inOrder world.command (report false) = some (reported world false, true) :=
      inOrder_report
    exact ⟨[], false, rfl, hreport, by simp, by simp⟩
  | cons p rest ih =>
    obtain ⟨⟨regex, hregex⟩, hrest⟩ := List.forall_mem_cons.mp hpatterns
    obtain ⟨regexes, changed, hregexes, hrun, htakes, hchanged⟩ := ih hrest
    obtain ⟨ps, hpieces, rfl⟩ := Pattern.regex_eq_ok.mp hregex
    obtain ⟨found, hfound, hsome, hnone⟩ := prints_search hpieces hfiles hgit
    have hcons : Check.regexes (p :: rest) = .ok (Pattern.regexOf ps :: regexes) := by
      rw [Check.regexes, hregex, hregexes]
      rfl
    cases found with
    | true =>
      refine ⟨_, true, hcons, ?_, by simp, fun hnewline _ => ?_⟩
      · rw [List.map_cons, List.cons_append, inOrder, statement_test hfound]
        rfl
      · obtain ⟨f, hf, haccepts⟩ := hnone (hnewline p List.mem_cons_self) rfl
        exact ⟨p, List.mem_cons_self, f, hf, ps, hpieces, haccepts⟩
    | false =>
      refine ⟨_, changed, hcons, ?_, fun q hq f hf htake => ?_, fun hnewline h => ?_⟩
      · rw [List.map_cons, List.cons_append, inOrder, statement_test hfound]
        exact (congrArg (Option.bind · _) hrun).trans rfl
      · rcases List.mem_cons.mp hq with rfl | hq
        · obtain ⟨qs, hqs, haccepts⟩ := htake
          obtain rfl := Option.some.inj (hpieces.symm.trans hqs)
          cases hsome f hf haccepts
        · exact htakes q hq f hf htake
      · obtain ⟨-, hnewline⟩ := List.forall_mem_cons.mp hnewline
        obtain ⟨q, hq, f, hf, htake⟩ := hchanged hnewline h
        exact ⟨q, List.mem_cons_of_mem _ hq, f, hf, htake⟩

end Bash

/-! ## Script and matcher -/

namespace Pattern

variable {pattern file regex : String} {patterns files : List String}

theorem exists_anyOf {α : Type} {p : α → Except Fault Bool} {xs : List α}
    (h : ∀ x ∈ xs, ∃ b, p x = .ok b) :
    ∃ b : Bool, anyOf p xs = .ok b ∧ (b ↔ ∃ x ∈ xs, p x = .ok true) := by
  induction xs with
  | nil => exact ⟨false, rfl, by simp⟩
  | cons x rest ih =>
    obtain ⟨⟨b, hb⟩, hrest⟩ := List.forall_mem_cons.mp h
    obtain ⟨c, hc, hiff⟩ := ih hrest
    rw [anyOf, hb]
    cases b with
    | true => exact ⟨true, rfl, by simp [hb]⟩
    | false => exact ⟨c, hc, by simp [hb, hiff]⟩

theorem exists_selects (h : ∃ regex, Pattern.regex pattern = .ok regex) :
    ∃ b : Bool, selects pattern file = .ok b ∧ (b ↔ Bash.Takes pattern file) := by
  obtain ⟨regex, hregex⟩ := h
  obtain ⟨ps, hps, -⟩ := regex_eq_ok.mp hregex
  refine ⟨accepts ps file.toList, ?_, ?_⟩
  · rw [selects, parse, hps]
    rfl
  · simp [Bash.Takes, hps]

theorem exists_selectsAny (h : ∀ p ∈ patterns, ∃ regex, Pattern.regex p = .ok regex) :
    ∃ b : Bool, selectsAny (patterns.map .str) files = .ok b ∧
      (b ↔ ∃ f ∈ files, ∃ p ∈ patterns, Bash.Takes p f) := by
  have hfile : ∀ f, ∃ b : Bool,
      anyOf (fun pattern : Value => do selects (← pattern.string) f) (patterns.map .str) = .ok b ∧
        (b ↔ ∃ p ∈ patterns, Bash.Takes p f) := by
    intro f
    have hselects : ∀ p ∈ patterns, ∃ b : Bool, selects p f = .ok b ∧ (b ↔ Bash.Takes p f) :=
      fun p hp => exists_selects (h p hp)
    have hvalues : ∀ v ∈ patterns.map Value.str, ∃ b, (do selects (← v.string) f) = .ok b :=
      List.forall_mem_map.mpr fun p hp => (hselects p hp).imp fun _ h => h.1
    obtain ⟨b, hb, hiff⟩ := exists_anyOf hvalues
    refine ⟨b, hb, hiff.trans ?_⟩
    simp only [List.mem_map, exists_exists_and_eq_and]
    refine exists_congr fun p => and_congr_right fun hp => ?_
    obtain ⟨c, hc, htakes⟩ := hselects p hp
    change selects p f = .ok true ↔ _
    rw [hc, ← htakes, Except.ok.injEq]
  obtain ⟨b, hb, hiff⟩ := exists_anyOf fun f (_ : f ∈ files) => (hfile f).imp fun _ h => h.1
  refine ⟨b, hb, hiff.trans (exists_congr fun f => and_congr_right fun _ => ?_)⟩
  obtain ⟨c, hc, htakes⟩ := hfile f
  rw [hc, ← htakes, Except.ok.injEq]

end Pattern

open Bash

/-- **Script and matcher agree**, unless a pattern holds a line feed. -/
theorem check_agrees {world : World} {id : String} {patterns files : List String}
    (hpatterns : ∀ p ∈ patterns, ∃ regex, Pattern.regex p = .ok regex)
    (hfiles : ∀ f ∈ files, f ≠ "" ∧ '\n' ∉ f.toList)
    (hgit : world.git (diffArguments world) = Text.unlines files) :
    ∃ fields script selected changed, Check.step id patterns = .ok fields ∧
      Fields.get? "run" fields = some (.str script) ∧
      Pattern.selectsAny (patterns.map .str) files = .ok selected ∧
      world.run script.toList = some (reported world changed) ∧
      (selected → changed) ∧ ((∀ p ∈ patterns, '\n' ∉ p.toList) → changed = selected) := by
  obtain ⟨regexes, changed, hregexes, hrun, htakes, hchanged⟩ :=
    inOrder_tests hpatterns hfiles hgit
  obtain ⟨selected, hselects, hselected⟩ := Pattern.exists_selectsAny hpatterns
  have hsound : selected → changed := by
    intro h
    obtain ⟨f, hf, p, hp, htake⟩ := hselected.mp h
    exact htakes p hp f hf htake
  have hstep : Check.step id patterns = .ok [("id", .str id),
      ("name", .str ("Check paths: " ++ ", ".intercalate patterns)),
      ("run", .str (Check.script regexes))] := by
    rw [Check.step, hregexes]
    rfl
  refine ⟨_, _, selected, changed, hstep, rfl, hselects, ?_, hsound, fun hnewline => ?_⟩
  · rw [run_script, hrun, Option.map_some]
  · rw [Bool.eq_iff_iff]
    refine ⟨fun h => hselected.mpr ?_, hsound⟩
    obtain ⟨p, hp, f, hf, htake⟩ := hchanged hnewline h
    exact ⟨f, hf, p, hp, htake⟩

namespace Bash

/-- Git prints some files, on a branch that leaves `main`. -/
def sampleWorld (files : List String) : World where
  value name := (if name = "GITHUB_OUTPUT".toList then "output" else "main").toList
  git _ := Text.unlines files

end Bash

theorem check_agrees_sample :
    Pattern.selectsAny (["src/*", "it's.md"].map .str) ["docs/a.md", "it's.md"] = .ok true ∧
    ∃ fields script, Check.step "paths" ["src/*", "it's.md"] = .ok fields ∧
      Fields.get? "run" fields = some (.str script) ∧
      (sampleWorld ["docs/a.md", "it's.md"]).run script.toList =
        some [("output".toList, "changed=true\n".toList)] := by
  have hselects :
      Pattern.selectsAny (["src/*", "it's.md"].map .str) ["docs/a.md", "it's.md"] = .ok true := by
    decide
  have hpatterns : ∀ p ∈ ["src/*", "it's.md"], ∃ regex, Pattern.regex p = .ok regex := by
    rw [List.forall_mem_cons, List.forall_mem_singleton]
    exact ⟨⟨_, rfl⟩, ⟨_, rfl⟩⟩
  have hgit : (sampleWorld ["docs/a.md", "it's.md"]).git
      (diffArguments (sampleWorld ["docs/a.md", "it's.md"])) =
      Text.unlines ["docs/a.md", "it's.md"] := rfl
  obtain ⟨fields, script, selected, changed, hstep, hscript, hselected, hrun, hsound, -⟩ :=
    check_agrees hpatterns (by decide) hgit
  obtain rfl : selected = true := Except.ok.inj (hselected.symm.trans hselects)
  obtain rfl := hsound rfl
  exact ⟨hselects, fields, script, hstep, hscript, hrun⟩

/-- **A line feed at the end of a pattern**, as a block of text leaves it. The matcher selects no
file, the script reports every file. -/
theorem check_disagrees : ∃ fields script, Check.step "paths" ["*.js\n"] = .ok fields ∧
    Fields.get? "run" fields = some (.str script) ∧
    Pattern.selectsAny (["*.js\n"].map .str) ["app.js"] = .ok false ∧
    (sampleWorld ["app.js"]).run script.toList =
      some [("output".toList, "changed=true\n".toList)] ∧
    Pattern.selectsAny (["*.js\n"].map .str) ["README.md"] = .ok false ∧
    (sampleWorld ["README.md"]).run script.toList =
      some [("output".toList, "changed=true\n".toList)] :=
  ⟨_, Check.script ["^[^/]*\\.js\n$"], rfl, rfl, by decide,
    run_script.trans (by decide), by decide, run_script.trans (by decide)⟩

end StepLoom
