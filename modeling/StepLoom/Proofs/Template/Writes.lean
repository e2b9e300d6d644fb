import StepLoom.Proofs.Local.Acts
import StepLoom.Proofs.Local.Tree
import StepLoom.Template.Compile

/-!
# What compiling writes

Reading a template changes nothing (`quiet_load`), so a template that does not compile changes no
file. The templates of a directory are compiled one after another, and each is written before the
next one is read.

**Theorem (`failed_compile`).** When compiling a directory fails, then it fails at one template.
Those before it are compiled and their workflows are there; no other file is new or changed.

So nothing is written if the first template fails, and something is if a later one does
(`failed_compile_writes`).
-/

namespace StepLoom

/-! ## Files of a tree -/

namespace Tree

variable {t t' t'' : Tree} {p : Path} {names : List String} {text : String}
  {S S' : List String → Prop}

/-- The text of the file under some names. -/
def file? (t : Tree) (names : List String) : Option String :=
  match t.entry? names with
  | some (.file text) => some text
  | _ => none

/-- Directories and files stay what they are, and the text of a file changes only where `S` says. -/
structure Grown (S : List String → Prop) (t t' : Tree) : Prop where
  keeps : Keeps t t'
  files : ∀ x, (t.file? x).isSome → (t'.file? x).isSome
  same : ∀ x, ¬ S x → t'.file? x = t.file? x

theorem Grown.refl : Grown S t t := ⟨fun _ h => h, fun _ h => h, fun _ _ => rfl⟩

theorem Grown.trans (h : Grown S t t') (h' : Grown S t' t'') : Grown S t t'' where
  keeps x hx := h'.keeps x (h.keeps x hx)
  files x hx := h'.files x (h.files x hx)
  same x hx := (h'.same x hx).trans (h.same x hx)

theorem Grown.mono (h : Grown S t t') (hS : ∀ x, S x → S' x) : Grown S' t t' :=
  ⟨h.keeps, h.files, fun x hx => h.same x fun hs => hx (hS x hs)⟩

/-- A directory that is made where nothing was. -/
theorem grown_set_directory (hnone : t.entry? names = none) :
    Grown S t ⟨set names .directory t.entries⟩ := by
  have hentry : ∀ x, Tree.entry? ⟨set names .directory t.entries⟩ x = t.entry? x ∨
      x = names ∧ Tree.entry? ⟨set names .directory t.entries⟩ x = some .directory := by
    intro x
    rw [entry?_set]
    by_cases hx : ¬ IsStart x ∧ x = names
    · exact Or.inr ⟨hx.2, if_pos hx⟩
    · exact Or.inl (if_neg hx)
  refine ⟨fun x hx => ?_, fun x hx => ?_, fun x _ => ?_⟩
  · rcases hentry x with h | ⟨-, h⟩
    · rw [h, hx]
    · exact h
  · rcases hentry x with h | ⟨rfl, -⟩
    · rwa [file?, h, ← file?]
    · simp [file?, hnone] at hx
  · rcases hentry x with h | ⟨rfl, h⟩
    · rw [file?, h, ← file?]
    · rw [file?, h, file?, hnone]

theorem makeDirectory_grown (h : t.makeDirectory p = .ok t') : Grown S t t' := by
  unfold makeDirectory at h
  cases hp : t.place p with
  | error d => simp [hp] at h
  | ok names =>
    simp only [hp] at h
    cases he : t.entry? names with
    | none =>
      simp only [he, Except.ok.injEq] at h
      subst h
      exact grown_set_directory he
    | some e =>
      cases e with
      | file text => simp [he] at h
      | directory =>
        simp only [he, Except.ok.injEq] at h
        subst h
        exact .refl

theorem makeDirectoriesTo_grown {origin : Origin} {rest : List String}
    (h : t.makeDirectoriesTo origin rest = .ok t') : Grown S t t' := by
  induction rest generalizing t' with
  | nil =>
    obtain rfl := Except.ok.inj h
    exact .refl
  | cons name rest ih =>
    rw [makeDirectoriesTo] at h
    split at h
    · cases hrest : t.makeDirectoriesTo origin rest with
      | error e => simp [hrest, bind, Except.bind] at h
      | ok t₁ =>
        rw [hrest] at h
        exact (ih hrest).trans (makeDirectory_grown h)
    · exact makeDirectory_grown h

/-- A file that is written stands where its path leads, and no other file changes. -/
theorem write_grown (h : t.write p text = .ok t') : ∃ names, t'.place p = .ok names ∧
    t'.file? names = some text ∧ Grown (· = names) t t' := by
  unfold write at h
  cases hp : t.place p with
  | error d => simp [hp] at h
  | ok names =>
    simp only [hp] at h
    have hdir : t.entry? names ≠ some .directory := by
      intro hdir
      simp [hdir] at h
    have hstart : ¬ IsStart names := fun hs => hdir (entry?_of_isStart hs)
    obtain rfl : (⟨set names (.file text) t.entries⟩ : Tree) = t' := by
      cases he : t.entry? names with
      | none => simpa [he] using h
      | some e =>
        cases e with
        | file text => simpa [he] using h
        | directory => exact absurd he hdir
    have hnew : Tree.file? ⟨set names (.file text) t.entries⟩ names = some text := by
      rw [file?, entry?_set, if_pos ⟨hstart, rfl⟩]
    have hold : ∀ x, x ≠ names →
        Tree.entry? ⟨set names (.file text) t.entries⟩ x = t.entry? x := by
      intro x hx
      rw [entry?_set, if_neg fun h => hx h.2]
    have hkeeps : Keeps t ⟨set names (.file text) t.entries⟩ := by
      intro x hx
      rw [hold x fun he => hdir (he ▸ hx), hx]
    refine ⟨names, follow_keeps hkeeps hp, hnew, hkeeps, fun x hx => ?_, fun x hx => ?_⟩
    · by_cases he : x = names
      · rw [he, hnew]
        rfl
      · rwa [file?, hold x he, ← file?]
    · rw [file?, hold x hx, ← file?]

end Tree

open StepLoom.Tree (Grown)

namespace Template

variable {file directory output p : Path} {root : Option Path} {w w' : Workspace} {e : Fault}
  {names done : List String} {name : String}

theorem quiet_readYaml (first : Nat) (file : Path) : Quiet (readYaml first file) :=
  (quiet_readFile file).bind fun _ => quiet_liftM _

theorem quiet_includedSetups (first : Nat) (template : Path) (other : Value) :
    Quiet (includedSetups first template other) := by
  refine (quiet_liftM _).bind fun name => (quiet_has _).bind fun found => ?_
  suffices hread : ∀ u : PUnit, Quiet (readYaml first (template.parent / name) >>= _) by
    cases found with
    | true => exact hread ⟨⟩
    | false => exact (quiet_throw _).bind hread
  refine fun _ => (quiet_readYaml first _).bind fun x => (quiet_liftM _).bind fun setups => ?_
  split
  · exact (quiet_liftM _).bind fun _ => quiet_pure _
  · exact quiet_pure _

theorem quiet_includeAll (template : Path) (others : List Value) (setups : Fields) (first : Nat) :
    Quiet (includeAll template others setups first) := by
  induction others generalizing setups first with
  | nil => exact quiet_pure _
  | cons other rest ih => exact (quiet_includedSetups first template other).bind fun _ => ih _ _

theorem quiet_resolveIncludes (template : Path) (first : Nat) (doc : Value) :
    Quiet (resolveIncludes template first doc) := by
  refine (quiet_liftM _).bind fun (includes, fields) => ?_
  dsimp only
  split
  · exact quiet_pure _
  · have hrest : ∀ (own : Fields) (given : Value), Quiet
      ((liftM given.members : Act _) >>= fun ms =>
        includeAll template ms own first >>= fun setups =>
          pure (doc.withFields (Fields.put "setup" (.record setups) fields)).1) :=
      fun own given => (quiet_liftM _).bind fun _ => (quiet_includeAll _ _ _ _).bind fun _ =>
        quiet_pure _
    split
    · exact (quiet_liftM _).bind fun own => hrest own _
    · exact (quiet_pure _).bind fun own => hrest own _

theorem quiet_load (file : Path) : Quiet (load file) := by
  have hcheck : ∀ doc, Quiet ((liftM (check file.text doc) : Act Unit) >>= fun _ => pure doc) :=
    fun doc => (quiet_liftM _).bind fun _ => quiet_pure doc
  have hread : Quiet (readYaml 0 file >>= fun x =>
      if x.1.isMap then resolveIncludes file x.2 x.1 >>= fun doc =>
        (liftM (check file.text doc) : Act Unit) >>= fun _ => pure doc
      else pure x.1 >>= fun doc => (liftM (check file.text doc) : Act Unit) >>= fun _ =>
        pure doc) := by
    refine (quiet_readYaml 0 file).bind fun x => ?_
    split
    · exact (quiet_resolveIncludes file x.2 x.1).bind hcheck
    · exact (quiet_pure x.1).bind hcheck
  refine (quiet_has file).bind fun found => ?_
  cases found with
  | true => exact hread
  | false => exact (quiet_throw _).bind fun _ => hread

/-! ## Writing one workflow -/

/-- Writing a file that fails changes no file. Otherwise the file stands where its path leads, and
no other file changes. -/
theorem writeFile_cases (p : Path) (text : String) (w : Workspace) :
    (∃ e w', exec (Act.writeFile p text) w = (.error e, w') ∧
      ∀ S, Grown S w.tree w'.tree) ∨
    ∃ w' names, exec (Act.writeFile p text) w = (.ok (), w') ∧ w'.tree.place p = .ok names ∧
      w'.tree.file? names = some text ∧ Grown (· = names) w.tree w'.tree := by
  unfold Act.writeFile Act.refuseNul
  by_cases hnul : Path.holdsNul p.text
  · rw [if_pos hnul, exec_bind, exec_throw]
    exact Or.inl ⟨_, w, rfl, fun S => .refl⟩
  · rw [if_neg hnul, exec_bind_ok (exec_pure ()), exec_bind_ok exec_get]
    cases hmake : w.tree.makeDirectories p.parent with
    | error e => exact Or.inl ⟨e, w, rfl, fun S => .refl⟩
    | ok t =>
      rw [exec_bind_ok (exec_liftM_ok t), exec_bind_ok (exec_modify _)]
      have hgrown : ∀ S, Grown S w.tree t := fun S => Tree.makeDirectoriesTo_grown hmake
      cases hwrite : t.write p text with
      | error e => exact Or.inl ⟨e, { w with tree := t }, rfl, hgrown⟩
      | ok t' =>
        rw [exec_bind_ok (exec_liftM_ok t'), exec_modify]
        obtain ⟨names, hplace, hfile, ht⟩ := Tree.write_grown hwrite
        exact Or.inr ⟨_, names, rfl, hplace, hfile, (hgrown _).trans ht⟩

/-- A template that fails changes no file. One that compiles has its workflow written, and no other
file changes. -/
theorem compileFile_cases (file output : Path) (root : Option Path) (w : Workspace) :
    (∃ e w', exec (compileFile file (some output) root) w = (.error e, w') ∧
      ∀ S, Grown S w.tree w'.tree) ∨
    ∃ text w' names, exec (compileFile file (some output) root) w = (.ok text, w') ∧
      w'.tree.place output = .ok names ∧ w'.tree.file? names = some text ∧
      Grown (· = names) w.tree w'.tree := by
  have hload := quiet_load file w
  unfold compileFile
  rw [exec_bind]
  rcases hex : exec (load file) w with ⟨e | doc, w₁⟩
  · rw [hex] at hload
    obtain rfl : w₁ = w := hload
    exact Or.inl ⟨e, w₁, rfl, fun S => .refl⟩
  · rw [hex] at hload
    obtain rfl : w₁ = w := hload
    dsimp only
    cases hdoc : Workflow.compile doc.copy with
    | error e => exact Or.inl ⟨e, w₁, rfl, fun S => .refl⟩
    | ok compiled =>
      rw [exec_bind_ok (exec_liftM_ok compiled)]
      cases htext : render compiled (sourceName file root) with
      | error e => exact Or.inl ⟨e, w₁, rfl, fun S => .refl⟩
      | ok text =>
        rw [exec_bind_ok (exec_liftM_ok text)]
        rcases writeFile_cases output text w₁ with ⟨e, w', hwrite, hgrown⟩ |
          ⟨w', names, hwrite, hplace, hfile, hgrown⟩
        · rw [exec_bind, hwrite]
          exact Or.inl ⟨e, w', rfl, hgrown⟩
        · rw [exec_bind_ok hwrite]
          exact Or.inr ⟨text, w', names, rfl, hplace, hfile, hgrown⟩

/-! ## Writing the workflows of a directory -/

/-- The names lead to the workflow of one of the templates. -/
def IsOutput (t : Tree) (output : Path) (templates : List String) (x : List String) : Prop :=
  ∃ n ∈ templates, t.place (output / n) = .ok x

theorem IsOutput.mono {t t' : Tree} {x : List String} (ht : Tree.Keeps t t')
    (hn : ∀ n ∈ names, n ∈ done) (h : IsOutput t output names x) : IsOutput t' output done x := by
  obtain ⟨n, hmem, hplace⟩ := h
  exact ⟨n, hn n hmem, Tree.follow_keeps ht hplace⟩

/-- Each of the templates has its workflow in the tree. -/
def Written (t : Tree) (output : Path) (templates : List String) : Prop :=
  ∀ n ∈ templates, ∃ x text, t.place (output / n) = .ok x ∧ t.file? x = some text

theorem Written.mono {S : List String → Prop} {t t' : Tree} (ht : Grown S t t')
    (h : Written t output names) : Written t' output names := by
  intro n hn
  obtain ⟨x, text, hplace, hfile⟩ := h n hn
  obtain ⟨text', hfile'⟩ := Option.isSome_iff_exists.mp (ht.files x (by rw [hfile]; rfl))
  exact ⟨x, text', Tree.follow_keeps ht.keeps hplace, hfile'⟩

/-- **The templates up to the first one that fails**: their workflows are written, and no other file
changes. -/
theorem compileEach_spec (directory output : Path) (root : Option Path) (names : List String)
    (w : Workspace) :
    ∃ done w₁ compiled, exec (compileEach directory output root done) w = (.ok compiled, w₁) ∧
      Written w₁.tree output done ∧ Grown (IsOutput w₁.tree output done) w.tree w₁.tree ∧
      (names = done ∨ ∃ (name : String) (rest : List String) (e : Fault) (w' : Workspace),
        names = done ++ name :: rest ∧
        exec (compileFile (directory / name) (some (output / name)) root) w₁ = (.error e, w') ∧
        exec (compileEach directory output root names) w = (.error e, w') ∧
        ∀ S, Grown S w₁.tree w'.tree) := by
  induction names generalizing w with
  | nil => exact ⟨[], w, [], rfl, by simp [Written], .refl, Or.inl rfl⟩
  | cons name rest ih =>
    rcases compileFile_cases (directory / name) (output / name) root w with
      ⟨e, w', hex, hgrown⟩ | ⟨text, w₀, x, hex, hplace, hfile, hgrown⟩
    · refine ⟨[], w, [], rfl, by simp [Written], .refl, Or.inr ⟨name, rest, e, w', rfl, hex, ?_,
        hgrown⟩⟩
      rw [compileEach, exec_bind, exec_discard, hex]
    · obtain ⟨done, w₁, compiled, hdone, hwritten, hrest, hcases⟩ := ih w₀
      have hfirst : exec (discard (compileFile (directory / name) (some (output / name)) root)) w =
          (.ok (), w₀) := by rw [exec_discard, hex]
      have hplace₁ := Tree.follow_keeps hrest.keeps hplace
      have hwritten' : Written w₁.tree output [name] := by
        refine Written.mono hrest fun n hn => ?_
        obtain rfl := List.mem_singleton.mp hn
        exact ⟨x, text, hplace, hfile⟩
      refine ⟨name :: done, w₁, ⟨directory / name, output / name⟩ :: compiled, ?_, ?_, ?_, ?_⟩
      · rw [compileEach, exec_bind_ok hfirst, exec_bind_ok hdone]
        rfl
      · exact List.forall_mem_cons.mpr ⟨hwritten' name (by simp), hwritten⟩
      · refine (hgrown.mono ?_).trans (hrest.mono ?_)
        · intro y hy
          subst hy
          exact ⟨name, by simp, hplace₁⟩
        · exact fun y hy => hy.mono (fun _ h => h) fun n hn => List.mem_cons_of_mem name hn
      · rcases hcases with rfl | ⟨bad, more, e, w', rfl, hbad, hall, hsame⟩
        · exact Or.inl rfl
        · refine Or.inr ⟨bad, more, e, w', rfl, hbad, ?_, hsame⟩
          rw [compileEach, exec_bind_ok hfirst, exec_bind, hall]

theorem exec_namesIn (directory : Path) (w : Workspace) :
    (exec (namesIn directory) w).2 = w := by
  unfold namesIn
  rw [exec_bind_ok exec_get]
  dsimp only
  split
  · rw [exec_bind, exec_throw]
  · rfl

/-- **A compile that fails** has the workflows of the templates before the one at fault written, and
has changed no other file. -/
theorem failed_compile (h : exec (compileAll directory output root) w = (.error e, w')) :
    exec (namesIn directory) w = (.error e, w') ∧ w' = w ∨
    ∃ (done : List String) (name : String) (rest : List String) (w₁ : Workspace)
      (compiled : List Compiled), exec (namesIn directory) w = (.ok (done ++ name :: rest), w) ∧
      exec (compileEach directory output root done) w = (.ok compiled, w₁) ∧
      exec (compileFile (directory / name) (some (output / name)) root) w₁ = (.error e, w') ∧
      (∀ n ∈ done, ∃ x text, w'.tree.place (output / n) = .ok x ∧ w'.tree.file? x = some text) ∧
      ∀ x, w'.tree.file? x ≠ w.tree.file? x → ∃ n ∈ done, w'.tree.place (output / n) = .ok x := by
  have hquiet := exec_namesIn directory w
  unfold compileAll at h
  rw [exec_bind] at h
  rcases hnames : exec (namesIn directory) w with ⟨e' | names, w₀⟩
  · rw [hnames] at h hquiet
    obtain ⟨he, rfl⟩ := Prod.mk.inj h
    obtain rfl := Except.error.inj he
    exact Or.inl ⟨rfl, hquiet⟩
  · rw [hnames] at h hquiet
    obtain rfl : w₀ = w := hquiet
    dsimp only at h
    obtain ⟨done, w₁, compiled, hdone, hwritten, hgrown, hcases⟩ :=
      compileEach_spec directory output root names w₀
    rcases hcases with rfl | ⟨name, rest, e', w₂, rfl, hbad, hall, hsame⟩
    · rw [hdone] at h
      cases (Prod.mk.inj h).1
    · rw [hall] at h
      obtain ⟨he, rfl⟩ := Prod.mk.inj h
      obtain rfl := Except.error.inj he
      refine Or.inr ⟨done, name, rest, w₁, compiled, rfl, hdone, hbad,
        hwritten.mono (hsame fun _ => False), fun x hx => ?_⟩
      by_contra hno
      apply hx
      have hall := hgrown.trans (hsame (IsOutput w₁.tree output done))
      refine hall.same x fun hout => hno ?_
      exact hout.mono (hsame fun _ => False).keeps fun _ hn => hn

/-- A directory with two templates, of which the second one names a setup that is not there. -/
def twoTemplates : Workspace where
  tree := Tree.putFiles {} [("in/a.yml", "jobs: {x: {steps: [run: make]}}\n"),
    ("in/b.yml", "jobs: {x: {setup: tools}}\n")]

theorem twoTemplates_fails :
    (exec (compileAll (Path.ofText "in") (Path.ofText "out") none) twoTemplates).1 =
      .error (.unknownSetup "tools") := by decide +kernel

theorem twoTemplates_written :
    (exec (compileAll (Path.ofText "in") (Path.ofText "out") none) twoTemplates).2.tree.file?
      ["out", "a.yml"] = some (String.join ["# AUTOGENERATED by actions-workflow-tools from a.yml",
        "\n\njobs:\n  x:\n    steps:\n    - run: make\n"]) := by decide +kernel

/-- The failed compile of the two templates, with the templates before the one at fault. -/
theorem failed_compile_sample : ∃ w',
    exec (compileAll (Path.ofText "in") (Path.ofText "out") none) twoTemplates =
      (.error (.unknownSetup "tools"), w') ∧
    (exec (namesIn (Path.ofText "in")) twoTemplates = (.error (.unknownSetup "tools"), w') ∧
        w' = twoTemplates ∨
      ∃ (done : List String) (name : String) (rest : List String) (w₁ : Workspace)
        (compiled : List Compiled),
        exec (namesIn (Path.ofText "in")) twoTemplates =
          (.ok (done ++ name :: rest), twoTemplates) ∧
        exec (compileEach (Path.ofText "in") (Path.ofText "out") none done) twoTemplates =
          (.ok compiled, w₁) ∧
        exec (compileFile (Path.ofText "in" / name) (some (Path.ofText "out" / name)) none) w₁ =
          (.error (.unknownSetup "tools"), w') ∧
        (∀ n ∈ done, ∃ x text, w'.tree.place (Path.ofText "out" / n) = .ok x ∧
          w'.tree.file? x = some text) ∧
        ∀ x, w'.tree.file? x ≠ twoTemplates.tree.file? x →
          ∃ n ∈ done, w'.tree.place (Path.ofText "out" / n) = .ok x) := by
  have hfails := twoTemplates_fails
  generalize hex : exec (compileAll (Path.ofText "in") (Path.ofText "out") none) twoTemplates = x
    at hfails
  obtain ⟨result, w'⟩ := x
  obtain rfl : result = .error (.unknownSetup "tools") := hfails
  exact ⟨w', rfl, failed_compile hex⟩

/-- A compile that fails with a file of the output directory created. -/
theorem failed_compile_writes :
    (exec (compileAll (Path.ofText "in") (Path.ofText "out") none) twoTemplates).1 =
      .error (.unknownSetup "tools") ∧
    twoTemplates.tree.file? ["out", "a.yml"] = none ∧
    ((exec (compileAll (Path.ofText "in") (Path.ofText "out") none) twoTemplates).2.tree.file?
      ["out", "a.yml"]).isSome := by
  refine ⟨twoTemplates_fails, ?_, ?_⟩
  · decide +kernel
  · rw [twoTemplates_written]
    rfl

end Template

end StepLoom
