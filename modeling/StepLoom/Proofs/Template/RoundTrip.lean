import StepLoom.Proofs.Needs
import StepLoom.Proofs.Template.Validation
import StepLoom.Proofs.Yaml.Reread

/-!
# Reading a compiled workflow back

**Theorem (`reread`).** The text of a compiled workflow is read back as what was compiled, value by
value and in the same order, if that is data that is kept.

What is not kept comes back as something else: the line end U+0085 in single quotes as a space
(`reread_nextLine`).
-/

namespace StepLoom

open Value

/-! ## The form of a compiled document -/

namespace Fields

/-- Whether there is a field depends on the keys alone. -/
theorem has_eq_any (key : Scalar) (fields : Fields) :
    has key fields = (fields.map Prod.fst).any key.sameKey := by
  induction fields with
  | nil => rfl
  | cons f rest ih =>
    obtain ⟨k, v⟩ := f
    rw [has, get?, List.map_cons, List.any_cons, ← ih]
    split_ifs with h
    · rw [h]
      rfl
    · rw [Bool.eq_false_of_not_eq_true h]
      rfl

theorem keys_copyFields (fields : Fields) :
    (copyFields fields).map Prod.fst = fields.map Prod.fst := by
  rw [copyFields_eq, List.map_map]
  rfl

theorem keys_plugFields (m : Nat) (whole : Value) (fields : Fields) :
    (plugFields m whole fields).map Prod.fst = fields.map Prod.fst := by
  induction fields with
  | nil => rfl
  | cons f rest ih =>
    obtain ⟨k, v⟩ := f
    rw [plugFields, List.map_cons, List.map_cons, ih]

theorem put_ne_nil (key : Scalar) (v : Value) (fields : Fields) : put key v fields ≠ [] := by
  cases fields with
  | nil => exact List.cons_ne_nil _ _
  | cons f rest =>
    obtain ⟨k, w⟩ := f
    rw [put]
    split_ifs <;> exact List.cons_ne_nil _ _

/-- What is taken out is not another field. -/
theorem erase_ne_nil {a b : String} (hab : a ≠ b) {fields : Fields} (h : has (.str b) fields) :
    erase (.str a) fields ≠ [] := by
  intro hnil
  rw [has, ← get?_erase_ne hab.symm, hnil] at h
  cases h

end Fields

/-- A mapping with the field. -/
def Value.HasField (key : Scalar) (v : Value) : Prop :=
  ∃ mark fields, v = .map mark fields ∧ Fields.has key fields

theorem Value.HasField.copy {key : Scalar} {v : Value} (h : v.HasField key) :
    v.copy.HasField key := by
  obtain ⟨mark, fields, rfl, h⟩ := h
  refine ⟨mark, copyFields fields, rfl, ?_⟩
  rwa [Fields.has_eq_any, Fields.keys_copyFields, ← Fields.has_eq_any]

/-- Written out once more, a mapping has the same keys. -/
theorem Value.HasField.unroll {key : Scalar} {v : Value} (h : v.HasField key) :
    v.unroll.HasField key := by
  obtain ⟨mark, fields, rfl, h⟩ := h
  cases mark with
  | none => exact ⟨none, fields, rfl, h⟩
  | some m =>
    refine ⟨some m, plugFields m (.map (some m) fields) fields, rfl, ?_⟩
    rwa [Fields.has_eq_any, Fields.keys_plugFields, ← Fields.has_eq_any]

theorem Value.hasField_of_fields {key : Scalar} {v : Value} {fields : Fields}
    (h : v.fields? = some fields) (hhas : Fields.has key fields) : v.HasField key := by
  cases v with
  | map mark inner =>
    refine ⟨mark, inner, rfl, ?_⟩
    cases mark with
    | none =>
      obtain rfl := Option.some.inj h
      exact hhas
    | some m =>
      obtain rfl := Option.some.inj h
      rwa [Fields.has_eq_any, Fields.keys_plugFields, ← Fields.has_eq_any] at hhas
  | _ => cases h

/-- A document with jobs is compiled to a mapping, which is not empty. -/
theorem Workflow.fields_of_compile {doc v : Value} (hjobs : doc.HasField "jobs")
    (h : Workflow.compile doc = .ok v) :
    ∃ fields, fields ≠ [] ∧ v = .record fields := by
  obtain ⟨mark, fields, hunroll, hhas⟩ := hjobs.unroll
  have htake : doc.take "setup" =
      .ok (Fields.get? "setup" fields, Fields.erase "setup" fields) := by
    rw [Value.take, hunroll]
  have hne : Fields.erase "setup" fields ≠ [] := Fields.erase_ne_nil (by decide) hhas
  have hensures : Ensures (Workflow.compileIn doc) {}
      (fun v _ => ∃ fields, fields ≠ [] ∧ v = .record fields) fun _ => True := by
    rw [Workflow.compileIn, htake]
    refine ensures_bind_exec (exec_liftM_ok _) ?_
    dsimp only
    split
    · exact ensures_pure ⟨_, hne, rfl⟩
    · refine (ensures_true _ _).bind fun jobs r _ => ?_
      refine (ensures_true _ _).bind fun out r _ => ?_
      exact ensures_pure ⟨_, Fields.put_ne_nil _ _ _, rfl⟩
  rcases hexec : exec (Workflow.compileIn doc) {} with ⟨e | u, r⟩
  · rw [Workflow.compile] at h
    change (exec (Workflow.compileIn doc) {}).1 = _ at h
    rw [hexec] at h
    cases h
  · change (exec (Workflow.compileIn doc) {}).1 = _ at h
    rw [hexec] at h
    obtain rfl := Except.ok.inj h
    exact hensures.of_ok hexec

namespace Template

/-- What passes the check has jobs. -/
theorem hasJobs_of_check {file : String} {doc : Value} (h : check file doc = .ok ()) :
    doc.HasField "jobs" := by
  rw [check] at h
  cases hdoc : doc.fields? with
  | none =>
    rw [hdoc] at h
    cases h
  | some fields =>
    rw [hdoc] at h
    cases hjobs : Fields.get? "jobs" fields with
    | none =>
      dsimp only at h
      rw [hjobs] at h
      cases h
    | some jobs => exact hasField_of_fields hdoc (by rw [Fields.has, hjobs]; rfl)

/-- The text stands on one line of a comment. -/
def isOneLine (s : String) : Bool :=
  s.toList.all fun c => Yaml.isReadable c && !Yaml.isBreak c && c != '\r'

theorem isOneLine_iff {s : String} : isOneLine s = true ↔
    ∀ c ∈ s.toList, Yaml.isReadable c ∧ Yaml.isBreak c = false ∧ c ≠ '\r' := by
  simp only [isOneLine, List.all_eq_true, Bool.and_eq_true, Bool.not_eq_true', bne_iff_ne,
    and_assoc]

/-- The words of the comment, behind its sign. -/
def headerWords : List Char := " AUTOGENERATED by actions-workflow-tools from ".toList

theorem toList_append_three {a b c : String} {cs ds : List Char} (ha : a.toList = cs)
    (hc : c.toList = ds) : (a ++ b ++ c).toList = cs ++ b.toList ++ ds := by
  rw [String.toList_append, String.toList_append, ha, hc]

theorem toList_header (source : String) :
    (header source).toList = '#' :: (headerWords ++ source.toList) ++ ['\n', '\n'] :=
  have hwords : "# AUTOGENERATED by actions-workflow-tools from ".toList = '#' :: headerWords := by
    decide
  toList_append_three hwords (by decide)

theorem isHeader_header {source : String} (h : isOneLine source) :
    Yaml.IsHeader (header source).toList := by
  refine ⟨headerWords ++ source.toList, toList_header source, fun c hc => ?_⟩
  obtain hc | hc := List.mem_append.mp hc
  · have hwords : ∀ c ∈ headerWords, Yaml.isBreak c = false := by
      simpa using List.any_eq_false.mp (show headerWords.any Yaml.isBreak = false by decide)
    exact hwords c hc
  · exact (isOneLine_iff.mp h c hc).2.1

theorem isReadable_header {source : String} (h : isOneLine source) :
    (header source).toList.all Yaml.isReadable := by
  have hwords : ∀ c ∈ headerWords, Yaml.isReadable c = true := List.all_eq_true.mp (by decide)
  rw [toList_header, List.all_eq_true, List.forall_mem_append, List.forall_mem_cons,
    List.forall_mem_append]
  exact ⟨⟨rfl, hwords, fun c hc => (isOneLine_iff.mp h c hc).1⟩, List.all_eq_true.mp rfl⟩

/-! ## Reading back -/

/-- The compiled document of a template. -/
def compiledOf (path : Path) (w : Workspace) : Except Fault Value :=
  (exec (load path) w).1 >>= fun doc => Workflow.compile doc.copy

/-- **A compiled workflow is read back as what was compiled**, if that is data that is kept and is
not nested some hundred levels deep, and if the name of the template stands on one line. -/
theorem reread {file : Path} {output root : Option Path} {w w' : Workspace} {text : String}
    (h : exec (compileFile file output root) w = (.ok text, w'))
    (hsource : isOneLine (sourceName file root)) :
    ∃ v, compiledOf file w = .ok v ∧
      (v.isData → Yaml.isKept v → 2 * v.depth < Yaml.lineWidth →
        Yaml.read .workflow text = .ok v.unshare) := by
  rw [compileFile, exec_bind] at h
  rcases hload : exec (load file) w with ⟨e | doc, w₁⟩
  · rw [hload] at h
    cases h
  · rw [hload] at h
    dsimp only at h
    cases hcompile : Workflow.compile doc.copy with
    | error e =>
      rw [hcompile] at h
      cases h
    | ok v =>
      have hcompiled : compiledOf file w = .ok v := by
        rw [compiledOf, hload]
        exact hcompile
      refine ⟨v, hcompiled, fun hdata hkept hdepth => ?_⟩
      obtain ⟨fields, hne, rfl⟩ :=
        Workflow.fields_of_compile (hasJobs_of_check (check_of_load hload)).copy hcompile
      rw [hcompile, exec_bind_ok (exec_liftM_ok _), render] at h
      cases hwrite : Yaml.write (.record fields) with
      | error e =>
        rw [hwrite] at h
        cases h
      | ok body =>
        rw [hwrite] at h
        have htext : text = header (sourceName file root) ++ body := by
          obtain _ | output := output
          · cases h
            rfl
          · have hlift : exec (liftM (Except.ok body >>= fun body =>
                  pure (header (sourceName file root) ++ body) : Except Fault String) :
                  Act String) w₁ = (.ok (header (sourceName file root) ++ body), w₁) := rfl
            rw [exec_bind_ok hlift, exec_bind] at h
            rcases hfile : exec (Act.writeFile output (header (sourceName file root) ++ body)) w₁
              with ⟨e | u, w₂⟩
            · rw [hfile] at h
              cases h
            · rw [hfile] at h
              cases h
              rfl
        rw [htext]
        exact Yaml.read_write hne hwrite hdata hkept hdepth (isHeader_header hsource)
          (isReadable_header hsource)

/-- A template with texts that look like other things, a script and numbers. -/
def lookalikes : Workspace where
  tree := Tree.putFiles {} [("ci.yml", String.join ["name: 'on: # 3'\n", "on: push\n", "env:\n",
    "  A: 'yes'\n", "  B: '2024-01-01'\n", "  C: '0x1F'\n", "  D: 1.5e+300\n", "  E: -12\n",
    "  F: ' '\n", "jobs:\n", "  a:\n", "    steps:\n",
    "    - run: \"echo a\\n\\n  b\\n\"\n"])]

/-- Whether a template is compiled to data that can be written, is kept and is not nested deep. -/
def compilesToKept (path : Path) (w : Workspace) : Bool :=
  match compiledOf path w with
  | .ok v => decide ((Yaml.obstacle? v).isNone ∧ v.isData ∧ Yaml.isKept v ∧
      2 * v.depth < Yaml.lineWidth)
  | .error _ => false

/-- What is compiled and can be written is written. -/
theorem exec_compileFile_of_compiledOf {file : Path} {w : Workspace} {v : Value}
    (root : Option Path) (h : compiledOf file w = .ok v) (hwrite : (Yaml.obstacle? v).isNone) :
    ∃ text w', exec (compileFile file none root) w = (.ok text, w') := by
  rw [compiledOf] at h
  rcases hload : exec (load file) w with ⟨e | doc, w'⟩
  · rw [hload] at h
    cases h
  · rw [hload] at h
    have hcompile : Workflow.compile doc.copy = .ok v := h
    have hbody : Yaml.write v = .ok (Yaml.written v) := by
      rw [Yaml.write, Option.isNone_iff_eq_none.mp hwrite]
    refine ⟨header (sourceName file root) ++ Yaml.written v, w', ?_⟩
    rw [compileFile, exec_bind_ok hload, hcompile, exec_bind_ok (exec_liftM_ok _), render, hbody]
    rfl

theorem reread_lookalikes : ∃ text w' v,
    exec (compileFile (Path.ofText "ci.yml") none none) lookalikes = (.ok text, w') ∧
    isOneLine (sourceName (Path.ofText "ci.yml") none) ∧
    compiledOf (Path.ofText "ci.yml") lookalikes = .ok v ∧ v.isData ∧ Yaml.isKept v ∧
    2 * v.depth < Yaml.lineWidth ∧ Yaml.read .workflow text = .ok v.unshare := by
  have hkept : compilesToKept (Path.ofText "ci.yml") lookalikes = true := by decide +kernel
  have hsource : isOneLine (sourceName (Path.ofText "ci.yml") none) := by decide +kernel
  rw [compilesToKept] at hkept
  cases hcompiled : compiledOf (Path.ofText "ci.yml") lookalikes with
  | error e =>
    rw [hcompiled] at hkept
    cases hkept
  | ok v =>
    rw [hcompiled] at hkept
    obtain ⟨hwrite, hdata, hkept, hdepth⟩ := of_decide_eq_true hkept
    obtain ⟨text, w', hexec⟩ := exec_compileFile_of_compiledOf none hcompiled hwrite
    obtain ⟨u, hu, hread⟩ := reread hexec hsource
    obtain rfl := Except.ok.inj (hu.symm.trans hcompiled)
    exact ⟨text, w', u, hexec, hsource, rfl, hdata, hkept, hdepth, hread hdata hkept hdepth⟩

/-- A template with a text that holds the line end U+0085, given by an escape. -/
def nextLine : Workspace where
  tree := Tree.putFiles {} [("ci.yml", "jobs: \x7b\x7d\nname: \"a\\Nb\"\n")]

/-- What the compiled text of a template is read back as. -/
def rereadOf (path : Path) (w : Workspace) : Except Fault Value :=
  (exec (compileFile path none none) w).1 >>= Yaml.read .workflow

/-- The text of a field. -/
def wordIn (key : Scalar) (v : Except Fault Value) : Option String :=
  v.toOption.bind fun v => (v.part key).bind Value.string?

/-- The line end U+0085 is written as it is, and read back as a space. -/
theorem reread_nextLine :
    wordIn "name" (compiledOf (Path.ofText "ci.yml") nextLine) = some "a\u0085b" ∧
    wordIn "name" (rereadOf (Path.ofText "ci.yml") nextLine) = some "a b" := by
  constructor
  · decide +kernel
  · decide +kernel

end Template

end StepLoom
