import StepLoom.Local.Step
import StepLoom.Proofs.Fields
import StepLoom.Proofs.Local.Acts
import Mathlib.Data.List.Forall2

/-!
# What running a step does

A step that is due starts one process, and that is the last thing it starts: before that it may call
git to fetch an action. The process takes the next of the endings to come. A step that is not due
starts nothing. No step changes the environment, so whether a step is due does not depend on the
steps before it.

**Theorem (`Step.run_cases`).** A step raises a fault, or it is skipped, or it is due and executed.
-/

namespace StepLoom

/-! ## Executions -/

/-- A step that was executed, and how its process ended. -/
structure Execution where
  step : Value
  ending : Ending

def Call.isProcess : Call → Bool
  | .process .. => true
  | .git .. => false

namespace Step

/-- The command that a step runs: the one that it names, or the script of an action. -/
def Performs (step : Value) (command : Command) : Prop :=
  match Value.given? (step.part "run") with
  | some v => Command.ofValue v = .ok command
  | none => ∃ script, command = .program ["node", script]

/-! ### When a step is due -/

/-- Nothing in the fields of a step holds it back, and there is work to do. -/
structure Due (env : Environment) (changed : List String) (fields : Fields) : Prop where
  /-- It does not opt out of local runs. -/
  takesPart : Fields.get? "local" fields ≠ some (.bool false)
  /-- If it has patterns, they select a changed file. -/
  affected : ∀ v, Value.given? (Fields.get? "paths" fields) = some v →
    ∃ patterns, Value.oneOrMany (some v) = .ok patterns ∧
      Pattern.selectsAny patterns changed = .ok true
  /-- If it names a variable, that is set and not empty. -/
  flagged : ∀ v, Value.given? (Fields.get? "local_env_flag" fields) = some v →
    ∃ name value, v = .str name ∧ env.get? name = some value ∧ value ≠ ""
  /-- It runs a command or uses an action. -/
  work : (∃ v, Value.given? (Fields.get? "run" fields) = some v) ∨
    ∃ v, Value.given? (Fields.get? "uses" fields) = some v

/-- A step is due if it is a mapping whose fields do not hold it back. -/
def IsDue (env : Environment) (changed : List String) (step : Value) : Prop :=
  ∃ fields, step.fields? = some fields ∧ Due env changed fields

section Due

variable {env : Environment} {changed : List String} {fields : Fields}

theorem optsOut_eq_false :
    optsOut fields = false ↔ Fields.get? "local" fields ≠ some (.bool false) := by
  unfold optsOut
  split
  · next h => simpa using h
  · next h => simpa using h

theorem isAffected_eq_true : isAffected changed fields = .ok true ↔
    ∀ v, Value.given? (Fields.get? "paths" fields) = some v →
      ∃ patterns, Value.oneOrMany (some v) = .ok patterns ∧
        Pattern.selectsAny patterns changed = .ok true := by
  unfold isAffected
  cases Value.given? (Fields.get? "paths" fields) with
  | none => simp
  | some v => cases h : Value.oneOrMany (some v) <;> simp [h, bind, Except.bind]

theorem missingFlag?_eq_none : missingFlag? env fields = .ok none ↔
    ∀ v, Value.given? (Fields.get? "local_env_flag" fields) = some v →
      ∃ name value, v = .str name ∧ env.get? name = some value ∧ value ≠ "" := by
  unfold missingFlag?
  cases Value.given? (Fields.get? "local_env_flag" fields) with
  | none => simp
  | some v =>
    simp only [Option.some.injEq, forall_eq']
    constructor
    · intro h
      cases hname : v.string with
      | error e => simp [hname, bind, Except.bind] at h
      | ok name =>
        cases hvalue : env.get? name with
        | none => simp [hname, hvalue, bind, Except.bind, pure, Except.pure] at h
        | some value =>
          refine ⟨name, value, Value.eq_str_of_string hname, hvalue, ?_⟩
          rintro rfl
          simp [hname, hvalue, bind, Except.bind, pure, Except.pure] at h
    · rintro ⟨name, value, rfl, hvalue, hne⟩
      have hempty : value.isEmpty = false := by simpa using hne
      simp [Value.string, hvalue, hempty, bind, Except.bind, pure, Except.pure]

theorem hasWork_iff : hasWork fields ↔
    (∃ v, Value.given? (Fields.get? "run" fields) = some v) ∨
      ∃ v, Value.given? (Fields.get? "uses" fields) = some v := by
  rw [hasWork, Bool.or_eq_true, Option.isSome_iff_exists, Option.isSome_iff_exists]

theorem decision_eq_run_iff : decision env changed fields = .ok .run ↔
    optsOut fields = false ∧ isAffected changed fields = .ok true ∧
      missingFlag? env fields = .ok none ∧ hasWork fields := by
  unfold decision
  cases optsOut fields with
  | true => simp [pure, Except.pure]
  | false =>
    rcases isAffected changed fields with e | affected
    · simp [bind, Except.bind]
    · cases affected with
      | false => simp [bind, Except.bind, pure, Except.pure]
      | true =>
        rcases missingFlag? env fields with e | flag
        · simp [bind, Except.bind]
        · cases flag <;> cases hasWork fields <;> simp [bind, Except.bind, pure, Except.pure]

/-- A step is run if it is due. -/
theorem decision_eq_run : decision env changed fields = .ok .run ↔ Due env changed fields := by
  rw [decision_eq_run_iff, optsOut_eq_false, isAffected_eq_true, missingFlag?_eq_none, hasWork_iff]
  exact ⟨fun ⟨h₁, h₂, h₃, h₄⟩ => ⟨h₁, h₂, h₃, h₄⟩, fun ⟨h₁, h₂, h₃, h₄⟩ => ⟨h₁, h₂, h₃, h₄⟩⟩

theorem isDue_iff {step : Value} :
    IsDue env changed step ↔ (step.fieldsOf >>= decision env changed) = .ok .run := by
  rw [IsDue, Value.fieldsOf]
  cases step.fields? with
  | none => simp [bind, Except.bind]
  | some fields => simp [bind, Except.bind, decision_eq_run]

instance : DecidablePred (IsDue env changed) := fun _ => decidable_of_iff _ isDue_iff.symm

end Due

end Step

/-- The executions from one workspace to another: each of them started a process and took the next
ending to come. Apart from that only git was called, and something was printed. -/
structure Ran (w : Workspace) (log : List Execution) (w' : Workspace) : Prop where
  env : w'.env = w.env
  git : w'.git = w.git
  taken : ∀ i x, log[i]? = some x → x.ending = w.endings.getD i {}
  left : w'.endings = w.endings.drop log.length
  calls : ∃ more, w'.calls = w.calls ++ more ∧
    List.Forall₂ (fun x c => ∃ command cwd env, c = Call.process command cwd env ∧
      Step.Performs x.step command) log (more.filter Call.isProcess)
  stdout : ∃ out, w'.stdout = w.stdout ++ out

namespace Ran

variable {w w₁ w₂ w' : Workspace} {log more : List Execution}

theorem refl (w : Workspace) : Ran w [] w where
  env := rfl
  git := rfl
  taken i x h := by simp at h
  left := rfl
  calls := ⟨[], by simp, .nil⟩
  stdout := ⟨"", String.append_empty.symm⟩

theorem trans (h : Ran w log w₁) (h' : Ran w₁ more w₂) : Ran w (log ++ more) w₂ where
  env := h'.env.trans h.env
  git := h'.git.trans h.git
  taken i x hx := by
    rw [List.getElem?_append] at hx
    split_ifs at hx with hi
    · exact h.taken i x hx
    · rw [h'.taken _ x hx, h.left, List.getD_eq_getElem?_getD, List.getD_eq_getElem?_getD,
        List.getElem?_drop]
      congr 3
      omega
  left := by rw [h'.left, h.left, List.drop_drop, List.length_append]
  calls := by
    obtain ⟨calls, hcalls, hlog⟩ := h.calls
    obtain ⟨calls', hcalls', hmore⟩ := h'.calls
    refine ⟨calls ++ calls', by rw [hcalls', hcalls, List.append_assoc], ?_⟩
    rw [List.filter_append]
    exact List.rel_append hlog hmore
  stdout := by
    obtain ⟨out, hout⟩ := h.stdout
    obtain ⟨out', hout'⟩ := h'.stdout
    exact ⟨out ++ out', by rw [hout', hout, String.append_assoc]⟩

end Ran

/-! ## Work that starts no process -/

section Idle

variable {α β : Type} {x : Act α} {f : α → Act β}

/-- Whatever comes of it, the work starts no process. -/
def Idle (x : Act α) : Prop := ∀ w, Ran w [] (exec x w).2

theorem Quiet.idle (h : Quiet x) : Idle x := fun w => by
  rw [h w]
  exact .refl w

theorem idle_pure (a : α) : Idle (pure a) := (quiet_pure a).idle

theorem idle_throw (e : Fault) : Idle (throw e : Act α) := (quiet_throw e).idle

theorem idle_liftM (x : Except Fault α) : Idle (liftM x) := (quiet_liftM x).idle

theorem Idle.bind (hx : Idle x) (hf : ∀ a, Idle (f a)) : Idle (x >>= f) := by
  intro w
  have hw := hx w
  rw [exec_bind]
  rcases hexec : exec x w with ⟨e | a, w₁⟩
  · rwa [hexec] at hw
  · rw [hexec] at hw
    exact hw.trans (hf a w₁)

theorem Idle.discard (h : Idle x) : Idle (discard x) := by
  intro w
  have hw := h w
  rw [exec_discard]
  rcases hexec : exec x w with ⟨e | a, w₁⟩
  · rwa [hexec] at hw
  · rwa [hexec] at hw

theorem idle_print (line : String) : Idle (Act.print line) := fun w =>
  { Ran.refl w with stdout := ⟨_, rfl⟩ }

theorem idle_git (args : List String) (cwd : Option String) : Idle (Act.git args cwd) := by
  intro w
  have hcall : Ran w [] { w with calls := w.calls ++ [.git args cwd] } :=
    { Ran.refl w with calls := ⟨[.git args cwd], rfl, .nil⟩ }
  rw [Act.git, exec_bind_ok (exec_modify _), exec_bind_ok exec_get]
  dsimp only
  split
  · exact hcall
  · next a _ =>
    split_ifs
    · exact { hcall with }
    · exact hcall

namespace Action

theorem idle_ensure (uses : String) (cacheRoot : Path) : Idle (ensure uses cacheRoot) := by
  have hclone : ∀ repository target ref, Idle (Git.clone repository target ref) :=
    fun _ _ _ => (idle_git _ _).discard
  refine (quiet_has _).idle.bind fun found => ?_
  cases found with
  | true => exact idle_pure _
  | false =>
    exact (idle_print _).bind fun _ => (hclone _ _ _).bind fun _ => (idle_print _).bind fun _ =>
      idle_pure _

theorem idle_resolve (p : Path) : Idle (Act.resolve p) :=
  (quiet_refuseNul _).idle.bind fun _ => idle_pure _

theorem idle_locate (uses : String) (root : Path) (step : Fields) :
    Idle (locate uses root step) := by
  rw [locate]
  split_ifs
  · exact idle_resolve _
  · split
    · exact (idle_liftM _).bind fun _ => (idle_resolve _).bind fun _ => idle_ensure _ _
    · exact idle_ensure _ _

theorem idle_load (directory : Path) (uses : String) : Idle (load directory uses) := by
  have hpresent : ∀ names, Idle (firstPresent directory names) := by
    intro names
    induction names with
    | nil => exact idle_pure _
    | cons name rest ih =>
      refine (quiet_has _).idle.bind fun found => ?_
      cases found with
      | true => exact idle_pure _
      | false => exact ih
  refine (hpresent _).bind fun file => ?_
  cases file with
  | none => exact idle_throw _
  | some file =>
    exact (quiet_readFile file).idle.bind fun _ => (idle_liftM _).bind fun _ => idle_pure _

end Action

end Idle

/-! ## Work that ends with a command -/

section Ending

variable {α : Type} {P : Command → Prop} {w : Workspace} {command : Command} {cwd : Path}
  {extra : Environment}

/-- The work fails, or it runs a command at its end. -/
def EndsInCommand (P : Command → Prop) (x : Act Findings) : Prop :=
  ∀ w, (∃ e w', exec x w = (.error e, w')) ∨ ∃ command cwd extra w₁, P command ∧ Ran w [] w₁ ∧
    exec x w = exec (Shell.run command cwd extra) w₁

theorem endsInCommand_run (h : P command) : EndsInCommand P (Shell.run command cwd extra) :=
  fun w => Or.inr ⟨command, cwd, extra, w, h, .refl w, rfl⟩

theorem endsInCommand_throw (e : Fault) : EndsInCommand P (throw e) := fun w => Or.inl ⟨e, w, rfl⟩

theorem Idle.ends_bind {x : Act α} {f : α → Act Findings} (hx : Idle x)
    (hf : ∀ a, EndsInCommand P (f a)) : EndsInCommand P (x >>= f) := by
  intro w
  have hw := hx w
  rw [exec_bind]
  rcases hexec : exec x w with ⟨e | a, w₁⟩
  · exact Or.inl ⟨e, w₁, rfl⟩
  · rw [hexec] at hw
    refine (hf a w₁).imp_right ?_
    rintro ⟨command, cwd, extra, w₂, hcommand, hran, hrun⟩
    exact ⟨command, cwd, extra, w₂, hcommand, hw.trans hran, hrun⟩

theorem endsInCommand_liftM_bind {x : Except Fault α} {f : α → Act Findings}
    (hf : ∀ a, x = .ok a → EndsInCommand P (f a)) : EndsInCommand P (liftM x >>= f) := by
  cases x with
  | error e => exact endsInCommand_throw e
  | ok a => exact hf a rfl

theorem exec_showLines (lines : List String) (w : Workspace) :
    ∃ out, exec (Shell.showLines lines) w = (.ok (), { w with stdout := w.stdout ++ out }) := by
  induction lines generalizing w with
  | nil => exact ⟨"", by rw [String.append_empty]; rfl⟩
  | cons line rest ih =>
    rw [Shell.showLines, exec_bind_ok (Act.exec_print _)]
    obtain ⟨out, hout⟩ := ih { w with stdout := _ }
    refine ⟨Text.Terminal.dropEscapes ("|  " ++ line ++ "\n") ++ out, ?_⟩
    rw [hout]
    simp only [String.append_assoc]

/-- **A command** is one process, which takes the next of the endings. -/
theorem exec_run (command : Command) (cwd : Path) (extra : Environment) (w : Workspace) :
    ∃ out, exec (Shell.run command cwd extra) w = (.ok (Shell.findings (w.endings.headD {})),
      { w with
        calls := w.calls ++ [.process command cwd.text (Shell.childEnvironment w.env extra)]
        endings := w.endings.tail
        stdout := w.stdout ++ out }) := by
  rw [Shell.run, exec_bind_ok (Act.exec_print _), exec_bind_ok exec_get,
    exec_bind_ok (Act.exec_start _ _ _)]
  dsimp only
  obtain ⟨shown, hshown⟩ := exec_showLines
    (Shell.outputLines (w.endings.headD {}).output)
    { w with
      calls := w.calls ++ [.process command cwd.text (Shell.childEnvironment w.env extra)]
      endings := w.endings.tail
      stdout := w.stdout ++ Text.Terminal.dropEscapes ("$ " ++ command.text ++ "\n") }
  rw [exec_bind_ok hshown]
  split_ifs
  · rw [exec_bind_ok (Act.exec_print _)]
    exact ⟨_, by simp only [String.append_assoc]; rfl⟩
  · exact ⟨_, by simp only [String.append_assoc]; rfl⟩

end Ending

namespace Step

variable {w : Workspace} {step : Value}

/-- A command leaves the workspace with one execution more. -/
theorem ran_run {command : Command} {cwd : Path} {extra : Environment} {found : Findings}
    {w' : Workspace} (hstep : Performs step command)
    (h : exec (Shell.run command cwd extra) w = (.ok found, w')) :
    found = Shell.findings (w.endings.headD {}) ∧ Ran w [⟨step, w.endings.headD {}⟩] w' := by
  obtain ⟨out, hrun⟩ := exec_run command cwd extra w
  obtain ⟨hfound, rfl⟩ := Prod.mk.inj (hrun.symm.trans h)
  refine ⟨(Except.ok.inj hfound).symm, rfl, rfl, fun i x hx => ?_, ?_, ?_, ⟨out, rfl⟩⟩
  · cases i with
    | zero =>
      obtain rfl := Option.some.inj hx
      exact List.headD_eq_getD ..
    | succ i => cases hx
  · exact List.drop_one.symm
  · exact ⟨_, rfl, .cons ⟨_, _, _, rfl, hstep⟩ .nil⟩

/-- The script of an action. -/
theorem endsInCommand_action (step : Value) (root : Path) :
    EndsInCommand (fun command => ∃ script, command = .program ["node", script])
      (Action.run step root) := by
  rw [Action.run]
  refine (idle_liftM _).ends_bind fun uses => (idle_liftM _).ends_bind fun fields => ?_
  have hgo : EndsInCommand (fun command => ∃ script, command = .program ["node", script]) (do
      let directory ← Action.locate uses root fields
      let description ← Action.load directory uses
      let runs ← liftM (do Value.fieldsOrNone (← description.field? "runs"))
      let main ← liftM (Action.mainOf uses runs)
      let extra ← liftM (do Action.inputs (← Value.fieldsOrNone (Fields.get? "with" fields)))
      let script := directory / (← liftM main.string)
      Shell.run (.program ["node", script.text]) root (Environment.putAll [] extra)) := by
    refine (Action.idle_locate _ _ _).ends_bind fun directory => ?_
    refine (Action.idle_load _ _).ends_bind fun description => ?_
    refine (idle_liftM _).ends_bind fun runs => (idle_liftM _).ends_bind fun main => ?_
    refine (idle_liftM _).ends_bind fun extra => ?_
    exact (idle_liftM _).ends_bind fun script => endsInCommand_run ⟨_, rfl⟩
  split_ifs
  · exact endsInCommand_throw _
  · exact hgo

theorem idle_directory (root : Path) (fields : Fields) : Idle (directory root fields) := by
  rw [directory]
  split
  · exact (idle_liftM _).bind fun _ => Action.idle_resolve _
  · exact idle_pure _

theorem endsInCommand_perform (root : Path) {fields : Fields} (h : step.fields? = some fields) :
    EndsInCommand (Performs step) (perform root step fields) := by
  have hpart : step.part "run" = Fields.get? "run" fields := by rw [Value.part, h]; rfl
  rw [perform]
  refine (idle_liftM _).ends_bind fun name => (idle_print _).ends_bind fun _ => ?_
  unfold Performs
  rw [hpart]
  cases Value.given? (Fields.get? "run" fields) with
  | none => exact endsInCommand_action step root
  | some v =>
    refine (idle_directory root fields).ends_bind fun cwd => ?_
    exact endsInCommand_liftM_bind fun command hcommand => endsInCommand_run hcommand

/-- **What running a step does.** -/
theorem run_cases (root : Path) (changed : List String) (step : Value) (w : Workspace) :
    (∃ e w', exec (run root changed step) w = (.error e, w')) ∨
    (∃ w', exec (run root changed step) w = (.ok none, w') ∧ ¬ IsDue w.env changed step ∧
      Ran w [] w') ∨
    ∃ x w', exec (run root changed step) w = (.ok (some (Shell.findings x.ending)), w') ∧
      IsDue w.env changed step ∧ x.step = step ∧ Ran w [x] w' := by
  rw [run, isDue_iff]
  cases hfields : step.fieldsOf with
  | error e => exact Or.inl ⟨e, w, rfl⟩
  | ok fields =>
    rw [exec_bind_ok (exec_liftM_ok fields), exec_bind_ok exec_get]
    change _ ∨ (∃ w', _ ∧ ¬ decision w.env changed fields = .ok .run ∧ _) ∨
      ∃ x w', _ ∧ decision w.env changed fields = .ok .run ∧ _
    cases hdecision : decision w.env changed fields with
    | error e => exact Or.inl ⟨e, w, rfl⟩
    | ok d =>
      rw [exec_bind_ok (exec_liftM_ok d)]
      cases d with
      | skip => exact Or.inr (Or.inl ⟨w, rfl, by simp, .refl w⟩)
      | skipWithout flag =>
        cases label fields with
        | error e => exact Or.inl ⟨e, w, rfl⟩
        | ok name => exact Or.inr (Or.inl ⟨_, rfl, by simp, idle_print _ w⟩)
      | run =>
        have hperform := endsInCommand_perform root (Value.fields?_of_fieldsOf hfields) w
        rcases hperform with ⟨e, w', herror⟩ | ⟨command, cwd, extra, w₁, hcommand, hidle, hrun⟩
        · exact Or.inl ⟨e, w', by dsimp only; rw [exec_bind, herror]⟩
        · rcases hexec : exec (Shell.run command cwd extra) w₁ with ⟨e | found, w'⟩
          · obtain ⟨out, hout⟩ := exec_run command cwd extra w₁
            rw [hexec] at hout
            cases (Prod.mk.inj hout).1
          · obtain ⟨rfl, hran⟩ := ran_run hcommand hexec
            refine Or.inr (Or.inr ⟨_, w', ?_, by simp, rfl, hidle.trans hran⟩)
            dsimp only
            rw [exec_bind_ok (hrun.trans hexec)]
            rfl

end Step

end StepLoom
