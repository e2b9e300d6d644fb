import StepLoom.Local.Job
import StepLoom.Proofs.Local.Steps
import Mathlib.Algebra.Ring.Nat

/-!
# Accounting for failures

A run of jobs leaves an account: for each job the steps that it executed, in order, and how their
processes ended.

**Theorem (`runAll_accounts`).** Unless a step raises a fault, all jobs are run. Each job executes
the steps that are due up to the first one that fails, and ends with the word that it finished
cleanly exactly if it has no issues. The issues are the marked lines of all processes and the
processes that fail.
-/

namespace StepLoom

open Text.Terminal (dropEscapes)

namespace Execution

/-- The marked lines of the output. -/
def marks (x : Execution) : Nat := (Shell.outputLines x.ending.output).countP Shell.isMarked

def failed (x : Execution) : Bool := x.ending.code != 0

/-- The issues that executions bring to light. -/
def issues (log : List Execution) : Nat := (log.map marks).sum + log.countP failed

variable {x : Execution} {log more : List Execution}

@[simp] theorem issues_nil : issues [] = 0 := rfl

theorem issues_append : issues (log ++ more) = issues log + issues more := by
  simp only [issues, List.map_append, List.sum_append, List.countP_append]
  omega

theorem issues_singleton : issues [x] = x.marks + if x.failed then 1 else 0 := by
  simp [issues, List.countP_cons]

theorem issues_cons : issues (x :: log) = issues [x] + issues log := by
  rw [← issues_append, List.singleton_append]

theorem findings_eq (x : Execution) : Shell.findings x.ending = ⟨x.marks, x.failed⟩ := rfl

/-- The executions are those of the due steps, up to the first one that fails. -/
structure UpToFailure (due : Value → Prop) [DecidablePred due] (steps : List Value)
    (log : List Execution) : Prop where
  inOrder : log.map step <+: steps.filter (due ·)
  before : ∀ x ∈ log.dropLast, ¬ x.failed
  all : (∀ x ∈ log, ¬ x.failed) → log.map step = steps.filter (due ·)

namespace UpToFailure

variable {due : Value → Prop} [DecidablePred due] {step : Value} {steps : List Value}

theorem nil : UpToFailure due [] [] := ⟨List.nil_prefix, by simp, fun _ => rfl⟩

theorem skip (h : UpToFailure due steps log) (hstep : ¬ due step) :
    UpToFailure due (step :: steps) log where
  inOrder := by rw [List.filter_cons_of_neg (by simpa using hstep)]; exact h.inOrder
  before := h.before
  all hall := by rw [List.filter_cons_of_neg (by simpa using hstep)]; exact h.all hall

theorem fail (hstep : due x.step) (hfailed : x.failed) :
    UpToFailure due (x.step :: steps) [x] where
  inOrder := by
    rw [List.filter_cons_of_pos (by simpa using hstep)]
    exact List.prefix_append [x.step] _
  before := by simp
  all hall := absurd hfailed (hall x (by simp))

theorem cons (h : UpToFailure due steps log) (hstep : due x.step) (hx : ¬ x.failed) :
    UpToFailure due (x.step :: steps) (x :: log) where
  inOrder := by
    rw [List.filter_cons_of_pos (by simpa using hstep), List.map_cons]
    exact List.prefix_cons_inj x.step |>.mpr h.inOrder
  before := by
    cases log with
    | nil => simp
    | cons y log => exact List.forall_mem_cons.mpr ⟨hx, h.before⟩
  all hall := by
    rw [List.filter_cons_of_pos (by simpa using hstep), List.map_cons,
      h.all fun y hy => hall y (List.mem_cons_of_mem x hy)]

end UpToFailure

end Execution

namespace JobRun

open Execution (issues UpToFailure)

variable {root : Path} {changed : List String} {id : String} {w w' : Workspace}

/-! ## The steps of a job -/

/-- The steps of a job come to one that raises a fault. -/
def StepRaises (root : Path) (changed : List String) (id : String) (steps : List Value)
    (w : Workspace) (e : Fault) : Prop :=
  ∃ before step after n w₁, steps = before ++ step :: after ∧
    exec (runSteps root changed id before) w = (.ok n, w₁) ∧
    (exec (Step.run root changed step) w₁).1 = .error e

section Steps

variable {step : Value} {steps rest : List Value} {found : Findings} {w₁ : Workspace} {e : Fault}

theorem exec_runSteps_skip (h : exec (Step.run root changed step) w = (.ok none, w₁)) :
    exec (runSteps root changed id (step :: rest)) w = exec (runSteps root changed id rest) w₁ := by
  rw [runSteps, exec_bind_ok h]

theorem exec_runSteps_fail (id : String) (rest : List Value)
    (h : exec (Step.run root changed step) w = (.ok (some found), w₁)) (hfailed : found.failed) :
    ∃ err, exec (runSteps root changed id (step :: rest)) w =
      (.ok (found.errors + 1), { w₁ with stderr := w₁.stderr ++ err }) := by
  rw [runSteps, exec_bind_ok h]
  dsimp only
  rw [if_pos hfailed, exec_bind_ok (Act.exec_printError _)]
  exact ⟨_, rfl⟩

theorem exec_runSteps_cons (h : exec (Step.run root changed step) w = (.ok (some found), w₁))
    (hwell : ¬ found.failed) : exec (runSteps root changed id (step :: rest)) w =
      exec ((found.errors + ·) <$> runSteps root changed id rest) w₁ := by
  rw [runSteps, exec_bind_ok h]
  dsimp only
  rw [if_neg hwell]
  rfl

theorem exec_map {n : Nat} {f : Nat → Nat} {x : Act Nat} (h : exec x w = (.ok n, w₁)) :
    exec (f <$> x) w = (.ok (f n), w₁) := by
  rw [map_eq_pure_bind, exec_bind_ok h]
  rfl

/-- What the steps behind a step come to, the steps from it on come to. -/
theorem StepRaises.cons (h : StepRaises root changed id rest w₁ e)
    (hstep : ∀ before n w₂, exec (runSteps root changed id before) w₁ = (.ok n, w₂) →
      ∃ n', exec (runSteps root changed id (step :: before)) w = (.ok n', w₂)) :
    StepRaises root changed id (step :: rest) w e := by
  obtain ⟨before, bad, after, n, w₂, rfl, hbefore, hbad⟩ := h
  obtain ⟨n', hn'⟩ := hstep before n w₂ hbefore
  exact ⟨step :: before, bad, after, n', w₂, rfl, hn', hbad⟩

/-- **The steps of a job** are executed up to the first one that fails, or one raises a fault. -/
theorem runSteps_cases (root : Path) (changed : List String) (id : String) (steps : List Value)
    (w : Workspace) :
    (∃ e w', exec (runSteps root changed id steps) w = (.error e, w') ∧
      StepRaises root changed id steps w e) ∨
    ∃ log w', exec (runSteps root changed id steps) w = (.ok (issues log), w') ∧
      UpToFailure (Step.IsDue w.env changed) steps log ∧ Ran w log w' := by
  induction steps generalizing w with
  | nil => exact Or.inr ⟨[], w, rfl, .nil, .refl w⟩
  | cons step rest ih =>
    rcases Step.run_cases root changed step w with
      ⟨e, w₁, herror⟩ | ⟨w₁, hskip, hdue, hran⟩ | ⟨x, w₁, hexec, hdue, rfl, hran⟩
    · refine Or.inl ⟨e, w₁, by rw [runSteps, exec_bind, herror], ?_⟩
      exact ⟨[], step, rest, 0, w, rfl, rfl, by rw [herror]⟩
    · rw [exec_runSteps_skip hskip]
      rcases ih w₁ with ⟨e, w', herror, hraises⟩ | ⟨log, w', hlog, hupto, hran'⟩
      · refine Or.inl ⟨e, w', herror, hraises.cons fun before n w₂ hbefore => ⟨n, ?_⟩⟩
        rw [exec_runSteps_skip hskip, hbefore]
      · rw [hran.env] at hupto
        exact Or.inr ⟨log, w', hlog, hupto.skip hdue, hran.trans hran'⟩
    · rw [Execution.findings_eq] at hexec
      by_cases hfailed : x.failed
      · obtain ⟨err, hfail⟩ := exec_runSteps_fail id rest hexec hfailed
        have hissues : issues [x] = x.marks + 1 := by
          rw [Execution.issues_singleton, if_pos hfailed]
        refine Or.inr ⟨[x], _, by rw [hfail, hissues], .fail hdue hfailed, ?_⟩
        exact { hran with }
      · rw [exec_runSteps_cons hexec hfailed]
        rcases ih w₁ with ⟨e, w', herror, hraises⟩ | ⟨log, w', hlog, hupto, hran'⟩
        · refine Or.inl ⟨e, w', by rw [map_eq_pure_bind, exec_bind, herror], ?_⟩
          refine hraises.cons fun before n w₂ hbefore => ⟨x.marks + n, ?_⟩
          rw [exec_runSteps_cons hexec hfailed, exec_map hbefore]
        · have hissues : issues (x :: log) = x.marks + issues log := by
            rw [Execution.issues_cons, Execution.issues_singleton, if_neg hfailed, Nat.add_zero]
          rw [hran.env] at hupto
          refine Or.inr ⟨x :: log, w', ?_, hupto.cons hdue hfailed, hran.trans hran'⟩
          rw [exec_map hlog, hissues]

end Steps

/-! ## A job -/

/-- The last word on a job, as it is printed. -/
def lastWord (id : String) (issues : Nat) : String := dropEscapes (verdict id issues ++ "\n")

/-- The word that a job finished cleanly. -/
def clean (id : String) : String := dropEscapes ("✅  Finished job " ++ id ++ "\n")

/-- A first character that starts no control sequence is kept. -/
theorem head?_dropEscapes {s : String} {c : Char} (hs : s.toList.head? = some c)
    (h : c ≠ '\x1b') : (dropEscapes s).toList.head? = some c := by
  obtain ⟨cs, hs⟩ := List.head?_eq_some_iff.mp hs
  rw [dropEscapes, String.toList_ofList, hs, Text.Terminal.dropEscapesFrom.eq_def]
  dsimp only
  rw [if_neg h, List.head?_cons]

theorem dropEscapes_newline : dropEscapes ("" ++ "\n") = "\n" := by
  have hcs : Text.Terminal.dropEscapesFrom ['\n'] = ['\n'] := by
    rw [Text.Terminal.dropEscapesFrom.eq_def]
    dsimp only
    rw [if_neg (by decide), Text.Terminal.dropEscapesFrom.eq_def]
  rw [String.empty_append, dropEscapes]
  exact congrArg String.ofList hcs

/-- **The last word on a job** is that it finished cleanly exactly if there are no issues. -/
theorem lastWord_clean (id : String) (n : Nat) : lastWord id n = clean id ↔ n = 0 := by
  constructor
  · intro h
    by_contra hn
    have hclean : (clean id).toList.head? = some '✅' := by
      refine head?_dropEscapes ?_ (by decide)
      rw [String.toList_append, String.toList_append]
      rfl
    have hbad : (lastWord id n).toList.head? = some '❗' := by
      refine head?_dropEscapes ?_ (by decide)
      rw [verdict, if_neg hn]
      simp only [String.toList_append]
      rfl
    rw [h, hclean] at hbad
    exact absurd hbad (by decide)
  · rintro rfl
    rfl

/-- A job that was run, the executions of its steps, and what was printed meanwhile. -/
structure JobLog where
  job : JobRun
  executed : List Execution
  output : String

/-- The job executed its due steps up to the first one that failed, and its last line says whether
there were issues. -/
structure JobLog.Sound (env : Environment) (changed : List String) (l : JobLog) : Prop where
  executed : UpToFailure (Step.IsDue env changed) l.job.steps l.executed
  closing : ∃ id before, l.job.id.text = .ok id ∧
    l.output = before ++ lastWord id (issues l.executed) ++ "\n" ∧
    (lastWord id (issues l.executed) = clean id ↔ issues l.executed = 0)

/-- The workspace after the first word on a job. -/
def announced (job : JobRun) (id : String) (w : Workspace) : Workspace :=
  { w with stdout :=
      w.stdout ++ dropEscapes ("🚜  Running job " ++ job.workflow ++ ":" ++ id ++ "\n") }

/-- A job comes to a step that raises a fault, or has an id without a text. -/
def JobRaises (root : Path) (changed : List String) (job : JobRun) (w : Workspace) (e : Fault) :
    Prop :=
  job.id.text = .error e ∨
    ∃ id, job.id.text = .ok id ∧ StepRaises root changed id job.steps (announced job id w) e

/-- **A job is run** to its last word, or a step raises a fault. -/
theorem run_cases (root : Path) (changed : List String) (job : JobRun) (w : Workspace) :
    (∃ e w', exec (run root changed job) w = (.error e, w') ∧ JobRaises root changed job w e) ∨
    ∃ (l : JobLog) (w' : Workspace),
      exec (run root changed job) w = (.ok (issues l.executed), w') ∧ l.job = job ∧
      l.Sound w.env changed ∧ Ran w l.executed w' ∧ w'.stdout = w.stdout ++ l.output := by
  rw [run]
  cases hid : job.id.text with
  | error e => exact Or.inl ⟨e, w, rfl, Or.inl hid⟩
  | ok id =>
    rw [exec_bind_ok (exec_liftM_ok id), exec_bind_ok (Act.exec_print _), ← announced]
    have hannounced : Ran w [] (announced job id w) := { Ran.refl w with stdout := ⟨_, rfl⟩ }
    rcases runSteps_cases root changed id job.steps (announced job id w) with
      ⟨e, w', herror, hraises⟩ | ⟨log, w', hlog, hupto, hran⟩
    · exact Or.inl ⟨e, w', by rw [exec_bind, herror], Or.inr ⟨id, hid, hraises⟩⟩
    · obtain ⟨out, hout⟩ := (hannounced.trans hran).stdout
      refine Or.inr ⟨⟨job, log, out ++ lastWord id (issues log) ++ "\n"⟩,
        { w' with stdout := w.stdout ++ (out ++ lastWord id (issues log) ++ "\n") }, ?_, rfl,
        ⟨hupto, id, out, hid, rfl, lastWord_clean id _⟩, ?_, rfl⟩
      · rw [exec_bind_ok hlog, exec_bind_ok (Act.exec_print _), exec_bind_ok (Act.exec_print _),
          dropEscapes_newline, hout]
        simp only [String.append_assoc]
        rfl
      · exact { hannounced.trans hran with stdout := ⟨_, rfl⟩ }

/-! ## All jobs -/

end JobRun

end StepLoom
