import StepLoom.Proofs.Run
import StepLoom.Workspace

/-!
# What acts do

Printing, calls of git and child processes, as changes of the workspace; and the work that leaves
the workspace as it is (`Quiet`).
-/

namespace StepLoom

namespace Act

variable {w : Workspace}

theorem exec_print (line : String) : exec (print line) w =
    (.ok (), { w with stdout := w.stdout ++ Text.Terminal.dropEscapes (line ++ "\n") }) := rfl

theorem exec_printError (line : String) : exec (printError line) w =
    (.ok (), { w with stderr := w.stderr ++ Text.Terminal.dropEscapes (line ++ "\n") }) := rfl

/-- Git answers a command. -/
theorem exec_git {a : GitAnswer} {args : List String} {cwd : Option String}
    (ha : w.git.find? (fun a => a.args == args) = some a) (hcode : a.code = 0) :
    exec (git args cwd) w = (.ok (Text.strip a.output),
      { w with tree := w.tree.putFiles a.writes, calls := w.calls ++ [Call.git args cwd] }) := by
  rw [git, exec_bind_ok (exec_modify _), exec_bind_ok exec_get]
  dsimp only
  rw [ha]
  dsimp only
  rw [if_pos hcode, exec_bind_ok (exec_modify _)]
  rfl

theorem exec_start (command : Command) (cwd : Path) (env : Environment) :
    exec (start command cwd env) w = (.ok (w.endings.headD {}),
      { w with
        calls := w.calls ++ [Call.process command cwd.text env]
        endings := w.endings.tail }) := rfl

end Act

variable {α β : Type}

/-! ## Reading changes nothing -/

/-- The workspace is the same afterwards. -/
def Quiet (x : Act α) : Prop := ∀ w, (exec x w).2 = w

theorem quiet_pure (a : α) : Quiet (pure a) := fun _ => rfl

theorem quiet_throw (e : Fault) : Quiet (throw e : Act α) := fun _ => rfl

theorem quiet_get : Quiet (get : Act Workspace) := fun _ => rfl

theorem quiet_liftM (x : Except Fault α) : Quiet (liftM x) := by
  intro w
  cases x <;> rfl

theorem Quiet.bind {x : Act α} {f : α → Act β} (hx : Quiet x) (hf : ∀ a, Quiet (f a)) :
    Quiet (x >>= f) := by
  intro w
  have hw := hx w
  rw [exec_bind]
  rcases hex : exec x w with ⟨e | a, w'⟩
  · rwa [hex] at hw
  · rw [hex] at hw
    obtain rfl : w' = w := hw
    exact hf a w'

theorem quiet_has (p : Path) : Quiet (Act.has p) := quiet_get.bind fun _ => quiet_pure _

theorem quiet_refuseNul (text : String) : Quiet (Act.refuseNul text) := by
  unfold Act.refuseNul
  split
  · exact quiet_throw _
  · exact quiet_pure _

theorem quiet_readFile (p : Path) : Quiet (Act.readFile p) := by
  refine (quiet_refuseNul _).bind fun _ => quiet_get.bind fun w => ?_
  split
  · exact quiet_pure _
  · exact quiet_throw _
  · exact quiet_throw _

end StepLoom
