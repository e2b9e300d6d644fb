import StepLoom.Compile.Block
import StepLoom.Proofs.Check
import StepLoom.Proofs.Fields
import StepLoom.Proofs.Run

/-!
# Faults in the steps of a block

A block may fail for what is in its steps: a step that is no mapping, a name without a text, a bad
pattern. It never fails for a key that is missing, once its gate can be read.

**Theorem (`ofNode_found`).** The block of a node looks nothing up in vain if the step ids of its
path checks are known.
-/

namespace StepLoom

variable {α β : Type}

/-- No key is missing. -/
def Found (x : Except Fault α) : Prop := x ≠ .error .missingKey

theorem found_ok (a : α) : Found (.ok a) := by simp [Found]

theorem found_error {e : Fault} (h : e ≠ .missingKey) : Found (.error e : Except Fault α) := by
  simpa [Found] using h

theorem Found.bind {x : Except Fault α} {f : α → Except Fault β} (hx : Found x)
    (hf : ∀ a, Found (f a)) : Found (x >>= f) := by
  cases x with
  | ok a => exact hf a
  | error e => exact fun h => hx (congrArg Except.error (Except.error.inj h))

theorem found_mapM {f : α → Except Fault β} (hf : ∀ a, Found (f a)) (xs : List α) :
    Found (xs.mapM f) := by
  induction xs with
  | nil => exact found_ok []
  | cons x rest ih =>
    rw [List.mapM_cons]
    exact (hf x).bind fun _ => ih.bind fun _ => found_ok _

/-! ## Reading values -/

namespace Value

variable (v : Value) (key : Scalar)

theorem found_members : Found v.members := fun h => by cases members_error h

theorem found_field? : Found (v.field? key) := by
  unfold field?
  split <;> first | exact found_ok _ | exact found_error (by simp)

theorem found_spread : Found v.spread := by
  unfold spread
  split <;> first | exact found_ok _ | exact found_error (by simp)

theorem found_text : Found v.text := by
  unfold text literal
  split <;> split_ifs <;> first | exact found_ok _ | exact found_error (by simp)

theorem found_strings (vs : List Value) : Found (strings vs) := fun h => by cases strings_error h

theorem found_pairsFrom (vs : List Value) (i : Nat) : Found (pairsFrom i vs) := by
  induction vs generalizing i with
  | nil => exact found_ok []
  | cons v rest ih =>
    refine v.found_members.bind fun parts => ?_
    split
    · split
      · exact (ih (i + 1)).bind fun _ => found_ok _
      · exact found_error (by simp)
    · exact found_error (by simp)

theorem found_asFields : Found v.asFields := by
  unfold asFields
  split
  · exact found_ok _
  · exact v.found_members.bind fun _ => (found_pairsFrom _ 0).bind fun _ => found_ok _

end Value

/-! ## Steps under a gate -/

theorem Gate.found_guardWith (c : Option String) (step : Value) : Found (guardWith c step) := by
  unfold guardWith inFrontOf
  split
  · exact found_ok _
  · refine (step.found_field? _).bind fun existing => ?_
    have hgate : ∀ gate : Except Fault String, Found gate →
        Found (gate >>= fun gate => step.spread >>= fun fields =>
          pure (Value.record (Fields.put "if" (.str gate) fields))) :=
      fun gate hgate => hgate.bind fun _ => step.found_spread.bind fun _ => found_ok _
    refine hgate _ ?_
    split
    · exact (Value.found_text _).bind fun _ => found_ok _
    · exact found_ok _

namespace Block

theorem found_steps (definition : Value) : Found (Setup.steps definition) := by
  unfold Setup.steps
  split
  · exact found_ok _
  · exact found_ok _
  · refine (Value.found_field? _ _).bind fun field => ?_
    unfold Value.membersOrNone
    split
    · exact Value.found_members _
    · exact found_ok _

theorem found_ofSetup (name : String) (definition : Value) (c : Option String) :
    Found (ofSetup name definition c) := by
  refine (found_steps definition).bind fun items => ?_
  split
  · exact found_ok _
  · next step =>
    refine (step.found_field? _).bind fun found => ?_
    have hname : Found (nameText found) := by
      unfold nameText
      split
      · exact Value.found_text _
      · exact found_ok _
    exact hname.bind fun _ => step.found_spread.bind fun _ =>
      (Gate.found_guardWith _ _).bind fun _ => found_ok _
  · exact (found_mapM (fun s => s.found_asFields.bind fun _ => found_ok _) _).bind fun _ =>
      found_mapM (Gate.found_guardWith c) _

theorem found_step (id : String) (patterns : List String) : Found (Check.step id patterns) := by
  have hregexes : Found (Check.regexes patterns) := by
    cases h : Check.regexes patterns with
    | ok found => exact found_ok found
    | error e =>
      obtain ⟨p, -, rfl, -⟩ := Check.regexes_error h
      exact found_error (by simp)
  exact hregexes.bind fun _ => found_ok _

/-! ## One node -/

theorem ensures_found {σ : Type} {g : σ} {x : Except Fault α} (h : Found x) :
    Ensures (liftM x : Work σ α) g (fun _ _ => True) (· ≠ .missingKey) :=
  ensures_liftM (fun _ _ => trivial) fun _ he hkey => h (hkey ▸ he)

/-- **The block of a node, once its gate can be read.** -/
theorem ofNode_found {n : Node} {outs : List (String × String)} {r : Registry} {c : Option String}
    (hc : Gate.anyChanged n.pathDeps outs = .ok c) :
    Ensures (ofNode n outs) r (fun _ _ => True) (· ≠ .missingKey) := by
  rw [ofNode, hc]
  refine ensures_bind_exec (exec_liftM_ok c) ?_
  cases n.kind with
  | step =>
    exact (ensures_found (Gate.found_guardWith _ _)).bind fun _ _ _ => ensures_pure trivial
  | setup =>
    exact (ensures_found (found_ofSetup _ _ _)).bind fun _ _ _ => ensures_pure trivial
  | paths =>
    have hpatterns : Found (n.content.members >>= Value.strings) :=
      (Value.found_members _).bind fun _ => Value.found_strings _
    refine (ensures_found hpatterns).bind fun patterns r _ => ?_
    refine Ensures.bind (Q := fun _ _ => True) ?_ fun id r _ =>
      (ensures_found (found_step id patterns)).bind fun _ _ _ =>
        (ensures_found (Gate.found_guardWith _ _)).bind fun _ _ _ => ensures_pure trivial
    -- Only the claim of a step id is left: it fails for want of ids, never of a key.
    have hexec : ∀ f : Registry → Except Fault String × Registry,
        exec (ExceptT.mk f : Registry.Claiming String) r = f r := fun _ => rfl
    rw [Ensures, hexec]
    unfold Registry.claim
    cases r.claimFrom patterns (Check.outputName patterns) Registry.maxTries 0 with
    | some answer => trivial
    | none => exact fun h => by cases h

end Block

end StepLoom
