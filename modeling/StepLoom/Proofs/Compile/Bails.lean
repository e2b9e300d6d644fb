import StepLoom.Compile.Bail
import StepLoom.Proofs.Needs
import StepLoom.Proofs.Fields
import StepLoom.Proofs.SideBySide

/-!
# Bail conditions as gates, from left to right

The bail conditions of a list of steps are taken out position by position, and each one changes all
later steps in place. `Resolves` says the same from left to right, one step at a time.

**Theorem (`resolveAll_ok`).** For steps that stand at one place only, the result is that of
`Resolves`, with the blank bail conditions dropped, and nothing else is edited.

**Theorem (`Resolves.same`).** Steps stay in place and keep their fields, apart from `id`, `if` and
`bail_if`.
-/

namespace StepLoom

namespace Bail

open Value

variable {gate : String} {n : Nat} {v w : Value} {steps out : List Value} {log : List Edit}

/-- The step has a bail condition that is not blank. -/
def bails (step : Value) : Bool := (given? (step.part "bail_if")).isSome

/-- The step with a gate in front of its `if`. -/
def gateStep (gate : String) (step : Value) : Except Fault Value := do
  let existing ← step.field? "if"
  let gated ← Gate.inFrontOf gate existing
  return .record (Fields.put "if" (.str gated) (← step.spread))

def gateAll (gate : String) : List Value → Except Fault (List Value)
  | [] => .ok []
  | step :: rest => do
    let step ← gateStep gate step
    return step :: (← gateAll gate rest)

/-- The `n`-th step that bails, without its condition and with an id, and the gate for later
steps. -/
def split (n : Nat) (step : Value) : Except Fault (Value × String) := do
  let fields ← step.fieldsOf
  let fields :=
    if (given? (Fields.get? "id" fields)).isSome then fields
    else Fields.put "id" (.str (defaultId n)) fields
  match Fields.get? "id" fields, Fields.get? "bail_if" fields with
  | some id, some condition => do
    return (.record (Fields.erase "bail_if" fields), negate (← qualify (← id.text) condition))
  | _, _ => throw .missingKey

/-- The fields of a step that bails, with an id. -/
def withId (n : Nat) (fields : Fields) : Fields :=
  if (given? (Fields.get? "id" fields)).isSome then fields
  else Fields.put "id" (.str (defaultId n)) fields

/-- What is left of a step when its bail condition is dropped. -/
def dropped (step : Value) : Value :=
  match step with
  | .map _ fields => .record (Fields.erase "bail_if" fields)
  | v => v

/-- Steps and what becomes of them, one step after another. -/
inductive Resolves : Nat → List Value → List Value → Prop
  | nil (n : Nat) : Resolves n [] []
  | keep {n : Nat} {v : Value} {rest out : List Value} (hv : bails v = false)
      (hr : Resolves n rest out) : Resolves n (v :: rest) (v :: out)
  | bail {n : Nat} {v v' : Value} {gate : String} {rest rest' out : List Value}
      (hv : bails v = true) (hs : split n v = .ok (v', gate)) (hg : gateAll gate rest = .ok rest')
      (hr : Resolves (n + 1) rest' out) : Resolves n (v :: rest) (v' :: out)

/-! ## Steps that bail -/

variable {fields : Fields}

theorem get?_withId {a : String} (h : a ≠ "id") :
    Fields.get? (.str a) (withId n fields) = Fields.get? (.str a) fields := by
  unfold withId
  split_ifs
  · rfl
  · exact Fields.get?_put_ne h

theorem without_withId {keys : List String} (h : "id" ∈ keys) :
    Fields.without keys (withId n fields) = Fields.without keys fields := by
  unfold withId
  split_ifs
  · rfl
  · exact Fields.without_put h

/-- The id is the own one, or else the default one. -/
theorem id_withId (n : Nat) (fields : Fields) : ∃ x, Fields.get? "id" (withId n fields) = some x ∧
    (given? (Fields.get? "id" fields) = some x ∨ x = .str (defaultId n)) := by
  unfold withId
  cases hg : given? (Fields.get? "id" fields) with
  | none => exact ⟨_, Fields.get?_put_self, Or.inr rfl⟩
  | some x => exact ⟨x, (Option.filter_eq_some_iff.mp hg).1, Or.inl rfl⟩

/-- What a step that bails gives. -/
theorem split_inv (h : split n v = .ok (w, gate)) : ∃ fields x condition text q,
    v.fields? = some fields ∧ Fields.get? "id" (withId n fields) = some x ∧
    Fields.get? "bail_if" fields = some condition ∧ x.text = .ok text ∧
    qualify text condition = .ok q ∧ w = .record (Fields.erase "bail_if" (withId n fields)) ∧
    gate = negate q := by
  obtain ⟨fields, hfields, h⟩ := bind_eq_ok.mp h
  change (match Fields.get? "id" (withId n fields), Fields.get? "bail_if" (withId n fields) with
    | some id, some condition => do
      return (.record (Fields.erase "bail_if" (withId n fields)),
        negate (← qualify (← id.text) condition))
    | _, _ => throw .missingKey) = Except.ok (w, gate) at h
  split at h
  · next x condition hx hcondition =>
    obtain ⟨text, htext, h⟩ := bind_eq_ok.mp h
    obtain ⟨q, hq, h⟩ := bind_eq_ok.mp h
    obtain ⟨rfl, rfl⟩ := Prod.mk.inj (Except.ok.inj h)
    rw [get?_withId (by decide)] at hcondition
    exact ⟨fields, x, condition, text, q, fields?_of_fieldsOf hfields, hx, hcondition, htext, hq,
      rfl, rfl⟩
  · cases h

/-! ## Gating -/

theorem gateStep_ok (h : gateStep gate v = .ok w) (hv : v.IsRecord) :
    Same ["if"] v w ∧ w.part "bail_if" = v.part "bail_if" ∧ w.part "id" = v.part "id" := by
  obtain ⟨fields, rfl⟩ := hv
  rw [gateStep] at h
  change (Gate.inFrontOf gate (Fields.get? "if" fields) >>= fun gated => pure _) = _ at h
  cases hg : Gate.inFrontOf gate (Fields.get? "if" fields) with
  | error e => rw [hg] at h; cases h
  | ok gated =>
    rw [hg] at h
    obtain rfl := Except.ok.inj h
    refine ⟨⟨fields, _, rfl, rfl, (Fields.without_put (by simp)).symm⟩, ?_, ?_⟩
    · exact Fields.get?_put_ne (by decide)
    · exact Fields.get?_put_ne (by decide)

theorem bails_congr (h : w.part "bail_if" = v.part "bail_if") : bails w = bails v := by
  rw [bails, h, bails]

theorem gateAll_ok (h : gateAll gate steps = .ok out) (hs : ∀ v ∈ steps, v.IsRecord) :
    List.Forall₂ (fun v w => v.IsRecord ∧ gateStep gate v = .ok w) steps out := by
  induction steps generalizing out with
  | nil =>
    obtain rfl := Except.ok.inj h
    exact .nil
  | cons v rest ih =>
    rw [gateAll] at h
    cases hv : gateStep gate v with
    | error e => rw [hv] at h; cases h
    | ok w =>
      cases hr : gateAll gate rest with
      | error e => rw [hv, hr] at h; cases h
      | ok more =>
        rw [hv, hr] at h
        obtain rfl := Except.ok.inj h
        exact .cons ⟨hs v (by simp), hv⟩ (ih hr fun x hx => hs x (List.mem_cons_of_mem v hx))

theorem records_of_gateAll (h : gateAll gate steps = .ok out) (hs : ∀ v ∈ steps, v.IsRecord) :
    ∀ w ∈ out, w.IsRecord := by
  intro w hw
  obtain ⟨v, -, hv, hgate⟩ := forall₂_exists_left (gateAll_ok h hs) hw
  exact (gateStep_ok hgate hv).1.isRecord

theorem replay_nil (steps : List Value) : replay [] steps = steps := List.map_id _

theorem gateFrom_eq (gate : String) {pre post : List Value} (hp : ∀ v ∈ post, v.IsRecord) :
    gateFrom gate post.length pre.length (pre ++ post) log =
      (gateAll gate post).map fun out => (pre ++ out, log) := by
  induction post generalizing pre log with
  | nil => rfl
  | cons v post ih =>
    obtain ⟨fields, rfl⟩ := hp v (by simp)
    rw [List.length_cons, gateFrom, List.getElem?_append_right (Nat.le_refl _), Nat.sub_self,
      List.getElem?_cons_zero, gateAll, gateStep]
    change (Gate.inFrontOf gate (Fields.get? "if" fields) >>= fun gated => _) =
      Except.map _ ((Gate.inFrontOf gate (Fields.get? "if" fields) >>= fun gated => pure _) >>= _)
    cases Gate.inFrontOf gate (Fields.get? "if" fields) with
    | error e => rfl
    | ok gated =>
      have hset : (pre ++ record fields :: post).set pre.length
          (record (Fields.put "if" (.str gated) fields)) =
          pre ++ [record (Fields.put "if" (.str gated) fields)] ++ post := by simp
      change gateFrom gate post.length (pre.length + 1) (replay [] _) (log ++ []) = _
      rw [replay_nil, hset, List.append_nil,
        show pre.length + 1 = (pre ++ [record (Fields.put "if" (.str gated) fields)]).length
          by simp,
        ih fun v hv => hp v (List.mem_cons_of_mem _ hv)]
      cases gateAll gate post with
      | error e => rfl
      | ok more =>
        change Except.ok (_, log) = Except.ok (_, log)
        rw [List.append_assoc]
        rfl

/-- Gating all that comes after one position. -/
theorem gateFrom_after (gate : String) {pre post : List Value} (hp : ∀ v ∈ post, v.IsRecord) :
    gateFrom gate ((pre ++ v :: post).length - (pre.length + 1)) (pre.length + 1)
      ((pre ++ v :: post).set pre.length w) log =
      (gateAll gate post).map fun out => (pre ++ w :: out, log) := by
  have hset : (pre ++ v :: post).set pre.length w = pre ++ [w] ++ post := by simp
  have hcount : (pre ++ v :: post).length - (pre.length + 1) = post.length := by
    simp only [List.length_append, List.length_cons]
    omega
  have hposition : pre.length + 1 = (pre ++ [w]).length := by simp
  rw [hset, hcount, hposition, gateFrom_eq gate hp]
  simp only [List.append_assoc, List.singleton_append]

/-- What becomes of a step that bails, and of the steps after it. -/
theorem resolveOne_eq {pre post : List Value} (hv : v.IsRecord) (hp : ∀ v ∈ post, v.IsRecord) :
    resolveOne n pre.length (pre ++ v :: post) log = (do
      let (v', gate) ← split n v
      let out ← gateAll gate post
      return (pre ++ v' :: out, log)) := by
  obtain ⟨fields, rfl⟩ := hv
  rw [resolveOne, List.getElem?_append_right (Nat.le_refl _), Nat.sub_self,
    List.getElem?_cons_zero, split]
  simp only [show (record fields).fieldsOf = .ok fields from rfl, bind, Except.bind]
  rw [← withId]
  generalize withId n fields = fs
  cases Fields.get? "id" fs with
  | none => rfl
  | some id =>
    cases Fields.get? "bail_if" fs with
    | none => rfl
    | some condition =>
      dsimp only
      cases id.text with
      | error e => rfl
      | ok text =>
        dsimp only
        cases qualify text condition with
        | error e => rfl
        | ok qualified =>
          dsimp only
          rw [withFields_record, replay_nil, List.append_nil, gateFrom_after _ hp]
          cases hg : gateAll (negate qualified) post <;> simp [hg, pure, Except.pure, Except.map]

/-! ## Positions -/

/-- The positions of the steps that bail, counted from `i`. -/
def positions : (i : Nat) → List Value → List Nat
  | _, [] => []
  | i, v :: rest => if bails v then i :: positions (i + 1) rest else positions (i + 1) rest

theorem positionsFrom_eq (i : Nat) (hs : ∀ v ∈ steps, v.IsRecord) :
    positionsFrom i steps = .ok (positions i steps) := by
  induction steps generalizing i with
  | nil => rfl
  | cons v rest ih =>
    obtain ⟨fields, rfl⟩ := hs v (by simp)
    rw [positionsFrom, ih (i + 1) fun w hw => hs w (List.mem_cons_of_mem _ hw), positions, bails]
    change Except.ok (if _ then _ else _) = _
    rfl

theorem positions_congr {i : Nat} (h : List.Forall₂ (fun v w => bails w = bails v) steps out) :
    positions i out = positions i steps := by
  induction h generalizing i with
  | nil => rfl
  | cons hv _ ih => rw [positions, positions, hv, ih]

/-- **Position by position is from left to right.** -/
theorem resolveAt_ok (pre : List Value) {r : List Value × List Edit} (hs : ∀ v ∈ steps, v.IsRecord)
    (h : resolveAt n (positions pre.length steps) (pre ++ steps) log = .ok r) :
    ∃ out, r = (pre ++ out, log) ∧ Resolves n steps out := by
  induction hlen : steps.length generalizing steps n pre with
  | zero =>
    obtain rfl := List.length_eq_zero_iff.mp hlen
    rw [positions, resolveAt] at h
    exact ⟨[], (Except.ok.inj h).symm, .nil n⟩
  | succ k ih =>
    obtain ⟨v, rest, rfl⟩ := List.exists_cons_of_length_eq_add_one hlen
    have hrest : ∀ w ∈ rest, w.IsRecord := fun w hw => hs w (List.mem_cons_of_mem v hw)
    rw [List.length_cons, Nat.add_right_cancel_iff] at hlen
    rw [positions] at h
    by_cases hv : bails v
    · rw [if_pos hv, resolveAt, resolveOne_eq (hs v (by simp)) hrest] at h
      cases hsplit : split n v with
      | error e => rw [hsplit] at h; cases h
      | ok r' =>
        obtain ⟨v', gate⟩ := r'
        cases hg : gateAll gate rest with
        | error e => rw [hsplit] at h; simp only [bind, Except.bind, hg] at h; cases h
        | ok rest' =>
          rw [hsplit] at h
          simp only [bind, Except.bind, hg, pure, Except.pure] at h
          have hsame : positions (pre.length + 1) rest = positions (pre ++ [v']).length rest' := by
            rw [List.length_append, List.length_singleton]
            exact (positions_congr ((gateAll_ok hg hrest).imp fun v w hvw =>
              bails_congr (gateStep_ok hvw.2 hvw.1).2.1)).symm
          have happend : pre ++ v' :: rest' = pre ++ [v'] ++ rest' := by simp
          rw [hsame, happend] at h
          obtain ⟨out, rfl, hout⟩ := ih _ (records_of_gateAll hg hrest) h
            (by rw [← (gateAll_ok hg hrest).length_eq, hlen])
          exact ⟨v' :: out, by simp, .bail hv hsplit hg hout⟩
    · rw [if_neg hv, show pre.length + 1 = (pre ++ [v]).length by simp,
        show pre ++ v :: rest = pre ++ [v] ++ rest by simp] at h
      obtain ⟨out, rfl, hout⟩ := ih _ hrest h hlen
      exact ⟨v :: out, by simp, .keep (by simpa using hv) hout⟩

/-! ## Dropping what is left -/

theorem dropFrom_eq (pre : List Value) (log : List Edit) {post : List Value}
    (hp : ∀ v ∈ post, v.IsRecord) :
    dropFrom post.length pre.length (pre ++ post) log = .ok (pre ++ post.map dropped, log) := by
  induction post generalizing pre log with
  | nil => rfl
  | cons v post ih =>
    obtain ⟨fields, rfl⟩ := hp v (by simp)
    have hset : (pre ++ record fields :: post).set pre.length
        (record (Fields.erase "bail_if" fields)) =
        pre ++ [record (Fields.erase "bail_if" fields)] ++ post := by simp
    rw [List.length_cons, dropFrom, List.getElem?_append_right (Nat.le_refl _), Nat.sub_self,
      List.getElem?_cons_zero]
    change dropFrom post.length (pre.length + 1) (replay [] _) (log ++ []) = _
    rw [replay_nil, hset, List.append_nil,
      show pre.length + 1 = (pre ++ [record (Fields.erase "bail_if" fields)]).length by simp,
      ih _ _ fun v hv => hp v (List.mem_cons_of_mem _ hv), List.append_assoc]
    rfl

/-! ## What steps keep -/

theorem dropped_same (hv : v.IsRecord) : Same ["bail_if"] v (dropped v) ∧
    (v.part "bail_if" = none → dropped v = v) := by
  obtain ⟨fields, rfl⟩ := hv
  refine ⟨⟨fields, _, rfl, rfl, (Fields.without_erase (by simp)).symm⟩, fun h => ?_⟩
  rw [dropped, Fields.erase_of_get?_none h]

theorem split_ok (h : split n v = .ok (w, gate)) (hv : v.IsRecord) :
    Same ["id", "bail_if"] v w := by
  obtain ⟨fields, rfl⟩ := hv
  obtain ⟨fs, -, -, -, -, hfs, -, -, -, -, rfl, -⟩ := split_inv h
  obtain rfl : fields = fs := Option.some.inj hfs
  refine ⟨fields, _, rfl, rfl, ?_⟩
  rw [Fields.without_erase (by simp), without_withId (by simp)]

/-- A step before and after bail conditions are resolved. -/
def Kept (v w : Value) : Prop :=
  Same ["id", "if", "bail_if"] v w ∧ (v.part "bail_if" = none → Same ["if"] v w)

theorem Resolves.records (h : Resolves n steps out) (hs : ∀ v ∈ steps, v.IsRecord) :
    ∀ w ∈ out, w.IsRecord := by
  induction h with
  | nil => simp
  | @keep n v rest out hv _ ih =>
    intro u hu
    rcases List.mem_cons.mp hu with rfl | hu
    · exact hs _ (by simp)
    · exact ih (fun w hw => hs w (List.mem_cons_of_mem v hw)) u hu
  | @bail n v v' gate rest rest' out hv hsplit hg _ ih =>
    intro u hu
    rcases List.mem_cons.mp hu with rfl | hu
    · exact (split_ok hsplit (hs v (by simp))).isRecord
    · exact ih (records_of_gateAll hg fun w hw => hs w (List.mem_cons_of_mem v hw)) u hu

theorem Resolves.kept (h : Resolves n steps out) (hs : ∀ v ∈ steps, v.IsRecord) :
    List.Forall₂ (fun v w => Kept v (dropped w)) steps out := by
  induction h with
  | nil => exact .nil
  | @keep n v rest out hv _ ih =>
    have hrec := hs v (by simp)
    obtain ⟨hsame, hnone⟩ := dropped_same hrec
    refine .cons ⟨hsame.mono (by simp), fun h => ?_⟩
      (ih fun w hw => hs w (List.mem_cons_of_mem v hw))
    rw [hnone h]
    exact Same.refl hrec
  | @bail n v v' gate rest rest' out hv hsplit hg _ ih =>
    have hrest : ∀ w ∈ rest, w.IsRecord := fun w hw => hs w (List.mem_cons_of_mem v hw)
    have hsame := split_ok hsplit (hs v (by simp))
    refine .cons ⟨(hsame.mono (by simp)).trans
      ((dropped_same hsame.isRecord).1.mono (by simp)), fun h => ?_⟩ ?_
    · rw [bails, h] at hv
      cases hv
    · have hih := ih (records_of_gateAll hg hrest)
      refine forall₂_comp (fun u w z huw hwz => ?_) (gateAll_ok hg hrest) hih
      obtain ⟨hif, hbail, -⟩ := gateStep_ok huw.2 huw.1
      refine ⟨(hif.mono (by simp)).trans hwz.1, fun hnone => hif.trans (hwz.2 ?_)⟩
      rw [hbail, hnone]

/-- **Bail conditions are resolved from left to right**, and nothing else is edited. -/
theorem resolveAll_ok {r : List Value × List Edit} (hs : ∀ v ∈ steps, v.IsRecord)
    (h : resolveAll steps = .ok r) :
    ∃ out, r = (out.map dropped, []) ∧ Resolves 1 steps out := by
  rw [resolveAll, positionsFrom_eq 0 hs] at h
  change resolveAt 1 (positions 0 steps) steps [] >>= _ = _ at h
  cases hat : resolveAt 1 (positions 0 steps) steps [] with
  | error e => rw [hat] at h; cases h
  | ok r' =>
    obtain ⟨out, rfl, hres⟩ := resolveAt_ok [] hs hat
    rw [hat] at h
    have hrec : ∀ v ∈ out, v.IsRecord := hres.records hs
    have hdrop := dropFrom_eq [] [] hrec
    change dropFrom out.length 0 out [] = _ at h
    rw [show dropFrom out.length 0 out [] = _ from hdrop] at h
    exact ⟨out, (Except.ok.inj h).symm, hres⟩

end Bail

end StepLoom
