import StepLoom.Compile.Block
import StepLoom.Proofs.Compile.Bails
import StepLoom.Proofs.Compile.Claims
import StepLoom.Proofs.Graph.Nodes
import StepLoom.Proofs.Run

/-!
# The blocks of nodes

**Theorem (`joinFrom_ok`).** Joining nodes in an order gives one block for each of them, as
`BlockOf` says: a path check one step, a setup the steps of its definition, a step itself. The step
ids of path checks that are known at the end are enough to read every gate, and no path check has
two. In the registry each of them belongs to the patterns of its path check (`joinFrom_owned`).
-/

namespace StepLoom

namespace Block

open Registry (Claiming)

variable {g : Graph} {n : Node} {outs outs' : List (String × String)} {r r' : Registry}
  {id : String} {b : List Value}

/-! ## One node -/

/-- The steps of a node, given the step ids of path checks. -/
inductive BlockOf (g : Graph) (outs : List (String × String)) (id : String) : List Value → Prop
  | paths {n : Node} {c : Option String} {patterns : List String} {stepId : String}
      {check : Fields} {v : Value} (hn : g.find? id = some n) (hk : n.kind = .paths)
      (hc : Gate.anyChanged n.pathDeps outs = .ok c)
      (hp : (n.content.members >>= Value.strings) = .ok patterns) (ho : (id, stepId) ∈ outs)
      (hs : Check.step stepId patterns = .ok check)
      (hv : Gate.guardWith c (.record check) = .ok v) : BlockOf g outs id [v]
  | setup {n : Node} {c : Option String} {steps : List Value} (hn : g.find? id = some n)
      (hk : n.kind = .setup) (hc : Gate.anyChanged n.pathDeps outs = .ok c)
      (hs : ofSetup (String.ofList (id.toList.drop (Graph.setupId "").length)) n.content c =
        .ok steps) : BlockOf g outs id steps
  | step {n : Node} {c : Option String} {v : Value} (hn : g.find? id = some n) (hk : n.kind = .step)
      (hc : Gate.anyChanged n.pathDeps outs = .ok c)
      (hv : Gate.guardWith c n.content = .ok v) : BlockOf g outs id [v]

theorem exec_ofNode_step (hk : n.kind = .step) : exec (ofNode n outs) r = (do
    let c ← Gate.anyChanged n.pathDeps outs
    let v ← Gate.guardWith c n.content
    return ([v], outs), r) := by
  rw [ofNode, hk]
  cases Gate.anyChanged n.pathDeps outs with
  | error e => rfl
  | ok c =>
    rw [exec_bind_ok (exec_liftM_ok c)]
    change _ = ((Gate.guardWith c n.content).bind fun v => .ok ([v], outs), r)
    cases Gate.guardWith c n.content <;> rfl

theorem exec_ofNode_setup (hk : n.kind = .setup) : exec (ofNode n outs) r = (do
    let c ← Gate.anyChanged n.pathDeps outs
    let steps ← ofSetup (String.ofList (n.id.toList.drop (Graph.setupId "").length)) n.content c
    return (steps, outs), r) := by
  rw [ofNode, hk]
  cases Gate.anyChanged n.pathDeps outs with
  | error e => rfl
  | ok c =>
    rw [exec_bind_ok (exec_liftM_ok c)]
    change _ = ((ofSetup (String.ofList (n.id.toList.drop (Graph.setupId "").length)) n.content
      c).bind fun steps => .ok (steps, outs), r)
    dsimp only
    cases ofSetup (String.ofList (n.id.toList.drop (Graph.setupId "").length)) n.content c <;> rfl

/-- A path check claims a step id first, which it keeps even if a pattern is bad. -/
theorem exec_ofNode_paths {c : Option String} {patterns : List String} (hk : n.kind = .paths)
    (hc : Gate.anyChanged n.pathDeps outs = .ok c)
    (hp : (n.content.members >>= Value.strings) = .ok patterns) :
    exec (ofNode n outs) r = match r.claim patterns with
      | .error e => (.error e, r)
      | .ok (stepId, r') => (do
          let check ← Check.step stepId patterns
          let v ← Gate.guardWith c (.record check)
          return ([v], outs ++ [(n.id, stepId)]), r') := by
  rw [ofNode, hk, hc, exec_bind_ok (exec_liftM_ok c)]
  simp only [hp]
  rw [exec_bind_ok (exec_liftM_ok patterns), exec_bind]
  have hmk : ∀ f : Registry → Except Fault String × Registry,
      exec (ExceptT.mk f : Claiming String) r = f r := fun _ => rfl
  rw [hmk]
  cases r.claim patterns with
  | error e => rfl
  | ok answer =>
    obtain ⟨stepId, r'⟩ := answer
    change _ = ((Check.step stepId patterns).bind fun check => (Gate.guardWith c
      (.record check)).bind fun v => .ok ([v], outs ++ [(n.id, stepId)]), r')
    dsimp only
    cases Check.step stepId patterns with
    | error e => rfl
    | ok check =>
      rw [exec_bind_ok (exec_liftM_ok check)]
      change _ = ((Gate.guardWith c (.record check)).bind fun v =>
        .ok ([v], outs ++ [(n.id, stepId)]), r')
      cases Gate.guardWith c (.record check) <;> rfl

/-! ## Known step ids -/

theorem lookUpAll_total {ids : List String} (h : ∀ id ∈ ids, ∃ outId, (id, outId) ∈ outs) :
    ∃ found, Gate.lookUpAll outs ids = .ok found := by
  induction ids with
  | nil => exact ⟨[], rfl⟩
  | cons id rest ih =>
    obtain ⟨found, hfound⟩ := ih fun i hi => h i (List.mem_cons_of_mem id hi)
    obtain ⟨outId, hid⟩ := h id (by simp)
    rw [Gate.lookUpAll]
    cases hf : outs.find? (·.1 == id) with
    | none =>
      have := List.find?_eq_none.mp hf _ hid
      simp at this
    | some pair =>
      simp only [hfound]
      exact ⟨_, rfl⟩

/-- A gate can be read if the step ids of its path checks are known. -/
theorem anyChanged_total {deps : Option (List String)}
    (h : ∀ l, deps = some l → ∀ p ∈ l, ∃ outId, (p, outId) ∈ outs) :
    ∃ c, Gate.anyChanged deps outs = .ok c := by
  cases deps with
  | none => exact ⟨none, rfl⟩
  | some ids =>
    obtain ⟨found, hfound⟩ := lookUpAll_total (h ids rfl)
    refine ⟨some (" || ".intercalate (found.map Gate.changed)), ?_⟩
    rw [Gate.anyChanged, hfound]
    rfl

/-- What is known of some nodes stays known when one more is joined. -/
theorem known_cons {p : String → Prop} {done : List String} {x : String}
    (more : List (String × String)) (h : ∀ y ∈ done, p y → ∃ outId, (y, outId) ∈ outs)
    (hx : p x → ∃ outId, (x, outId) ∈ outs ++ more) :
    ∀ y ∈ x :: done, p y → ∃ outId, (y, outId) ∈ outs ++ more := by
  refine List.forall_mem_cons.mpr ⟨hx, fun y hy hp => ?_⟩
  obtain ⟨outId, hmem⟩ := h y hy hp
  exact ⟨outId, List.mem_append_left _ hmem⟩

/-- Looking up several step ids finds each of them. -/
theorem lookUpAll_cons_ok {id : String} {ids found : List String}
    (h : Gate.lookUpAll outs (id :: ids) = .ok found) : ∃ pair more,
      outs.find? (·.1 == id) = some pair ∧ Gate.lookUpAll outs ids = .ok more ∧
      found = pair.2 :: more := by
  rw [Gate.lookUpAll] at h
  cases hf : outs.find? (·.1 == id) with
  | none => simp [hf] at h
  | some pair =>
    rw [hf] at h
    cases hr : Gate.lookUpAll outs ids with
    | error e => simp [hr, bind, Except.bind] at h
    | ok more =>
      rw [hr] at h
      exact ⟨pair, more, rfl, rfl, (Except.ok.inj h).symm⟩

theorem mem_of_lookUpAll {ids found : List String} (h : Gate.lookUpAll outs ids = .ok found) :
    List.Forall₂ (fun id outId => (id, outId) ∈ outs) ids found := by
  induction ids generalizing found with
  | nil =>
    obtain rfl := Except.ok.inj h
    exact .nil
  | cons p rest ih =>
    obtain ⟨pair, more, hf, hrest, rfl⟩ := lookUpAll_cons_ok h
    obtain rfl : pair.1 = p := by simpa using List.find?_some hf
    exact .cons (List.mem_of_find?_eq_some hf) (ih hrest)

theorem lookUpAll_append {ids found : List String} (more : List (String × String))
    (h : Gate.lookUpAll outs ids = .ok found) : Gate.lookUpAll (outs ++ more) ids = .ok found := by
  induction ids generalizing found with
  | nil => exact h
  | cons id rest ih =>
    obtain ⟨pair, tail, hf, hr, rfl⟩ := lookUpAll_cons_ok h
    rw [Gate.lookUpAll, List.find?_append, hf]
    simp only [Option.some_or, ih hr]
    rfl

/-- More step ids change no gate that can be read already. -/
theorem anyChanged_append {deps : Option (List String)} {c : Option String}
    (more : List (String × String)) (h : Gate.anyChanged deps outs = .ok c) :
    Gate.anyChanged deps (outs ++ more) = .ok c := by
  unfold Gate.anyChanged at h ⊢
  cases deps with
  | none => exact h
  | some ids =>
    cases hl : Gate.lookUpAll outs ids with
    | error e => simp [hl, bind, Except.bind] at h
    | ok found =>
      simp only [hl] at h
      simp only [lookUpAll_append more hl]
      exact h

theorem BlockOf.append (h : BlockOf g outs id b) (more : List (String × String)) :
    BlockOf g (outs ++ more) id b := by
  cases h with
  | paths hn hk hc hp ho hs hv =>
    exact .paths hn hk (anyChanged_append more hc) hp (List.mem_append_left _ ho) hs hv
  | setup hn hk hc hs => exact .setup hn hk (anyChanged_append more hc) hs
  | step hn hk hc hv => exact .step hn hk (anyChanged_append more hc) hv

/-- Step ids for path checks among some nodes. -/
structure StepIds (outs : List (String × String)) (ids : List String) : Prop where
  keys : (outs.map Prod.fst).Sublist ids
  names : ∀ p ∈ outs, Registry.IsCandidate p.2

theorem stepIds_nil (ids : List String) : StepIds [] ids := ⟨List.nil_sublist ids, by simp⟩

theorem StepIds.append {ids ids' : List String} (h : StepIds outs ids) (h' : StepIds outs' ids') :
    StepIds (outs ++ outs') (ids ++ ids') := by
  refine ⟨by rw [List.map_append]; exact h.keys.append h'.keys, fun p hp => ?_⟩
  rcases List.mem_append.mp hp with hp | hp
  · exact h.names p hp
  · exact h'.names p hp

/-- Step ids belong to the patterns of their path checks. -/
def Owned (g : Graph) (r : Registry) (outs : List (String × String)) : Prop :=
  ∀ p ∈ outs, ∃ n patterns, g.find? p.1 = some n ∧ n.kind = .paths ∧
    (n.content.members >>= Value.strings) = .ok patterns ∧ r.owner? p.2 = some patterns

/-- Whatever has an owner keeps it. -/
def Keeps (r r' : Registry) : Prop :=
  ∀ id patterns, r.owner? id = some patterns → r'.owner? id = some patterns

theorem Owned.keeps (h : Owned g r outs) (hr : Keeps r r') : Owned g r' outs := by
  intro p hp
  obtain ⟨n, patterns, hn, hk, hpatterns, howner⟩ := h p hp
  exact ⟨n, patterns, hn, hk, hpatterns, hr _ _ howner⟩

theorem Owned.append (h : Owned g r outs) (h' : Owned g r outs') : Owned g r (outs ++ outs') :=
  fun p hp => (List.mem_append.mp hp).elim (h p) (h' p)

/-- A path check that became a block: its patterns were read and claimed a step id, and the check is
guarded. -/
theorem ofNode_paths_ok {c : Option String} (hk : n.kind = .paths)
    (hc : Gate.anyChanged n.pathDeps outs = .ok c)
    (h : exec (ofNode n outs) r = (.ok (b, outs'), r')) : ∃ patterns stepId check v,
      (n.content.members >>= Value.strings) = .ok patterns ∧ r.claim patterns = .ok (stepId, r') ∧
      Check.step stepId patterns = .ok check ∧ Gate.guardWith c (.record check) = .ok v ∧
      b = [v] ∧ outs' = outs ++ [(n.id, stepId)] := by
  have hpatterns : ∃ patterns, (n.content.members >>= Value.strings) = .ok patterns := by
    cases hp : n.content.members >>= Value.strings with
    | ok patterns => exact ⟨patterns, rfl⟩
    | error e =>
      rw [ofNode, hk, hc, exec_bind_ok (exec_liftM_ok c)] at h
      simp only [hp] at h
      cases h
  obtain ⟨patterns, hp⟩ := hpatterns
  rw [exec_ofNode_paths hk hc hp] at h
  cases hclaim : r.claim patterns with
  | error e => rw [hclaim] at h; cases h
  | ok answer =>
    obtain ⟨stepId, r₁⟩ := answer
    rw [hclaim] at h
    change ((Check.step stepId patterns).bind fun check => (Gate.guardWith c
      (.record check)).bind fun v => .ok ([v], outs ++ [(n.id, stepId)]), r₁) = _ at h
    cases hs : Check.step stepId patterns with
    | error e => rw [hs] at h; cases h
    | ok check =>
      rw [hs] at h
      change ((Gate.guardWith c (.record check)).bind fun v =>
        .ok ([v], outs ++ [(n.id, stepId)]), r₁) = _ at h
      cases hv : Gate.guardWith c (.record check) with
      | error e => rw [hv] at h; cases h
      | ok v =>
        rw [hv] at h
        cases h
        exact ⟨patterns, stepId, check, v, hp, hclaim, hs, hv, rfl, rfl⟩

/-- The steps of one node. -/
theorem ofNode_ok (hn : g.find? id = some n) (hid : n.id = id)
    (h : exec (ofNode n outs) r = (.ok (b, outs'), r')) :
    ∃ more, outs' = outs ++ more ∧ StepIds more [id] ∧ BlockOf g outs' id b ∧ Owned g r' more ∧
      Keeps r r' := by
  have hcond : ∃ c, Gate.anyChanged n.pathDeps outs = .ok c := by
    cases hc : Gate.anyChanged n.pathDeps outs with
    | ok c => exact ⟨c, rfl⟩
    | error e =>
      rw [ofNode, hc] at h
      cases h
  obtain ⟨c, hc⟩ := hcond
  cases hk : n.kind with
  | step =>
    rw [exec_ofNode_step hk, hc] at h
    change ((Gate.guardWith c n.content).bind fun v => .ok ([v], outs), r) = _ at h
    cases hv : Gate.guardWith c n.content with
    | error e => rw [hv] at h; cases h
    | ok v =>
      rw [hv] at h
      cases h
      exact ⟨[], by simp, stepIds_nil _, .step hn hk hc hv, nofun, fun _ _ ho => ho⟩
  | setup =>
    rw [exec_ofNode_setup hk, hc] at h
    change ((ofSetup (String.ofList (n.id.toList.drop (Graph.setupId "").length)) n.content
      c).bind fun steps => .ok (steps, outs), r) = _ at h
    cases hs : ofSetup (String.ofList (n.id.toList.drop (Graph.setupId "").length)) n.content c with
    | error e => rw [hs] at h; cases h
    | ok steps =>
      rw [hs] at h
      cases h
      exact ⟨[], by simp, stepIds_nil _, .setup hn hk hc (hid ▸ hs), nofun, fun _ _ ho => ho⟩
  | paths =>
    obtain ⟨patterns, stepId, check, v, hp, hclaim, hs, hv, rfl, rfl⟩ := ofNode_paths_ok hk hc h
    have hnew : StepIds [(n.id, stepId)] [id] :=
      ⟨by simp [hid], by simpa using Registry.isCandidate_of_claim hclaim⟩
    have howned : Owned g r' [(n.id, stepId)] := List.forall_mem_singleton.mpr
      ⟨n, patterns, hid.symm ▸ hn, hk, hp, Registry.owner_of_claim hclaim⟩
    exact ⟨[(n.id, stepId)], rfl, hnew,
      .paths hn hk (anyChanged_append _ hc) hp (by simp [hid]) hs hv, howned,
      fun _ _ => Registry.owner_kept hclaim⟩

theorem joinFrom_owned {ids : List String} {steps : List Value}
    (h : exec (joinFrom g outs ids) r = (.ok steps, r')) :
    ∃ blocks more, steps = blocks.flatten ∧ StepIds more ids ∧
      List.Forall₂ (BlockOf g (outs ++ more)) ids blocks ∧ Owned g r' more ∧ Keeps r r' := by
  induction ids generalizing outs r steps with
  | nil =>
    cases h
    exact ⟨[], [], rfl, stepIds_nil [], .nil, nofun, fun _ _ ho => ho⟩
  | cons id rest ih =>
    rw [joinFrom] at h
    cases hn : g.find? id with
    | none => simp only [hn] at h; cases h
    | some n =>
      simp only [hn] at h
      rw [exec_bind] at h
      rcases hex : exec (ofNode n outs) r with ⟨e | ⟨b, outs₁⟩, r₁⟩
      · rw [hex] at h
        cases h
      · rw [hex] at h
        dsimp only at h
        rw [exec_bind] at h
        rcases hrest : exec (joinFrom g outs₁ rest) r₁ with ⟨e | more, r₂⟩
        · rw [hrest] at h
          cases h
        · rw [hrest] at h
          cases h
          obtain ⟨new, rfl, hnew, hb, howned, hkeeps⟩ := ofNode_ok hn (Graph.id_of_find? hn) hex
          obtain ⟨blocks, new', rfl, hnew', hall, howned', hkeeps'⟩ := ih hrest
          refine ⟨b :: blocks, new ++ new', rfl, hnew.append hnew', ?_,
            (howned.keeps hkeeps').append howned', fun _ _ ho => hkeeps' _ _ (hkeeps _ _ ho)⟩
          rw [← List.append_assoc]
          exact .cons (hb.append new') hall

/-- **Joining nodes gives one block for each, in order.** -/
theorem joinFrom_ok {ids : List String} {steps : List Value}
    (h : exec (joinFrom g outs ids) r = (.ok steps, r')) :
    ∃ blocks more, steps = blocks.flatten ∧ StepIds more ids ∧
      List.Forall₂ (BlockOf g (outs ++ more)) ids blocks := by
  obtain ⟨blocks, more, hsteps, hids, hall, -⟩ := joinFrom_owned h
  exact ⟨blocks, more, hsteps, hids, hall⟩

end Block

end StepLoom
