import StepLoom.Proofs.Compile.Copies
import StepLoom.Proofs.Compile.Faults
import StepLoom.Proofs.Graph.Ordering
import StepLoom.Proofs.Graph.Regular
import StepLoom.Proofs.Job

/-!
# Gates and the path checks they name

A gate reads the outputs of path checks through their step ids. The ids are handed out while the
blocks of nodes are joined, so a gate can only be written once all its path checks have their
blocks.

**Theorem (`gates_in_scope`).** However a job's graph was built, no gate lacks the id of a path
check, and each id that a gate names is that of a path check further up.
-/

namespace StepLoom

open Value Relation

namespace Block

open StepLoom.Graph (IsCheck)

variable {g : Graph} {n : Node} {outs outs' : List (String × String)} {r r' : Registry}
  {ids done rest l found : List String} {b : List Value} {blocks : List (List Value)} {x p : String}

/-- The gate of each node names the step ids of path checks whose blocks come earlier. -/
def InScope (g : Graph) (ids : List String) (outs : List (String × String))
    (blocks : List (List Value)) : Prop :=
  ∀ (k : Nat) (x : String) (n : Node) (l : List String), ids[k]? = some x → g.find? x = some n →
    n.pathDeps = some l →
    ∃ found, Gate.anyChanged (some l) outs =
        .ok (some (" || ".intercalate (found.map Gate.changed))) ∧
      List.Forall₂ (fun p outId => ∃ j < k, ids[j]? = some p ∧ ∃ patterns check v,
        Check.step outId patterns = .ok check ∧ blocks[j]? = some [v] ∧
        Same ["if"] (.record check) v ∧ v.part "id" = some (.str outId)) l found

/-! ## Step ids that are known -/

/-- The gate of a block can be read. -/
theorem BlockOf.gate (h : BlockOf g outs x b) (hn : g.find? x = some n) :
    ∃ c, Gate.anyChanged n.pathDeps outs = .ok c := by
  cases h with
  | paths hm _ hc | setup hm _ hc | step hm _ hc =>
    obtain rfl := Option.some.inj (hn.symm.trans hm)
    exact ⟨_, hc⟩

/-- The block of a path check is the step with its id. -/
theorem BlockOf.check (h : BlockOf g outs x b) (hn : g.find? x = some n) (hk : n.kind = .paths) :
    ∃ outId patterns check v, (x, outId) ∈ outs ∧ Check.step outId patterns = .ok check ∧ b = [v] ∧
      Same ["if"] (.record check) v := by
  cases h with
  | step hm hk' | setup hm hk' =>
    obtain rfl := Option.some.inj (hn.symm.trans hm)
    cases hk.symm.trans hk'
  | paths hm _ _ _ ho hs hv => exact ⟨_, _, _, _, ho, hs, rfl, guardWith_ok hv ⟨_, rfl⟩⟩

/-- What a node waits for among path checks has its step id when the node's turn comes. -/
theorem anyChanged_of_done (hg : g.Scoped) (hn : g.find? x = some n)
    (hdone : ∀ y, g.Waits x y → y ∈ done)
    (hknown : ∀ p ∈ done, IsCheck p → ∃ outId, (p, outId) ∈ outs) :
    ∃ c, Gate.anyChanged n.pathDeps outs = .ok c := by
  refine anyChanged_total fun l hd p hp => ?_
  obtain ⟨hbefore, hcheck⟩ := hg.deps (Graph.look_of_find? hn) hd p hp
  exact hknown p (hdone p ⟨n, hn, hbefore⟩) hcheck

/-- **No gate lacks a step id**, whatever else the blocks may fail of. -/
theorem joinFrom_found (hg : g.Scoped) (hord : g.InOrder done rest) (hhas : ∀ x ∈ rest, g.has x)
    (hknown : ∀ p ∈ done, IsCheck p → ∃ outId, (p, outId) ∈ outs) :
    Ensures (joinFrom g outs rest) r (fun _ _ => True) (· ≠ .missingKey) := by
  induction rest generalizing done outs r with
  | nil => exact ensures_pure trivial
  | cons x rest ih =>
    obtain ⟨n, hn⟩ := Graph.has_iff.mp (hhas x (by simp))
    obtain ⟨c, hc⟩ := anyChanged_of_done hg hn hord.1 hknown
    rw [joinFrom]
    simp only [hn]
    refine (ofNode_found hc).with_exec.bind fun answer r' hex => ?_
    obtain ⟨b, outs'⟩ := answer
    obtain ⟨more, rfl, -, hb, -⟩ := ofNode_ok hn (Graph.id_of_find? hn) hex.1
    have hx : IsCheck x → ∃ outId, (x, outId) ∈ outs ++ more := by
      intro hcheck
      have hkind := (hg.kinds (Graph.look_of_find? hn)).mpr hcheck
      obtain ⟨outId, -, -, -, hmem, -⟩ := hb.check hn hkind
      exact ⟨outId, hmem⟩
    have hrest := ih (r := r') hord.2 (fun y hy => hhas y (List.mem_cons_of_mem x hy))
      (known_cons more hknown hx)
    exact hrest.bind fun _ _ _ => ensures_pure trivial

/-- Blocks that were joined in order have their gates in scope. -/
theorem inScope_of_blocks (hg : g.Scoped) (hnd : ids.Nodup) (hord : g.InOrder [] ids)
    (hids : StepIds outs ids) (hall : List.Forall₂ (BlockOf g outs) ids blocks) :
    InScope g ids outs blocks := by
  intro k x n l hx hn hl
  obtain ⟨b, -, hb⟩ := forall₂_getElem? hall hx
  obtain ⟨c, hc⟩ := hb.gate hn
  obtain ⟨found, hfound⟩ : ∃ found, Gate.lookUpAll outs l = .ok found := by
    cases h : Gate.lookUpAll outs l with
    | ok found => exact ⟨found, rfl⟩
    | error e => simp [hl, Gate.anyChanged, h, bind, Except.bind] at hc
  have hkeys := hids.keys.nodup hnd
  have hmem := List.mem_of_getElem? hx
  have hk : ids.idxOf x = k := by
    obtain ⟨hlt, rfl⟩ := List.getElem?_eq_some_iff.mp hx
    exact hnd.idxOf_getElem k hlt
  have hlookup : List.Forall₂ (fun p outId => p ∈ l ∧ (p, outId) ∈ outs) l found :=
    (List.forall₂_and_left _ _).mpr ⟨fun _ hp => hp, mem_of_lookUpAll hfound⟩
  refine ⟨found, by rw [Gate.anyChanged, hfound]; rfl, hlookup.imp fun p outId h => ?_⟩
  obtain ⟨hp, hout⟩ := h
  -- The node waits for the path check, so the check comes first.
  obtain ⟨hbefore, hcheck⟩ := hg.deps (Graph.look_of_find? hn) hl p hp
  obtain ⟨hpids, hlt⟩ := hord.idxOf_lt hnd hmem (.single ⟨n, hn, hbefore⟩)
  have hj : ids[ids.idxOf p]? = some p := List.getElem?_idxOf hpids
  obtain ⟨b', hb', hblock⟩ := forall₂_getElem? hall hj
  obtain ⟨m, hm⟩ := Graph.has_iff.mp (hg.wf.has_of_waits ⟨n, hn, hbefore⟩)
  obtain ⟨outId', patterns, check, v, hmem', hstep, rfl, hsame⟩ :=
    hblock.check hm ((hg.kinds (Graph.look_of_find? hm)).mpr hcheck)
  obtain rfl : outId' = outId :=
    (Prod.mk.inj (List.inj_on_of_nodup_map hkeys hmem' hout rfl)).2
  exact ⟨_, hk ▸ hlt, hj, patterns, check, v, hstep, hb', hsame, id_of_check hstep hsame⟩

end Block

/-- **Gates are in scope.** -/
theorem gates_in_scope {table job : Value} {g : Graph} {left : Value × List Edit}
    {ids : List String} (hof : Graph.ofJob table job = .ok (g, left)) (ho : g.order = .ok ids)
    (r : Registry) :
    Ensures (Block.join g ids) r (fun steps _ => ∃ outs blocks, steps = blocks.flatten ∧
      List.Forall₂ (Block.BlockOf g outs) ids blocks ∧ Block.InScope g ids outs blocks)
      (· ≠ .missingKey) := by
  have hg := Graph.scoped_of_ofJob hof
  obtain ⟨hnd, hmem, hord⟩ := Graph.order_ok hg.wf ho
  have hfound : Ensures (Block.join g ids) r (fun _ _ => True) (· ≠ .missingKey) :=
    Block.joinFrom_found hg hord (fun x hx => (hmem x).mp hx) (by simp)
  refine hfound.with_exec.mono (fun steps r' ⟨hex, _⟩ => ?_) fun e he => he
  obtain ⟨blocks, outs, rfl, hids, hall⟩ := Block.joinFrom_ok hex
  exact ⟨outs, blocks, rfl, hall, Block.inScope_of_blocks hg hnd hord hids hall⟩

theorem gates_in_scope_sample : ∃ (g : Graph) (left : Value × List Edit) (ids : List String)
    (steps : List Value) (r' : Registry),
    Graph.ofJob Job.sampleTable Job.sampleJob = .ok (g, left) ∧ g.order = .ok ids ∧
    exec (Block.join g ids) {} = (.ok steps, r') ∧ steps.length = 6 ∧
    (∃ n, g.find? (Graph.setupId "tools") = some n ∧
      n.pathDeps = some ["paths-src/*", "paths-docs/*"]) ∧
    ∃ outs blocks, steps = blocks.flatten ∧ Block.InScope g ids outs blocks := by
  have hdeps : ((Graph.ofJob Job.sampleTable Job.sampleJob).toOption.bind
      fun r => r.1.find? (Graph.setupId "tools")).map (·.pathDeps) =
      some (some ["paths-src/*", "paths-docs/*"]) := by decide
  have hlen : ((Graph.ofJob Job.sampleTable Job.sampleJob).toOption.bind fun r =>
      r.1.order.toOption.bind fun ids =>
        (exec (Block.join r.1 ids) {}).1.toOption.map List.length) = some 6 := by decide
  cases hof : Graph.ofJob Job.sampleTable Job.sampleJob with
  | error e => rw [hof] at hdeps; cases hdeps
  | ok made =>
    obtain ⟨g, left⟩ := made
    rw [hof] at hdeps hlen
    cases ho : g.order with
    | error e => simp [Except.toOption, ho] at hlen
    | ok ids =>
      rcases hjoin : exec (Block.join g ids) {} with ⟨e | steps, r'⟩
      · simp [Except.toOption, ho, hjoin] at hlen
      · obtain ⟨outs, blocks, hsteps, -, hscope⟩ := (gates_in_scope hof ho {}).of_ok hjoin
        obtain ⟨n, hn, hd⟩ := Option.map_eq_some_iff.mp hdeps
        exact ⟨g, left, ids, steps, r', rfl, ho, hjoin,
          by simpa [Except.toOption, ho, hjoin] using hlen, ⟨n, hn, hd⟩, outs, blocks, hsteps,
          hscope⟩

end StepLoom
