import StepLoom.Proofs.Graph.Ordering
import StepLoom.Proofs.Graph.Steps
import StepLoom.Proofs.Sharing.Places

/-!
# The graph of steady steps

A *steady* step has no keys that concern the tool, and compiling writes it back as it is. A job of
such steps only needs no setups and no path checks, so its graph is a chain: each step waits for the
one before it, and the order is that of the steps.

**Theorem (`exec_addSteps`).** Adding steady steps gives their chain, the same steps, and edits that
write mappings back.

**Theorem (`IsChain.order`).** The order of a chain is that of its steps.
-/

namespace StepLoom

open Value

variable {own : Edit → Prop} {table v : Value} {vs rest : List Value} {fields : Fields}
  {edits log : List Edit} {x y : String}

/-- The step carries no keys that concern the tool, and writing it back leaves it as it is. -/
def Step.Steady (own : Edit → Prop) (step : Value) : Prop :=
  ∃ fields, Opens own step fields ∧ Fields.get? "bail_if" fields = none ∧
    ∀ key ∈ Graph.extensionKeys, Fields.get? key fields = none

theorem Step.Steady.stays (h : Step.Steady own v) : v.Stays own := by
  obtain ⟨fields, hopens, -⟩ := h
  exact hopens.stays

namespace Graph

variable {g g' : Graph} {i : Nat}

/-! ## Contents that stay -/

/-- All contents stay as they are. -/
def Steady (own : Edit → Prop) (g : Graph) : Prop := ∀ n ∈ g.nodes, n.content.Stays own

theorem Steady.replay (h : g.Steady own) (he : ∀ e ∈ edits, own e) :
    exec (replay edits) g = (.ok (), g) := by
  have hsame : g.applyAll edits = g := by
    rw [applyAll]
    congr 1
    refine (List.map_congr_left fun n hn => ?_).trans (List.map_id _)
    rw [(h n hn).applyAll he]
    rfl
  rw [Graph.replay, exec_modify, hsame]

theorem Steady.update {f : Node → Node} (h : g.Steady own)
    (hf : ∀ n, n.content.Stays own → (f n).content.Stays own) : (g.update x f).Steady own := by
  intro m hm
  obtain ⟨n, hn, rfl⟩ := mem_update hm
  split_ifs
  · exact hf n (h n hn)
  · exact h n hn

theorem Steady.setContent (h : g.Steady own) (hv : v.Stays own) : (g.setContent x v).Steady own :=
  h.update fun _ _ => hv

theorem Steady.linkPrior (h : g.Steady own) : (g.linkPrior i).Steady own := by
  unfold Graph.linkPrior
  split_ifs
  · exact Steady.update (Steady.update h fun _ hn => hn) fun _ hn => hn
  · exact h

/-! ## Chains -/

/-- The steps that the `i`-th step of a chain waits for. -/
def prior (i : Nat) : List String := if 0 < i then [stepId (i - 1)] else []

/-- The nodes are steps, each of them waits for the one before it, and all always run. -/
structure IsChain (own : Edit → Prop) (vs : List Value) (g : Graph) : Prop where
  wf : g.WellFormed
  steady : g.Steady own
  has : ∀ x, g.has x ↔ ∃ i < vs.length, x = stepId i
  look : ∀ i v, vs[i]? = some v →
    g.look (stepId i) = some ⟨stepId i, .step, v, none, prior i, []⟩

theorem isChain_empty (own : Edit → Prop) : IsChain own [] {} where
  wf := wellFormed_empty
  steady n hn := by cases hn
  has x := by simp [Graph.has, find?]
  look i v hv := by simp at hv

theorem IsChain.waits (h : IsChain own vs g) (hi : i < vs.length) :
    g.Waits (stepId i) y ↔ 0 < i ∧ y = stepId (i - 1) := by
  rw [waits_iff_look, h.look i _ (List.getElem?_eq_getElem hi)]
  simp only [Option.some.injEq, exists_eq_left', prior]
  split_ifs with hpos <;> simp [hpos]

theorem IsChain.node (h : IsChain own vs g) (hv : vs[i]? = some v) : ∃ n,
    g.find? (stepId i) = some n ∧ n.kind = .step ∧ n.content = v ∧ n.pathDeps = none := by
  obtain ⟨n, hn, hbare⟩ := Option.map_eq_some_iff.mp (h.look i v hv)
  obtain ⟨-, hkind, hcontent, hdeps, -⟩ := Node.mk.inj hbare
  exact ⟨n, hn, hkind, hcontent, hdeps⟩

theorem IsChain.kind (h : IsChain own vs g) {n : Node} (hn : n ∈ g.nodes) : n.kind = .step := by
  have hfind := h.wf.find?_of_mem hn
  obtain ⟨i, hi, hid⟩ := (h.has n.id).mp (has_iff.mpr ⟨n, hfind⟩)
  obtain ⟨m, hm, hkind, -⟩ := h.node (List.getElem?_eq_getElem hi)
  rw [hid, hm] at hfind
  rw [← Option.some.inj hfind, hkind]

/-! ## Adding steps -/

theorem IsChain.new (h : IsChain own vs g) : ¬ g.has (stepId vs.length) := by
  rw [h.has]
  rintro ⟨i, hi, heq⟩
  exact absurd (stepId_inj.mp heq) hi.ne'

/-- The graph with one more step, which does not wait for anything yet. -/
def placePlain (i : Nat) (v : Value) (g : Graph) : Graph :=
  ((g.addFresh (stepId i) .step v []).setContent (stepId i) v).setContent (stepId i) v

/-- The graph with one more step in the chain. -/
def addPlain (i : Nat) (v : Value) (g : Graph) : Graph := (g.placePlain i v).linkPrior i

theorem IsChain.has_placePlain (h : IsChain own vs g) :
    (g.placePlain vs.length v).has x ↔ g.has x ∨ x = stepId vs.length := by
  rw [placePlain, has_setContent, has_setContent, has_addFresh h.new]

/-- The ends of the edge to the step before. -/
theorem IsChain.has_ends (h : IsChain own vs g) (hpos : 0 < vs.length) :
    (g.placePlain vs.length v).has (stepId vs.length) ∧
      (g.placePlain vs.length v).has (stepId (vs.length - 1)) := by
  rw [h.has_placePlain, h.has_placePlain, h.has (stepId (vs.length - 1))]
  exact ⟨Or.inr rfl, Or.inl ⟨vs.length - 1, by omega, rfl⟩⟩

theorem IsChain.steady_addFresh (h : IsChain own vs g) (hv : v.Stays own) :
    (g.addFresh (stepId vs.length) .step v []).Steady own := by
  intro n hn
  rcases List.mem_append.mp hn with hn | hn
  · exact h.steady n hn
  · rw [List.mem_singleton.mp hn]
    exact hv

theorem IsChain.wf_addPlain (h : IsChain own vs g) : (g.addPlain vs.length v).WellFormed := by
  have hset : ∀ {g : Graph}, g.WellFormed → (g.setContent (stepId vs.length) v).WellFormed :=
    fun hg => hg.update_inner ⟨by intro; rfl, by intro; rfl, by intro; rfl⟩
  have hwf : (g.placePlain vs.length v).WellFormed :=
    hset (hset (h.wf.addFresh h.new (List.forall_mem_nil _)))
  unfold addPlain linkPrior
  split_ifs with hpos
  · exact hwf.link (h.has_ends hpos).1 (h.has_ends hpos).2
  · exact hwf

theorem IsChain.addPlain (h : IsChain own vs g) (hv : v.Stays own) :
    IsChain own (vs ++ [v]) (g.addPlain vs.length v) where
  wf := h.wf_addPlain
  steady := (((h.steady_addFresh hv).setContent hv).setContent hv).linkPrior
  has x := by
    rw [Graph.addPlain, has_linkPrior, h.has_placePlain, h.has, List.length_append,
      List.length_singleton, Nat.exists_lt_succ_right]
  look i w hw := by
    rw [Graph.addPlain, look_linkPrior, placePlain, look_setContent, look_setContent,
      look_addFresh h.new]
    rcases Nat.lt_or_ge i vs.length with hi | hi
    · have hne : stepId i ≠ stepId vs.length := fun heq => hi.ne (stepId_inj.mp heq)
      rw [List.getElem?_append_left hi] at hw
      simp [hne, h.look i w hw]
    · obtain ⟨hlt, -⟩ := List.getElem?_eq_some_iff.mp hw
      obtain rfl : i = vs.length := by
        rw [List.length_append, List.length_singleton] at hlt
        omega
      obtain rfl : v = w := by simpa using hw
      simp only [if_true, Option.map_some, and_true, prior]
      split_ifs <;> rfl

theorem eraseAll_of_steady {fields : Fields}
    (h : ∀ key ∈ extensionKeys, Fields.get? key fields = none) :
    extensionKeys.foldl (fun fs k => Fields.erase k fs) fields = fields := by
  have hgone : ∀ a, .str a ∈ extensionKeys → Fields.erase (.str a) fields = fields :=
    fun _ ha => Fields.erase_of_get?_none (h _ ha)
  simp only [extensionKeys] at hgone ⊢
  simp only [List.foldl_cons, List.foldl_nil]
  rw [hgone "setup" (by simp), hgone "paths" (by simp), hgone "local" (by simp),
    hgone "local_env_flag" (by simp), hgone "local_cache_directory" (by simp)]

/-- **Adding a steady step** to a chain. -/
theorem exec_addStep (table : Value) (h : IsChain own vs g) (hv : Step.Steady own v) :
    ∃ edits, (∀ e ∈ edits, own e) ∧
      exec (addStep table vs.length v) g = (.ok (v, edits), g.addPlain vs.length v) := by
  obtain ⟨fields, hopens, -, hkeys⟩ := hv
  have hpaths : v.take "paths" = .ok (none, fields) := hopens.take (hkeys _ (by decide))
  have hsetup : Fields.get? "setup" fields = none := hkeys _ (by decide)
  obtain ⟨edits, hwith⟩ : ∃ edits, v.withFields fields = (v, edits) :=
    ⟨_, Prod.ext hopens.itself rfl⟩
  have hedits : ∀ e ∈ edits, own e := fun e he => hopens.edits e (by rwa [hwith])
  have hplaced := (h.steady_addFresh hopens.stays).setContent hopens.stays (x := stepId vs.length)
  have hnew : (!g.has (stepId vs.length)) = true := by simpa using h.new
  refine ⟨edits, hedits, ?_⟩
  rw [addStep, hpaths, exec_bind_ok (exec_liftM_ok _)]
  dsimp only
  rw [show Value.oneOrMany none = .ok [] from rfl, exec_bind_ok (exec_liftM_ok _)]
  simp only [List.isEmpty_nil, if_true, pure_bind, hsetup, eraseAll_of_steady hkeys,
    Fields.erase_of_get?_none hsetup, hwith]
  rw [exec_bind_ok exec_get, exec_bind_ok (exec_addNode_new h.new (by simp)), hnew]
  rw [exec_bind_ok exec_refresh_new, exec_bind_ok (hplaced.replay hedits)]
  rw [exec_bind_ok (show exec (awaitSetups _ _ none []) _ = (.ok (), _) from rfl)]
  rw [exec_bind_ok exec_refresh_new,
    exec_bind_ok ((hplaced.setContent hopens.stays).replay hedits)]
  unfold addPlain linkPrior
  split_ifs with hpos
  · exact (exec_bind_ok (exec_addEdge (h.has_ends hpos).1 (h.has_ends hpos).2)).trans rfl
  · rfl

/-- **Adding steady steps.** -/
theorem exec_addSteps (table : Value) (h : IsChain own vs g) (hlog : ∀ e ∈ log, own e)
    (hrest : ∀ v ∈ rest, Step.Steady own v) : ∃ edits g', (∀ e ∈ edits, own e) ∧
      exec (addSteps table vs.length rest log) g = (.ok (rest, edits), g') ∧
      IsChain own (vs ++ rest) g' := by
  induction rest generalizing vs g log with
  | nil => exact ⟨[], g, by simp, rfl, by rwa [List.append_nil]⟩
  | cons v rest ih =>
    obtain ⟨hv, hrest⟩ := List.forall_mem_cons.mp hrest
    obtain ⟨edits, hedits, hadd⟩ := exec_addStep (table.applyAll log) h hv
    have hmade : ∀ e ∈ log ++ edits, own e := List.forall_mem_append.mpr ⟨hlog, hedits⟩
    obtain ⟨more, g', hmore, hsteps, hchain⟩ := ih (h.addPlain hv.stays) hmade hrest
    rw [List.length_append, List.length_singleton] at hsteps
    rw [List.append_assoc] at hchain
    refine ⟨edits ++ more, g', List.forall_mem_append.mpr ⟨hedits, hmore⟩, ?_, hchain⟩
    rw [addSteps, hv.stays.applyAll hlog, exec_bind_ok hadd]
    dsimp only
    rw [exec_bind_ok hsteps, exec_pure, hv.stays.applyAll hmore]

/-- No path check waits for the checkout. -/
theorem IsChain.awaitCheckout (h : IsChain own vs g) : exec awaitCheckout g = (.ok (), g) := by
  have hnone : ∀ ns : List Node, (∀ n ∈ ns, n.kind = .step) →
      exec (awaitCheckoutFrom ns) g = (.ok (), g) := by
    intro ns hns
    induction ns with
    | nil => rfl
    | cons n ns ih =>
      obtain ⟨hn, hns⟩ := List.forall_mem_cons.mp hns
      rw [awaitCheckoutFrom, if_neg (by rw [hn]; decide)]
      exact ih hns
  rw [Graph.awaitCheckout, exec_bind_ok exec_get]
  exact hnone g.nodes fun n hn => h.kind hn

/-! ## The order of a chain -/

/-- What is in order in a chain, from its `k`-th step on, is the steps from there on. -/
theorem IsChain.eq_of_inOrder (h : IsChain own vs g) {done xs : List String} {k m : Nat}
    (hord : g.InOrder done xs) (hnd : xs.Nodup) (hlen : k + m = vs.length)
    (hdone : ∀ i, stepId i ∈ done ↔ i < k)
    (hxs : ∀ x, x ∈ xs ↔ ∃ i, k ≤ i ∧ i < vs.length ∧ x = stepId i) :
    xs = (List.range' k m).map stepId := by
  induction m generalizing k done xs with
  | zero =>
    refine List.eq_nil_iff_forall_not_mem.mpr fun x hx => ?_
    obtain ⟨i, hk, hi, -⟩ := (hxs x).mp hx
    omega
  | succ m ih =>
    have hfirst : stepId k ∈ xs := (hxs _).mpr ⟨k, Nat.le_refl k, by omega, rfl⟩
    obtain ⟨x, rest, rfl⟩ := List.exists_cons_of_ne_nil (List.ne_nil_of_mem hfirst)
    obtain ⟨hx, hrest⟩ := List.nodup_cons.mp hnd
    obtain ⟨i, hk, hi, rfl⟩ := (hxs x).mp (by simp)
    -- The step before the first one is done, so the first one is the `k`-th.
    obtain rfl : k = i := by
      by_contra hne
      have hwait : g.Waits (stepId i) (stepId (i - 1)) := (h.waits hi).mpr ⟨by omega, rfl⟩
      have hlt := (hdone _).mp (hord.1 _ hwait)
      omega
    rw [List.range'_succ, List.map_cons,
      ← ih (k := k + 1) hord.2 hrest (by omega) (fun j => ?_) fun y => ?_]
    · rw [List.mem_cons, hdone, stepId_inj]
      omega
    · constructor
      · intro hy
        obtain ⟨j, hkj, hj, rfl⟩ := (hxs y).mp (List.mem_cons_of_mem _ hy)
        refine ⟨j, ?_, hj, rfl⟩
        have hne : j ≠ k := fun heq => hx (heq ▸ hy)
        omega
      · rintro ⟨j, hkj, hj, rfl⟩
        have hmem := (hxs (stepId j)).mpr ⟨j, by omega, hj, rfl⟩
        refine (List.mem_cons.mp hmem).resolve_left fun heq => ?_
        have := stepId_inj.mp heq
        omega

/-- **The order of a chain** is that of its steps. -/
theorem IsChain.order (h : IsChain own vs g) :
    g.order = .ok ((List.range' 0 vs.length).map stepId) := by
  rcases order_cases h.wf with ⟨xs, hxs, hnd, hmem, hord⟩ | ⟨edges, -, x, hx, hcycle⟩
  · rw [hxs, h.eq_of_inOrder hord hnd (k := 0) (m := vs.length) (by omega) (by simp) fun x => ?_]
    rw [hmem, h.has]
    simp
  · -- Each step waits for a step of a smaller index only, so there is no cycle.
    have hless : ∀ {a b}, Relation.TransGen g.Waits a b →
        ∃ i j, a = stepId i ∧ b = stepId j ∧ i < vs.length ∧ j < i := by
      intro a b hab
      induction hab with
      | single hw =>
        obtain ⟨i, hi, rfl⟩ := (h.has _).mp hw.has
        obtain ⟨hpos, rfl⟩ := (h.waits hi).mp hw
        exact ⟨i, i - 1, rfl, rfl, hi, by omega⟩
      | tail _ hw ih =>
        obtain ⟨i, j, rfl, rfl, hi, hj⟩ := ih
        obtain ⟨hpos, rfl⟩ := (h.waits (by omega)).mp hw
        exact ⟨i, j - 1, rfl, rfl, hi, by omega⟩
    obtain ⟨i, j, hi, hj, -, hlt⟩ := hless hcycle
    have := stepId_inj.mp (hi.symm.trans hj)
    omega

end Graph

end StepLoom
