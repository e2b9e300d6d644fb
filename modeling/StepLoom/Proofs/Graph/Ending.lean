import StepLoom.Proofs.Graph.Building
import StepLoom.Proofs.Graph.Ordering
import StepLoom.Proofs.Graph.TwoTables
import StepLoom.Proofs.Marks

/-!
# Building a graph always ends

Two things repeat while a graph is built: a walk goes on as long as there are nodes on its stack,
and a reference leads to more references.

**The walk** (`Walk`). The rules of the walk know of no bound. They lead from every start on every
graph to an end: a visit leaves what other nodes wait for as it is, so each node puts what it waits
for on the stack once.

**The references.** A reference is followed only when a node for its setup has just been added, so
the names without a node get fewer. The program stops with a fault of its own if references are
nested deeper than it expects, and it never does (`useSetup_ends`).

**Theorem (`building_ends`).** Whatever the table and the job, each reference and each walk comes to
an end, on any graph, and adds each setup once at most. So building the graph of the job and putting
it in order ends, too, with an order or a fault.
-/

namespace StepLoom

namespace Graph

variable {α β : Type} {x y : String} {k l : Nat} {g g' g'' : Graph} {ids stack seen : List String}

/-! ## The rules of a walk -/

/-- A walk with a stack of nodes, past those that it has seen, and what it comes to. -/
inductive Walk (ids : List String) :
    (stack seen : List String) → Graph → Except Fault Unit × Graph → Prop
  | done {seen : List String} {g : Graph} : Walk ids [] seen g (.ok (), g)
  | skip {x : String} {stack seen : List String} {g : Graph} {r : Except Fault Unit × Graph}
      (hx : x ∈ seen) (h : Walk ids stack seen g r) : Walk ids (x :: stack) seen g r
  | visit {x : String} {stack seen next : List String} {g g' : Graph}
      {r : Except Fault Unit × Graph} (hx : x ∉ seen)
      (hvisit : exec (revisit ids x) g = (.ok next, g'))
      (h : Walk ids (next ++ stack) (x :: seen) g' r) : Walk ids (x :: stack) seen g r
  | fail {x : String} {stack seen : List String} {g g' : Graph} {e : Fault} (hx : x ∉ seen)
      (hvisit : exec (revisit ids x) g = (.error e, g')) :
      Walk ids (x :: stack) seen g (.error e, g')

/-! ## What a visit changes -/

/-- A change around one node: all ids stay, and no other node waits for more. The node itself waits
for `k` nodes more at most. -/
def Around (x : String) (k : Nat) (g g' : Graph) : Prop :=
  ∃ f : Node → Node, g'.nodes = g.nodes.map f ∧ ∀ n, (f n).id = n.id ∧
    (n.id ≠ x → (f n).before = n.before) ∧ (f n).before.length ≤ n.before.length + k

theorem Around.refl (x : String) (g : Graph) : Around x 0 g g :=
  ⟨id, (List.map_id _).symm, fun _ => ⟨rfl, fun _ => rfl, Nat.le_refl _⟩⟩

theorem Around.trans (h : Around x k g g') (h' : Around x l g' g'') : Around x (k + l) g g'' := by
  obtain ⟨f, hf, hkeep⟩ := h
  obtain ⟨f', hf', hkeep'⟩ := h'
  refine ⟨f' ∘ f, by rw [hf', hf, List.map_map], fun n => ?_⟩
  obtain ⟨hid, hbefore, hlength⟩ := hkeep n
  obtain ⟨hid', hbefore', hlength'⟩ := hkeep' (f n)
  refine ⟨hid'.trans hid, fun hx => ?_, ?_⟩
  · exact (hbefore' (by rwa [hid])).trans (hbefore hx)
  · rw [Function.comp]
    omega

theorem Around.mono (h : Around x k g g') (hkl : k ≤ l) : Around x l g g' := by
  obtain ⟨f, hf, hkeep⟩ := h
  refine ⟨f, hf, fun n => ?_⟩
  obtain ⟨hid, hbefore, hlength⟩ := hkeep n
  exact ⟨hid, hbefore, by omega⟩

theorem around_update {f : Node → Node} (hid : ∀ n, (f n).id = n.id)
    (hbefore : y ≠ x → ∀ n, (f n).before = n.before)
    (hlength : ∀ n, (f n).before.length ≤ n.before.length + k) : Around x k g (g.update y f) := by
  refine ⟨fun n => if n.id = y then f n else n, rfl, fun n => ?_⟩
  dsimp only
  split_ifs with hy
  · exact ⟨hid n, fun hx => hbefore (hy ▸ hx) n, hlength n⟩
  · exact ⟨rfl, fun _ => rfl, Nat.le_add_right _ _⟩

/-- The work only changes the graph around one node. -/
def Turns (x : String) (k : Nat) (w : Build α) : Prop := ∀ g, Around x k g (exec w g).2

theorem Turns.bind {w : Build α} {f : α → Build β} (hw : Turns x k w) (hf : ∀ a, Turns x l (f a)) :
    Turns x (k + l) (w >>= f) := by
  intro g
  have hg := hw g
  rw [exec_bind]
  rcases hexec : exec w g with ⟨e | a, g₁⟩
  · rw [hexec] at hg
    exact hg.mono (Nat.le_add_right k l)
  · rw [hexec] at hg
    exact hg.trans (hf a g₁)

theorem turns_pure (a : α) : Turns x 0 (pure a : Build α) := fun g => .refl x g

theorem turns_discard_node (y : String) : Turns x 0 (discard (node y)) := by
  intro g
  rw [exec_discard]
  cases hy : g.find? y with
  | some n =>
    rw [exec_node hy]
    exact .refl x g
  | none =>
    rw [exec_node_none (not_has_iff.mpr hy)]
    exact .refl x g

theorem turns_modify {f : Graph → Graph} (h : ∀ g, Around x k g (f g)) : Turns x k (modify f) := h

theorem turns_addEdge (x y : String) : Turns x 1 (addEdge x y) := by
  have hbefore : Turns x 1 (modify (update x fun n => { n with before := addOnce y n.before })) :=
    turns_modify fun g => around_update (fun _ => rfl) (fun hx => absurd rfl hx) fun n =>
      length_addAll_le n.before [y]
  have hafter : Turns x 0 (modify (update y fun n => { n with after := addOnce x n.after })) :=
    turns_modify fun g => around_update (fun _ => rfl) (fun _ _ => rfl) fun _ => Nat.le_refl _
  have hall : Turns x (0 + (1 + (0 + 0))) (addEdge x y) :=
    (turns_discard_node x).bind fun _ => hbefore.bind fun _ => (turns_discard_node y).bind fun _ =>
      hafter
  exact hall

theorem turns_conditionOn (x : String) (ids : List String) :
    Turns x ids.length (conditionOn x ids) := by
  induction ids with
  | nil => exact turns_pure ()
  | cons p rest ih =>
    have hdeps : Turns x 0 (modify (update x fun n =>
        { n with pathDeps := n.pathDeps.map (addOnce p) })) :=
      turns_modify fun g => around_update (fun _ => rfl) (fun _ _ => rfl) fun _ => Nat.le_refl _
    have hall : Turns x (0 + (1 + rest.length)) (conditionOn x (p :: rest)) :=
      hdeps.bind fun _ => (turns_addEdge x p).bind fun _ => ih
    rwa [Nat.zero_add, Nat.add_comm] at hall

/-- The node under the id, after a change around it. -/
theorem Around.find? (h : Around x k g g') {n : Node} (hn : g.find? x = some n) :
    ∃ n', g'.find? x = some n' ∧ n'.before.length ≤ n.before.length + k := by
  obtain ⟨f, hf, hkeep⟩ := h
  refine ⟨f n, ?_, (hkeep n).2.2⟩
  have hg' : g' = ⟨g.nodes.map f⟩ := by rw [← hf]
  rw [hg', find?_map fun m => (hkeep m).1, hn, Option.map_some]

/-- **A visit** changes the graph around its node, and goes on with what the node waits for. -/
theorem revisit_around (ids : List String) (x : String) (g : Graph) :
    Around x ids.length g (exec (revisit ids x) g).2 ∧
      ∀ next g', exec (revisit ids x) g = (.ok next, g') → ∃ n ∈ g.nodes, n.id = x ∧
        next.length ≤ n.before.length + ids.length := by
  rw [revisit]
  cases hx : g.find? x with
  | none =>
    rw [exec_bind, exec_node_none (not_has_iff.mpr hx)]
    exact ⟨(Around.refl x g).mono (Nat.zero_le _), fun next g' h => by cases (Prod.mk.inj h).1⟩
  | some n =>
    have hmem := mem_of_find? hx
    have hid := id_of_find? hx
    rw [exec_bind_ok (exec_node hx)]
    dsimp only
    split_ifs with hnone hcheckout hcond
    · rw [exec_bind_ok (exec_modify _)]
      refine ⟨around_update (fun _ => rfl) (fun _ _ => rfl) fun _ => Nat.le_add_right _ _, ?_⟩
      rintro next g' h
      obtain ⟨hnext, -⟩ := Prod.mk.inj h
      exact ⟨n, hmem, hid, by rw [← Except.ok.inj hnext]; exact Nat.le_add_right _ _⟩
    · refine ⟨(Around.refl x g).mono (Nat.zero_le _), ?_⟩
      rintro next g' h
      obtain ⟨hnext, -⟩ := Prod.mk.inj h
      exact ⟨n, hmem, hid, by rw [← Except.ok.inj hnext]; exact Nat.zero_le _⟩
    · have haround := turns_conditionOn x ids g
      rcases hexec : exec (conditionOn x ids) g with ⟨e | ⟨⟩, g₁⟩
      · rw [hexec] at haround
        rw [exec_bind, hexec]
        exact ⟨haround, fun next g' h => by cases (Prod.mk.inj h).1⟩
      · rw [hexec] at haround
        obtain ⟨n', hn', hlength⟩ := haround.find? hx
        rw [exec_bind_ok hexec, exec_bind_ok (exec_node hn')]
        refine ⟨haround, fun next g' h => ⟨n, hmem, hid, ?_⟩⟩
        rwa [← Except.ok.inj (Prod.mk.inj h).1]
    · rw [exec_bind_ok (exec_node hx)]
      refine ⟨(Around.refl x g).mono (Nat.zero_le _), fun next g' h => ⟨n, hmem, hid, ?_⟩⟩
      rw [← Except.ok.inj (Prod.mk.inj h).1]
      exact Nat.le_add_right _ _

/-! ## The walk ends -/

/-- What is pending at other nodes is not changed around a node. -/
theorem Around.pending_eq (h : Around x k g g') :
    pending ids (x :: seen) g'.nodes = pending ids (x :: seen) g.nodes := by
  obtain ⟨f, hf, hkeep⟩ := h
  rw [hf]
  induction g.nodes with
  | nil => rfl
  | cons n rest ih =>
    obtain ⟨hid, hbefore, -⟩ := hkeep n
    rw [List.map_cons, pending_cons_node, pending_cons_node, ih, hid]
    split_ifs with hn
    · rfl
    · rw [hbefore (List.ne_of_not_mem_cons hn)]

/-- The bound is enough for every walk that has not more pending than it. -/
theorem walk_pushDownFrom {fuel : Nat} (hfuel : stack.length + pending ids seen g.nodes ≤ fuel) :
    Walk ids stack seen g (exec (pushDownFrom ids fuel stack seen) g) := by
  induction fuel generalizing stack seen g with
  | zero =>
    obtain rfl : stack = [] := List.length_eq_zero_iff.mp (by omega)
    exact .done
  | succ fuel ih =>
    cases stack with
    | nil => exact .done
    | cons x stack =>
      rw [List.length_cons] at hfuel
      rw [pushDownFrom]
      split_ifs with hx
      · exact .skip hx (ih (by omega))
      · obtain ⟨haround, hnext⟩ := revisit_around ids x g
        rcases hvisit : exec (revisit ids x) g with ⟨e | next, g'⟩
        · rw [exec_bind, hvisit]
          exact .fail hx hvisit
        · rw [hvisit] at haround
          obtain ⟨n, hmem, rfl, hlength⟩ := hnext next g' hvisit
          have hpending := pending_visit ids hmem hx
          rw [exec_bind_ok hvisit]
          refine .visit hx hvisit (ih ?_)
          rw [List.length_append, haround.pending_eq]
          omega

/-- **Every walk ends**, from any node of any graph. -/
theorem walk_pushDown (x : String) (ids : List String) (g : Graph) :
    Walk ids [x] [] g (exec (pushDown x ids) g) := by
  rw [pushDown, exec_bind_ok exec_get]
  refine walk_pushDownFrom ?_
  have hbound := pending_nil g ids
  rw [List.length_singleton]
  omega

end Graph

/-! ## Reading values has a bound of its own -/

/-- The fault of a bound that is too small does not arise. -/
def Shallow {α : Type} (v : Except Fault α) : Prop := v ≠ .error .tooDeep

section Shallow

variable {α β : Type} {v : Except Fault α} {f : α → Except Fault β}

theorem shallow_ok (a : α) : Shallow (.ok a : Except Fault α) := by simp [Shallow]

theorem Shallow.bind (hv : Shallow v) (hf : ∀ a, Shallow (f a)) : Shallow (v >>= f) := by
  cases v with
  | ok a => exact hf a
  | error e => exact fun h => hv (congrArg Except.error (Except.error.inj h))

theorem shallow_error {e : Fault} (h : e ≠ .tooDeep) : Shallow (.error e : Except Fault α) :=
  fun he => h (Except.error.inj he)

end Shallow

namespace Value

variable (v : Value)

theorem shallow_text : Shallow v.text := by
  have hliteral : ∀ v : Value, Shallow v.literal := by
    intro v
    rw [literal]
    split_ifs
    · exact shallow_ok _
    · exact shallow_error (by simp)
  cases v with
  | scalar s =>
    rw [text]
    split_ifs
    · exact shallow_ok _
    · exact shallow_error (by simp)
  | _ => exact hliteral _

theorem shallow_members : Shallow v.members := fun h => by cases members_error h

theorem shallow_oneOrMany (v : Option Value) : Shallow (oneOrMany v) :=
  fun h => by cases oneOrMany_error h

theorem shallow_strings (vs : List Value) : Shallow (strings vs) :=
  fun h => by cases strings_error h

theorem shallow_fieldsOf : Shallow v.fieldsOf := by
  rw [fieldsOf]
  split
  · exact shallow_ok _
  · exact shallow_error (by simp)

theorem shallow_field? (key : Scalar) : Shallow (v.field? key) := by
  rw [field?]
  split
  · exact shallow_ok _
  · exact shallow_error (by simp)

theorem shallow_take (key : Scalar) : Shallow (v.take key) :=
  fun h => by rcases take_error h with h | h <;> cases h

end Value

theorem Setup.shallow_find? {table : Value} (htable : table.isMap) (name : Value) :
    Shallow (find? table name) := by
  obtain ⟨fields, hfields⟩ := Value.fields?_of_isMap htable
  rw [find?_of_fields? hfields]
  split
  · exact shallow_ok _
  · exact shallow_error (by simp)

namespace Graph

/-! ## Work that does not run out of its bound -/

section Ends

variable {α β : Type} {w : Build α} {f : α → Build β} {g : Graph} {x : String} {ids : List String}

/-- From this graph the work does not come to the fault of a bound that is too small. -/
def EndsFrom (g : Graph) (w : Build α) : Prop := (exec w g).1 ≠ .error .tooDeep

theorem EndsFrom.bind (hw : EndsFrom g w)
    (hf : ∀ a g', exec w g = (.ok a, g') → EndsFrom g' (f a)) : EndsFrom g (w >>= f) := by
  rw [EndsFrom] at hw
  rw [EndsFrom, exec_bind]
  rcases hexec : exec w g with ⟨e | a, g'⟩
  · rw [hexec] at hw
    exact fun h => hw (congrArg Except.error (Except.error.inj h))
  · exact hf a g' hexec

/-- The work does not come to that fault from any graph. -/
def Ends (w : Build α) : Prop := ∀ g, EndsFrom g w

theorem Ends.bind (hw : Ends w) (hf : ∀ a, Ends (f a)) : Ends (w >>= f) :=
  fun g => (hw g).bind fun a g' _ => hf a g'

theorem ends_pure (a : α) : Ends (pure a : Build α) := fun _ => by simp [EndsFrom]

theorem ends_throw {e : Fault} (h : e ≠ .tooDeep) : Ends (throw e : Build α) :=
  fun _ he => h (Except.error.inj he)

theorem ends_get : Ends (get : Build Graph) := fun _ => by simp [EndsFrom]

theorem ends_modify (f : Graph → Graph) : Ends (modify f : Build Unit) :=
  fun _ => by simp [EndsFrom]

theorem ends_liftM {v : Except Fault α} (h : Shallow v) : Ends (liftM v : Build α) := by
  intro g
  cases v with
  | ok a => exact ends_pure a g
  | error e => exact h

theorem endsFrom_liftM_bind {v : Except Fault α} (hv : Shallow v)
    (hf : ∀ a, v = .ok a → EndsFrom g (f a)) : EndsFrom g (liftM v >>= f) := by
  cases v with
  | ok a => exact hf a rfl
  | error e => exact fun h => hv (congrArg Except.error (Except.error.inj h))

theorem Ends.discard (h : Ends w) : Ends (discard w) := by
  have hdiscard : Functor.discard w = w >>= fun _ => pure () := by
    rw [Functor.discard, map_const, Function.comp, map_eq_pure_bind]
  rw [hdiscard]
  exact h.bind fun _ => ends_pure ()

theorem ends_node (x : String) : Ends (node x) :=
  ends_get.bind fun g => by
    cases g.find? x with
    | none => exact ends_throw (by simp)
    | some n => exact ends_pure n

theorem ends_addEdge (x y : String) : Ends (addEdge x y) :=
  (ends_node x).discard.bind fun _ => (ends_modify _).bind fun _ =>
    (ends_node y).discard.bind fun _ => ends_modify _

theorem ends_addNode (x : String) (kind : Kind) (content : Value) (ids : List String) :
    Ends (addNode x kind content ids) := by
  have hedges : ∀ ys, Ends (addEdges x ys) := by
    intro ys
    induction ys with
    | nil => exact ends_pure ()
    | cons y ys ih => exact (ends_addEdge x y).bind fun _ => ih
  refine ends_get.bind fun g => ?_
  by_cases hx : g.has x
  · rw [if_pos hx]
    exact ends_pure ()
  · rw [if_neg hx]
    exact (ends_modify _).bind fun _ => hedges ids

theorem ends_useCheck (patterns : List String) : Ends (useCheck patterns) :=
  (ends_addNode _ _ _ _).bind fun _ => ends_pure _

theorem ends_revisit (ids : List String) (x : String) : Ends (revisit ids x) := by
  have hcondition : ∀ ids, Ends (conditionOn x ids) := by
    intro ids
    induction ids with
    | nil => exact ends_pure ()
    | cons p rest ih =>
      exact (ends_modify _).bind fun _ => (ends_addEdge x p).bind fun _ => ih
  refine (ends_node x).bind fun n => ?_
  dsimp only
  split_ifs
  · exact (ends_modify _).bind fun _ => ends_pure _
  · exact ends_pure _
  · exact (hcondition ids).bind fun _ => (ends_node x).bind fun _ => ends_pure _
  · exact (ends_node x).bind fun _ => ends_pure _

theorem ends_pushDown (x : String) (ids : List String) : Ends (pushDown x ids) := by
  have hfrom : ∀ fuel stack seen, Ends (pushDownFrom ids fuel stack seen) := by
    intro fuel
    induction fuel with
    | zero => exact fun _ _ => ends_pure ()
    | succ fuel ih =>
      intro stack seen
      cases stack with
      | nil => exact ends_pure ()
      | cons y stack =>
        rw [pushDownFrom]
        split_ifs
        · exact ih stack seen
        · exact (ends_revisit ids y).bind fun next => ih _ _
  exact ends_get.bind fun g => hfrom _ _ _

/-- Names are awaited one after another, each from a graph with more in it. -/
theorem endsFrom_awaitEach {add : Value → Build String} {names : List Value}
    (hmakes : ∀ n, Makes Node.Unguarded (add n))
    (h : ∀ n ∈ names, ∀ g', g.Widened g' → EndsFrom g' (add n)) :
    EndsFrom g (awaitEach x add names) := by
  induction names generalizing g with
  | nil => exact ends_pure () g
  | cons n rest ih =>
    refine (h n List.mem_cons_self g (.refl g)).bind fun y g₁ hadd => ?_
    refine (ends_addEdge x y g₁).bind fun _ g₂ hedge => ih fun m hm g' hg' => ?_
    have hedges : Makes Node.Unguarded (addEdge x y) := makes_addEdge x y
    exact h m (List.mem_cons_of_mem n hm) g'
      (((hmakes n).widened hadd).trans ((hedges.widened hedge).trans hg'))

end Ends

/-! ## References -/

section References

variable {table name : Value} {g : Graph} {x : String} {ids : List String} {depth : Nat}

/-- A depth that is enough for a name is never used up. -/
theorem endsFrom_useSetupWithin (htable : table.isMap) (hdeep : Deep table g name depth) :
    EndsFrom g (useSetupWithin table depth name ids) := by
  induction depth generalizing g name ids with
  | zero => exact absurd hdeep.1 (by omega)
  | succ depth ih =>
    rw [useSetupWithin]
    refine endsFrom_liftM_bind name.shallow_text fun text htext => ?_
    generalize (if name.equal (.str checkoutSetup) then [] else ids) = own
    rw [EndsFrom, exec_bind_ok exec_get, ← EndsFrom]
    by_cases hhas : g.has (setupId text)
    · rw [if_pos hhas]
      exact ((ends_pushDown _ _).bind fun _ => ends_pure _) g
    rw [if_neg hhas]
    refine endsFrom_liftM_bind (Setup.shallow_find? htable name) fun found hfound => ?_
    cases found with
    | none => exact ends_throw (by simp) g
    | some d =>
      refine (ends_addNode _ _ _ _ g).bind fun _ g₁ hadd => ?_
      have hany : Makes (fun _ => True) (addNode (setupId text) .setup d own) :=
        makes_addNode trivial
      have hnew : g₁.has (setupId text) := by
        have hhas : (exec (addNode (setupId text) .setup d own) g).2.has (setupId text) :=
          has_of_addNode
        rwa [hadd] at hhas
      cases hfields : d.fields? with
      | none => exact ends_pure _ g₁
      | some fields =>
        refine endsFrom_liftM_bind (Value.shallow_oneOrMany _) fun names hnames => ?_
        refine EndsFrom.bind ?_ fun _ g₂ _ => ends_pure _ g₂
        refine endsFrom_awaitEach (fun n => makes_useSetupWithin table depth n own)
          fun n hn g₂ hg₂ => ih ?_
        have hlists : Setup.Lists d n := ⟨names, by rw [Value.part, hfields]; exact hnames, hn⟩
        exact hdeep.inner (Value.fields?_of_isMap htable) htext hhas
          ((hany.widened hadd).trans hg₂) (hg₂.has hnew) hfound hlists

/-- **A reference ends**, and a greater depth makes no difference. -/
theorem useSetup_ends (htable : table.isMap) (name : Value) (ids : List String) (g : Graph) :
    EndsFrom g (useSetup table name ids) ∧ ∀ depth, Setup.referenceCount table + 2 ≤ depth →
      exec (useSetupWithin table depth name ids) g = exec (useSetup table name ids) g := by
  refine ⟨endsFrom_useSetupWithin htable deep_start, fun depth hdepth => ?_⟩
  have hfields := Value.fields?_of_isMap htable
  have hagree : Setup.Agree (fun _ => True) table table :=
    ⟨hfields, hfields, fun _ _ => rfl, fun _ _ _ _ _ _ => trivial⟩
  refine exec_useSetupWithin_agree hagree trivial ⟨by omega, fun _ _ => .start ?_⟩ deep_start
  have := Setup.length_allTexts_le table
  omega

/-- The setup is the one that is named, or a definition of the table lists it. -/
def Mentioned (table name : Value) (s : String) : Prop :=
  name.text = .ok s ∨ s ∈ Setup.allTexts table

/-- **A reference adds the setups that it leads to**, and nothing else. -/
theorem makes_mentioned (htable : table.isMap) (depth : Nat) (name : Value) (ids : List String) :
    Makes (fun n => ∃ s, n.id = setupId s ∧ Mentioned table name s)
      (useSetupWithin table depth name ids) := by
  induction depth generalizing name ids with
  | zero => exact makes_throw _
  | succ depth ih =>
    rw [useSetupWithin]
    refine makes_liftM_bind fun text htext => ?_
    generalize (if name.equal (.str checkoutSetup) then [] else ids) = own
    refine makes_get.bind fun g => ?_
    dsimp only
    by_cases hhas : g.has (setupId text)
    · rw [if_pos hhas]
      exact (makes_pushDown _ _).bind fun _ => makes_pure _
    rw [if_neg hhas]
    refine makes_liftM_bind fun found hfound => ?_
    cases found with
    | none => exact makes_throw _
    | some d =>
      refine (makes_addNode ⟨text, rfl, Or.inl htext⟩).bind fun _ => ?_
      cases hfields : d.fields? with
      | none => exact makes_pure _
      | some fields =>
        refine makes_liftM_bind fun names hnames => ?_
        refine (makes_awaitEach (fun n hn => ?_) _).bind fun _ => makes_pure _
        -- What the new setup lists is listed in the table, whatever led to the setup.
        have hlists : Setup.Lists d n := ⟨names, by rw [Value.part, hfields]; exact hnames, hn⟩
        obtain ⟨entries, hentries⟩ := Value.fields?_of_isMap htable
        refine fun g => (ih n own g).mono ?_
        rintro node ⟨s, hs, hmentioned⟩
        refine ⟨s, hs, Or.inr ?_⟩
        rcases hmentioned with hs | hs
        · exact Setup.mem_allTexts hentries hfound hlists hs
        · exact hs

/-- **Each node is added once**, behind those that are there. -/
theorem Changes.added {P : Node → Prop} {g g' : Graph} (h : Changes P g g') :
    ∃ added, g'.ids = g.ids ++ added ∧ added.Nodup ∧
      ∀ x ∈ added, ¬ g.has x ∧ ∃ n, n.id = x ∧ P n := by
  induction h with
  | refl => exact ⟨[], by simp, by simp, by simp⟩
  | @tail g₁ g₂ _ hlast ih =>
    obtain ⟨added, hids, hnodup, hadded⟩ := ih
    have hsame : g₂.ids = g₁.ids → ∃ added, g₂.ids = g.ids ++ added ∧ added.Nodup ∧
        ∀ x ∈ added, ¬ g.has x ∧ ∃ n, n.id = x ∧ P n :=
      fun heq => ⟨added, heq.trans hids, hnodup, hadded⟩
    cases hlast with
    | @insert n hnew hn =>
      have hids' : (g₁.insert n).ids = g.ids ++ (added ++ [n.id]) := by
        rw [← List.append_assoc, ← hids, ids, Graph.insert, List.map_append]
        rfl
      rw [has_iff_mem_ids, hids, List.mem_append, not_or] at hnew
      refine ⟨added ++ [n.id], hids', ?_, fun x hx => ?_⟩
      · refine List.nodup_append.mpr ⟨hnodup, by simp, fun x hx y hy => ?_⟩
        rw [List.mem_singleton.mp hy]
        exact fun heq => hnew.2 (heq ▸ hx)
      · rcases List.mem_append.mp hx with hx | hx
        · exact hadded x hx
        · obtain rfl := List.mem_singleton.mp hx
          exact ⟨mt has_iff_mem_ids.mp hnew.1, n, rfl, hn⟩
    | before x y => exact hsame (ids_update fun _ => rfl)
    | after x y => exact hsame (ids_update fun _ => rfl)
    | clear x => exact hsame (ids_update fun _ => rfl)
    | condition x p => exact hsame (ids_update fun _ => rfl)
    | refill f => exact hsame (by rw [ids, List.map_map]; rfl)

theorem ends_awaitSetups (htable : table.isMap) (x : String) (setup : Option Value)
    (ids : List String) : Ends (awaitSetups table x setup ids) := by
  refine fun g => endsFrom_liftM_bind (Value.shallow_oneOrMany setup) fun names _ => ?_
  exact endsFrom_awaitEach (fun n => makes_useSetupWithin table _ n ids) fun n _ g' _ =>
    (useSetup_ends htable n ids g').1

end References

/-! ## Jobs -/

section Jobs

variable {table : Value}

theorem ends_refresh (isNew : Bool) (x : String) (content : Value) :
    Ends (refresh isNew x content) := by
  rw [refresh]
  split_ifs
  · exact ends_modify _
  · exact ends_pure ()

theorem ends_enterStep (htable : table.isMap) (index : Nat) (content : Value)
    (popped plain : Value × List Edit) (setup : Option Value) (pathIds : List String) :
    Ends (enterStep table index content popped plain setup pathIds) := by
  have htable' : (table.applyAll popped.2).isMap := by rwa [Value.isMap_applyAll]
  refine ends_get.bind fun g => (ends_addNode _ _ _ _).bind fun _ => ?_
  refine (ends_refresh _ _ _).bind fun _ => (ends_modify _).bind fun _ => ?_
  refine (ends_awaitSetups htable' _ _ _).bind fun _ => ?_
  refine (ends_refresh _ _ _).bind fun _ => (ends_modify _).bind fun _ => ?_
  split_ifs
  · exact (ends_addEdge _ _).bind fun _ => ends_pure _
  · exact ends_pure _

theorem ends_usePaths (paths : Option Value) : Ends (usePaths paths) := by
  refine (ends_liftM (Value.shallow_oneOrMany _)).bind fun patterns => ?_
  split_ifs
  · exact ends_pure _
  · refine (ends_liftM (Value.shallow_strings _)).bind fun texts => ?_
    exact (ends_useCheck _).bind fun id => ends_pure _

theorem ends_addStep (htable : table.isMap) (index : Nat) (step : Value) :
    Ends (addStep table index step) := by
  rw [addStep_eq]
  exact (ends_liftM (step.shallow_take _)).bind fun taken => (ends_usePaths _).bind fun ids =>
    ends_enterStep htable _ _ _ _ _ _

theorem ends_addSteps (htable : table.isMap) (index : Nat) (steps : List Value) (log : List Edit) :
    Ends (addSteps table index steps log) := by
  induction steps generalizing index log with
  | nil => exact ends_pure _
  | cons step rest ih =>
    have htable' : (table.applyAll log).isMap := by rwa [Value.isMap_applyAll]
    exact (ends_addStep htable' _ _).bind fun _ => (ih _ _).bind fun _ => ends_pure _

theorem ends_useSetups (htable : table.isMap) (names : List Value) :
    Ends (useSetups table names) := by
  induction names with
  | nil => exact ends_pure ()
  | cons n rest ih =>
    have hfirst : Ends (useSetup table n []) := fun g => (useSetup_ends htable n [] g).1
    exact hfirst.discard.bind fun _ => ih

theorem ends_awaitCheckout : Ends awaitCheckout := by
  have hfrom : ∀ nodes, Ends (awaitCheckoutFrom nodes) := by
    intro nodes
    induction nodes with
    | nil => exact ends_pure ()
    | cons n rest ih =>
      have hedge := (ends_addEdge n.id checkoutId).bind fun _ => ih
      rw [awaitCheckoutFrom]
      split_ifs
      · refine ends_get.bind fun g => ?_
        split_ifs
        · exact (ends_throw (by simp)).bind fun _ => hedge
        · exact hedge
      · exact ih
  exact ends_get.bind fun g => hfrom g.nodes

/-- **Building a job ends**: no table is too deep. -/
theorem ends_addJob (htable : table.isMap) (job : Value) : Ends (addJob table job) := by
  have happlied : ∀ log : List Edit, (table.applyAll log).isMap := fun log => by
    rwa [Value.isMap_applyAll]
  unfold addJob
  refine (ends_liftM (job.shallow_field? _)).bind fun field => ?_
  dsimp only
  cases Value.given? field with
  | none =>
    refine (ends_pure _).bind fun _ => (ends_liftM (Value.shallow_fieldsOf _)).bind fun _ => ?_
    refine (ends_modify _).bind fun _ => (ends_liftM (Value.shallow_oneOrMany _)).bind fun _ => ?_
    exact (ends_useSetups (happlied _) _).bind fun _ => ends_awaitCheckout.bind fun _ => ends_pure _
  | some v =>
    refine (ends_liftM v.shallow_members).bind fun steps => ?_
    refine (ends_addSteps htable 0 steps []).bind fun _ => ?_
    refine (ends_liftM (Value.shallow_fieldsOf _)).bind fun _ => (ends_modify _).bind fun _ => ?_
    refine (ends_awaitSetups (happlied _) _ _ _).bind fun _ => ?_
    exact ends_awaitCheckout.bind fun _ => ends_pure _

/-- The sweep that puts a graph in order ends with nothing ready, and so there is an order or a
cycle. -/
theorem order_ends {g : Graph} (hg : g.WellFormed) :
    (∃ s, (Sweep.start g).run g.nodes.length = .ok s ∧ s.ready = []) ∧
      ((∃ xs, g.order = .ok xs) ∨ ∃ edges, g.order = .error (.cycle edges)) := by
  have hfuel : g.nodes.length ≤ (Sweep.start g).placed.length + g.nodes.length := by simp
  obtain ⟨s, hok, -, hready⟩ := (sweeping_start hg).run hfuel
  refine ⟨⟨s, hok, hready⟩, ?_⟩
  rcases order_cases hg with ⟨xs, hxs, -⟩ | ⟨edges, hedges, -⟩
  · exact .inl ⟨xs, hxs⟩
  · exact .inr ⟨edges, hedges⟩

/-! ## The end -/

/-- The work comes to an end from this graph. The nodes that it adds stand behind those that are
there, each under an id of its own and for a reason. -/
structure Finishes {α : Type} (g : Graph) (w : Build α) (Reason : String → Prop) : Prop where
  ends : EndsFrom g w
  added : ∃ added, (exec w g).2.ids = g.ids ++ added ∧ added.Nodup ∧
    ∀ x ∈ added, ¬ g.has x ∧ Reason x

/-- A reference ends, and it adds setups that it leads to, each of them once. -/
theorem finishes_useSetup (htable : table.isMap) (name : Value) (ids : List String) (g : Graph) :
    Finishes g (useSetup table name ids) fun x => ∃ s, x = setupId s ∧ Mentioned table name s where
  ends := (useSetup_ends htable name ids g).1
  added := by
    obtain ⟨added, hids, hnodup, hadded⟩ := (makes_mentioned htable _ name ids g).added
    refine ⟨added, hids, hnodup, fun x hx => ?_⟩
    obtain ⟨hnew, n, rfl, hn⟩ := hadded x hx
    exact ⟨hnew, hn⟩

/-- The references of a `setup` field end, and they add what one of its names leads to, each setup
once. -/
theorem finishes_awaitSetups (htable : table.isMap) (x : String) (setup : Option Value)
    (ids : List String) (g : Graph) :
    Finishes g (awaitSetups table x setup ids) fun x => ∃ s, x = setupId s ∧
      ∃ names, Value.oneOrMany setup = .ok names ∧ ∃ n ∈ names, Mentioned table n s where
  ends := ends_awaitSetups htable x setup ids g
  added := by
    have hmakes : Makes (fun n => ∃ s, n.id = setupId s ∧
        ∃ names, Value.oneOrMany setup = .ok names ∧ ∃ n ∈ names, Mentioned table n s)
        (awaitSetups table x setup ids) :=
      makes_liftM_bind fun names hnames => makes_awaitEach (fun n hn g =>
        (makes_mentioned htable _ n ids g).mono fun _ ⟨s, hs, hmentioned⟩ =>
          ⟨s, hs, names, hnames, n, hn, hmentioned⟩) x
    obtain ⟨added, hids, hnodup, hadded⟩ := (hmakes g).added
    refine ⟨added, hids, hnodup, fun y hy => ?_⟩
    obtain ⟨hnew, n, rfl, hn⟩ := hadded y hy
    exact ⟨hnew, hn⟩

/-- Each node of a job has an id of its own, also when the building fails. -/
theorem nodup_ids_addJob (table job : Value) : (exec (addJob table job) {}).2.ids.Nodup :=
  (stays_addJob maintained_underway .empty).1.wf.ids_nodup

/-- **Building a graph always ends.** Whatever the table defines, and whatever the graph is:

* each walk goes on by its rules to an end;
* each reference and each list of references ends and adds each setup once at most, and how deep
  references may be nested makes no difference;
* the graph of each job is built or fails with a fault of the job, and what is built is put in order
  until nothing is ready: there is an order then, or the edges that are left are reported. -/
theorem building_ends {table : Value} (htable : table.isMap) :
    (∀ x ids g, Walk ids [x] [] g (exec (pushDown x ids) g)) ∧
    (∀ name ids g, (Finishes g (useSetup table name ids) fun x =>
        ∃ s, x = setupId s ∧ Mentioned table name s) ∧
      ∀ depth, Setup.referenceCount table + 2 ≤ depth →
        exec (useSetupWithin table depth name ids) g = exec (useSetup table name ids) g) ∧
    (∀ x setup ids g, Finishes g (awaitSetups table x setup ids) fun x => ∃ s, x = setupId s ∧
      ∃ names, Value.oneOrMany setup = .ok names ∧ ∃ n ∈ names, Mentioned table n s) ∧
    ∀ job, (exec (addJob table job) {}).2.ids.Nodup ∧
      ((∃ e, ofJob table job = .error e ∧ e ≠ .tooDeep) ∨
        ∃ g left, ofJob table job = .ok (g, left) ∧
          (∃ s, (Sweep.start g).run g.nodes.length = .ok s ∧ s.ready = []) ∧
          ((∃ xs, g.order = .ok xs) ∨ ∃ edges, g.order = .error (.cycle edges))) := by
  refine ⟨walk_pushDown, fun name ids g => ?_, finishes_awaitSetups htable, fun job => ?_⟩
  · exact ⟨finishes_useSetup htable name ids g, (useSetup_ends htable name ids g).2⟩
  refine ⟨nodup_ids_addJob table job, ?_⟩
  have hends := ends_addJob htable job {}
  rcases hexec : exec (addJob table job) {} with ⟨e | ⟨left, log⟩, g⟩
  · have hjob : ofJob table job = .error e := by
      rw [ofJob, show (addJob table job).run.run {} = _ from hexec]
    rw [EndsFrom, hexec] at hends
    exact .inl ⟨e, hjob, fun he => hends (congrArg Except.error he)⟩
  · have hjob : ofJob table job = .ok (g, left, log) := by
      rw [ofJob, show (addJob table job).run.run {} = _ from hexec]
    exact .inr ⟨g, (left, log), hjob, order_ends (underway_of_ofJob hjob).wf⟩

/-- Two setups that lead to each other, one of them named twice, and one that leads to itself. -/
def knots : Value :=
  .record [(.str "a", .record [(.str "setup", .list [.str "b", .str "b"])]),
    (.str "b", .record [(.str "setup", .str "a")]),
    (.str "c", .record [(.str "setup", .str "c")])]

theorem building_ends_knots : knots.isMap ∧
    (exec (useSetup knots (.str "a") []) {}).2.ids = ["setup-a", "setup-b"] ∧
    EndsFrom {} (useSetup knots (.str "a") []) ∧
    Walk [] ["setup-a"] [] (exec (useSetup knots (.str "a") []) {}).2
      (exec (pushDown "setup-a" []) (exec (useSetup knots (.str "a") []) {}).2) := by
  obtain ⟨hwalks, hreferences, -⟩ := building_ends (show knots.isMap from rfl)
  exact ⟨rfl, by decide, (hreferences _ _ _).1.ends, hwalks _ _ _⟩

end Jobs

end Graph

end StepLoom
