import StepLoom.Proofs.Fields
import StepLoom.Proofs.Graph.Depth
import StepLoom.Proofs.Graph.Invariant

/-!
# Following references

Resolving a list of setup names is a recursion over graphs that change on the way. `Visits` is that
recursion as a relation: the names are taken in order, a setup that the graph has is only pushed
new conditions, and a setup that is met for the first time becomes a node and then visits what it
needs. An optional owner waits for each of the names.

**Theorem (`awaitEach_spec`, `useSetup_spec`).** Resolving names in a sound graph is a visit, or it
is blamed on a name that is reached and not defined, or the table is not well shaped. In particular
the depth given to `useSetup` always suffices: a reference is followed only from a setup that was
not there before, and the table needs only so many.

What a visit does to a graph is then shown by induction on the relation: it keeps the invariant, the
graph grows, and it only adds setups that are reached from the names.
-/

namespace StepLoom

namespace Graph

open Setup Relation

variable {table : Value} {g g' g₁ g₂ : Graph} {ids : List String}

/-- The conditions that a reference to a setup carries; none for the checkout. -/
def idsFor (name : String) (ids : List String) : List String :=
  if name = checkoutSetup then [] else ids

/-- The owner, if there is one, waits for a node. -/
def linkFrom (owner : Option String) (y : String) (g : Graph) : Graph :=
  match owner with
  | some x => g.link x y
  | none => g

/-- Visiting names for an owner, under some path checks. -/
inductive Visits (table : Value) :
    Option String → List String → List String → Graph → Graph → Prop
  | nil (owner : Option String) (ids : List String) (g : Graph) : Visits table owner ids [] g g
  | known {owner : Option String} {ids names : List String} {n : String} {g g₁ g₂ : Graph}
      (hn : g.has (setupId n)) (hp : PushedDown (setupId n) (idsFor n ids) g g₁)
      (hr : Visits table owner ids names (g₁.linkFrom owner (setupId n)) g₂) :
      Visits table owner ids (n :: names) g g₂
  | fresh {owner : Option String} {ids names : List String} {n : String} {d : Value}
      {g g₁ g₂ : Graph} (hn : ¬ g.has (setupId n)) (hd : definition? table n = some d)
      (hi : Visits table (some (setupId n)) (idsFor n ids) (needs table n)
        (g.addFresh (setupId n) .setup d (idsFor n ids)) g₁)
      (hr : Visits table owner ids names (g₁.linkFrom owner (setupId n)) g₂) :
      Visits table owner ids (n :: names) g g₂

/-- When names may be visited: the graph is sound, and has the path checks and the owner. -/
structure Ready (table : Value) (owner : Option String) (ids names : List String) (g : Graph) :
    Prop where
  sound : Sound table g
  checks : ∀ p ∈ ids, g.has p ∧ IsCheck p
  owner : ∀ x, owner = some x → g.has x ∧ ∀ n ∈ names, MayWait table x (setupId n)

theorem mem_idsFor {n p : String} (h : p ∈ idsFor n ids) : p ∈ ids := by
  unfold idsFor at h
  split_ifs at h
  · simp at h
  · exact h

theorem Ready.isCheck {owner : Option String} {names : List String}
    (h : Ready table owner ids names g) (n : String) : ∀ p ∈ idsFor n ids, IsCheck p :=
  fun p hp => (h.checks p (mem_idsFor hp)).2

theorem has_linkFrom {owner : Option String} {x y : String} :
    (g.linkFrom owner x).has y = g.has y := by
  cases owner with
  | none => rfl
  | some z => exact has_link

theorem grows_linkFrom {owner : Option String} {y : String} : Grows g (g.linkFrom owner y) := by
  cases owner with
  | none => exact Grows.refl g
  | some x => exact grows_link

theorem Sound.linkFrom (hg : Sound table g) {owner : Option String} {y : String} (hy : g.has y)
    (h : ∀ x, owner = some x → g.has x ∧ MayWait table x y) : Sound table (g.linkFrom owner y) := by
  cases owner with
  | none => exact hg
  | some x => exact hg.link (h x rfl).1 hy (h x rfl).2

/-! ## What a visit keeps -/

/-- The rest of the names may be visited once the first one has been. -/
theorem Ready.tail {owner : Option String} {names : List String} {n : String}
    (h : Ready table owner ids (n :: names) g) (hs : Sound table g₁) (hgr : Grows g g₁)
    (hn : g₁.has (setupId n)) : Ready table owner ids names (g₁.linkFrom owner (setupId n)) where
  sound := hs.linkFrom hn fun x hx =>
    ⟨hgr.has (h.owner x hx).1, (h.owner x hx).2 n (by simp)⟩
  checks p hp := ⟨by rw [has_linkFrom]; exact hgr.has (h.checks p hp).1, (h.checks p hp).2⟩
  owner x hx := ⟨by rw [has_linkFrom]; exact hgr.has (h.owner x hx).1,
    fun m hm => (h.owner x hx).2 m (List.mem_cons_of_mem n hm)⟩

theorem Sound.addSetup (hg : Sound table g) {n : String} {d : Value} (hn : ¬ g.has (setupId n))
    (hd : definition? table n = some d) (hp : ∀ p ∈ ids, g.has p ∧ IsCheck p) :
    Sound table (g.addFresh (setupId n) .setup d ids) :=
  hg.addFresh hn hp (fun _ => ⟨n, rfl, hd⟩) (by simp) (by simp)

/-- A new setup may visit what it needs. -/
theorem Ready.inner {owner : Option String} {names : List String} {n : String} {d : Value}
    (h : Ready table owner ids (n :: names) g) (hn : ¬ g.has (setupId n))
    (hd : definition? table n = some d) :
    Ready table (some (setupId n)) (idsFor n ids) (needs table n)
      (g.addFresh (setupId n) .setup d (idsFor n ids)) where
  sound := h.sound.addSetup hn hd fun p hp => h.checks p (mem_idsFor hp)
  checks p hp := ⟨(has_addFresh hn).mpr (Or.inl (h.checks p (mem_idsFor hp)).1),
    (h.checks p (mem_idsFor hp)).2⟩
  owner x hx := by
    obtain rfl := Option.some.inj hx
    exact ⟨(has_addFresh hn).mpr (Or.inr rfl), fun t ht => .need ht⟩

/-- **A visit keeps the invariant, and the graph grows.** -/
theorem Visits.sound {owner : Option String} {names : List String}
    (h : Visits table owner ids names g g') (hr : Ready table owner ids names g) :
    Sound table g' ∧ Grows g g' := by
  induction h with
  | nil => exact ⟨hr.sound, Grows.refl _⟩
  | known hn hp _ ih =>
    have hs := hp.sound hr.sound (hr.isCheck _)
    obtain ⟨hs', hg'⟩ := ih (hr.tail hs hp.grows (hp.has.mpr hn))
    exact ⟨hs', hp.grows.trans (grows_linkFrom.trans hg')⟩
  | fresh hn hd _ _ ihi ih =>
    obtain ⟨hs₁, hg₁⟩ := ihi (hr.inner hn hd)
    have hgr := (grows_addFresh hn).trans hg₁
    obtain ⟨hs', hg'⟩ := ih (hr.tail hs₁ hgr (hg₁.has ((has_addFresh hn).mpr (Or.inr rfl))))
    exact ⟨hs', hgr.trans (grows_linkFrom.trans hg')⟩

/-! ## Resolving names is a visit -/

/-- What resolving names may fail of: a name that is reached and not defined, or a table that is not
well shaped. -/
def Blame (table : Value) (names : List String) (e : Fault) : Prop :=
  (∃ t, ReachedFrom table names t ∧ Setup.find? table (.str t) = .ok none ∧ e = .unknownSetup t) ∨
    ¬ WellShaped table

theorem Blame.mono {names names' : List String} {e : Fault} (h : Blame table names e)
    (hsub : ∀ n ∈ names, n ∈ names') : Blame table names' e := by
  rcases h with ⟨t, ⟨n, hn, ht⟩, h⟩ | h
  · exact Or.inl ⟨t, ⟨n, hsub n hn, ht⟩, h⟩
  · exact Or.inr h

theorem Blame.of_needs {n : String} {e : Fault} (h : Blame table (needs table n) e) :
    Blame table [n] e := by
  rcases h with ⟨t, ht, h⟩ | h
  · exact Or.inl ⟨t, reachedFrom_singleton.mpr (reachedFrom_needs ht), h⟩
  · exact Or.inr h

/-- One name on its own and then the rest, for the owner, is a visit of all. -/
theorem Visits.cons {owner : Option String} {names : List String} {n : String}
    (h : Visits table none ids [n] g g₁)
    (hr : Visits table owner ids names (g₁.linkFrom owner (setupId n)) g₂) :
    Visits table owner ids (n :: names) g g₂ := by
  cases h with
  | known hn hp hnil =>
    cases hnil
    exact .known hn hp hr
  | fresh hn hd hi hnil =>
    cases hnil
    exact .fresh hn hd hi hr

theorem Visits.has_first {n : String} (h : Visits table none ids [n] g g₁)
    (hr : Ready table none ids [n] g) : g₁.has (setupId n) := by
  cases h with
  | known hn hp hnil =>
    cases hnil
    exact hp.has.mpr hn
  | fresh hn hd hi hnil =>
    cases hnil
    exact (hi.sound (hr.inner hn hd)).2.has ((has_addFresh hn).mpr (Or.inr rfl))

/-- An owner's names, one after another, given how single names are resolved. -/
theorem awaitEach_spec {x : String} {add : Value → Build String} {names : List String}
    (hr : Ready table (some x) ids names g)
    (hadd : ∀ n ∈ names, ∀ g', Grows g g' → Ready table none ids [n] g' →
      Ensures (add (.str n)) g' (fun r g'' => r = setupId n ∧ Visits table none ids [n] g' g'')
        (Blame table [n])) :
    Ensures (awaitEach x add (names.map .str)) g
      (fun _ g' => Visits table (some x) ids names g g') (Blame table names) := by
  induction names generalizing g with
  | nil => exact .nil _ _ _
  | cons n names ih =>
    have hone : Ready table none ids [n] g := ⟨hr.sound, hr.checks, by simp⟩
    have hfirst := (hadd n (by simp) g (Grows.refl g) hone).mono (fun _ _ h => h)
      fun e hb => (hb.mono (by simp) : Blame table (n :: names) e)
    refine hfirst.bind fun r g₁ ⟨hrid, hv⟩ => ?_
    obtain ⟨hs₁, hg₁⟩ := hv.sound hone
    have hn₁ := hv.has_first hone
    subst hrid
    refine ensures_bind_exec (exec_addEdge (hg₁.has (hr.owner x rfl).1) hn₁) ?_
    have htail := hr.tail hs₁ hg₁ hn₁
    refine (ih htail fun m hm g' hg' => hadd m (List.mem_cons_of_mem n hm) g' ?_).mono
      (fun _ g₂ h₂ => hv.cons h₂) fun _ hb => hb.mono fun m hm => List.mem_cons_of_mem n hm
    exact hg₁.trans (grows_linkFrom.trans hg')

/-- What the definition of a new setup needs, and its answer. -/
theorem awaitNeeds_spec {d : Value} {n : String} (add : Value → Build String)
    (htext : Value.OnlyTexts (d.part "setup"))
    (hneeds : needs table n = Value.textsIn (d.part "setup"))
    (hshape : WellShaped table → ∃ vs, Value.oneOrMany (d.part "setup") = .ok vs)
    (hr : Ready table (some (setupId n)) ids (needs table n) g)
    (hadd : ∀ m ∈ needs table n, ∀ g', Grows g g' → Ready table none ids [m] g' →
      Ensures (add (.str m)) g' (fun r g'' => r = setupId m ∧ Visits table none ids [m] g' g'')
        (Blame table [m])) :
    Ensures (match d.fields? with
      | some fields => do
        awaitEach (setupId n) add (← Graph.names (Fields.get? "setup" fields))
        return setupId n
      | none => pure (setupId n)) g
      (fun r g' => r = setupId n ∧ Visits table (some (setupId n)) ids (needs table n) g g')
      (Blame table (needs table n)) := by
  unfold Value.part at htext hneeds hshape
  cases hf : d.fields? with
  | none =>
    have hnil : needs table n = [] := by rw [hneeds, hf]; rfl
    rw [hnil]
    exact ensures_pure ⟨rfl, .nil _ _ _⟩
  | some fields =>
    simp only [hf, Option.bind_some] at htext hneeds hshape ⊢
    rw [Graph.names]
    cases hvs : Value.oneOrMany (Fields.get? "setup" fields) with
    | error e =>
      refine ensures_throw (Or.inr fun hw => ?_)
      obtain ⟨vs, h⟩ := hshape hw
      rw [hvs] at h
      cases h
    | ok vs =>
      refine ensures_bind_exec (exec_liftM_ok vs) ?_
      rw [htext.eq hvs, ← hneeds]
      exact (awaitEach_spec hr hadd).bind fun _ _ hv => ensures_pure ⟨rfl, hv⟩

theorem useSetupWithin_spec (htext : TextNames table) {depth : Nat} {n : String}
    (hdeep : DeepEnough (allTexts table) g n depth) (hr : Ready table none ids [n] g) :
    Ensures (useSetupWithin table depth (.str n) ids) g
      (fun r g' => r = setupId n ∧ Visits table none ids [n] g g') (Blame table [n]) := by
  induction depth generalizing n g ids with
  | zero => exact absurd hdeep.1 (by omega)
  | succ depth ih =>
    have hids : (if (Value.str n).equal (.str checkoutSetup) then [] else ids) = idsFor n ids := by
      simp [Value.equal_str, idsFor]
    have htxt : (Value.str n).text = .ok n := rfl
    rw [useSetupWithin, htxt]
    refine ensures_bind_exec (exec_liftM_ok n) ?_
    simp only [hids]
    refine ensures_bind_exec exec_get ?_
    have hchecks := fun p hp => hr.checks p (mem_idsFor (hp : p ∈ idsFor n ids))
    by_cases hn : g.has (setupId n)
    · -- The setup is known: its conditions are pushed down.
      rw [if_pos hn]
      obtain ⟨g₁, hex, hp⟩ := pushDown_spec hr.sound.wf hn fun p hp => (hchecks p hp).1
      refine ensures_bind_exec hex ?_
      exact ensures_pure ⟨rfl, .known hn hp (.nil _ _ _)⟩
    · rw [if_neg hn]
      cases hfd : Setup.find? table (.str n) with
      | error e =>
        refine ensures_throw (Or.inr fun hw => ?_)
        obtain ⟨d, hd⟩ := hw.find? n
        rw [hfd] at hd
        cases hd
      | ok found =>
        refine ensures_bind_exec (exec_liftM_ok found) ?_
        cases found with
        | none => exact ensures_throw (Or.inl ⟨n, reachedFrom_singleton.mpr .refl, hfd, rfl⟩)
        | some d =>
          -- A new node, which then awaits what it needs.
          have hd : definition? table n = some d := definition?_of_find? hfd
          have hready := hr.inner hn hd
          refine ensures_bind_exec (exec_addNode_new hn fun p hp => (hchecks p hp).1) ?_
          have hawait := awaitNeeds_spec (fun v => useSetupWithin table depth v (idsFor n ids))
            (htext n d hd) (needs_of_definition? hd) (fun hw => hw.needs n d hd) hready
            fun m hm g' hg' hr' => ih ?_ hr'
          · exact hawait.mono (fun _ g₁ ⟨hrid, hv⟩ => ⟨hrid, .fresh hn hd hv (.nil _ _ _)⟩)
              fun _ => Blame.of_needs
          · have hnew := (grows_addFresh hn).trans hg'
            exact hdeep.inner hn (fun _ => hnew.has) (hg'.has ((has_addFresh hn).mpr (Or.inr rfl)))
              (mem_allTexts_of_needs hm)

/-- **Resolving one name is a visit, or it is to blame.** -/
theorem useSetup_spec (htext : TextNames table) {n : String} (hr : Ready table none ids [n] g) :
    Ensures (useSetup table (.str n) ids) g
      (fun r g' => r = setupId n ∧ Visits table none ids [n] g g') (Blame table [n]) :=
  useSetupWithin_spec htext (.start (Nat.add_le_add_right (length_allTexts_le table) 2)) hr

/-- Resolving a field of names for an owner is a visit, or one of the names is to blame, or the
field cannot be listed. -/
theorem awaitSetups_spec (htext : TextNames table) {x : String} {field : Option Value}
    (hfield : Value.OnlyTexts field) (hr : Ready table (some x) ids (Value.textsIn field) g) :
    Ensures (awaitSetups table x field ids) g
      (fun _ g' => Visits table (some x) ids (Value.textsIn field) g g')
      (fun e => Blame table (Value.textsIn field) e ∨ Value.oneOrMany field = .error e) := by
  rw [awaitSetups, Graph.names]
  cases hvs : Value.oneOrMany field with
  | error e => exact ensures_throw (Or.inr rfl)
  | ok vs =>
    refine ensures_bind_exec (exec_liftM_ok vs) ?_
    rw [hfield.eq hvs]
    exact (awaitEach_spec hr fun n _ g' _ => useSetup_spec htext).mono (fun _ _ h => h)
      fun _ => Or.inl

end Graph

end StepLoom
