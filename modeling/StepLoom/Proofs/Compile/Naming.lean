import StepLoom.Proofs.Compile.Separate
import StepLoom.Proofs.Requests
import StepLoom.Proofs.TwoRuns

/-!
# Step ids when no two names are alike

While all pattern lists have different names, each path check gets its name as its step id, whatever
the registry held before. `Plain` is the invariant of the registry.

**Theorem (`Separate.compile_abreast`).** A job compiles the same from all such registries.
-/

namespace StepLoom

open StepLoom.Graph (Contents)

/-! ## The registry -/

namespace Registry

open Check (outputName)

/-- Different lists of patterns have different names. -/
def NamesDiffer (lists : List (List String)) : Prop :=
  ∀ ps ∈ lists, ∀ qs ∈ lists, outputName ps = outputName qs → ps = qs

/-- A name belongs to the list that it is the name of, or it is free. -/
def Plain (lists : List (List String)) (r : Registry) : Prop :=
  ∀ ps ∈ lists, ∀ qs, r.owner? (outputName ps) = some qs → qs = ps

/-- Two registries of this kind. -/
def BothPlain (lists : List (List String)) (r r' : Registry) : Prop :=
  Plain lists r ∧ Plain lists r'

variable {lists : List (List String)} {r : Registry} {ps : List String}

theorem plain_empty : Plain lists {} := nofun

/-- **The name is the id.** -/
theorem Plain.claim (h : Plain lists r) (hdiffer : NamesDiffer lists) (hps : ps ∈ lists) :
    ∃ r', r.claim ps = .ok (outputName ps, r') ∧ Plain lists r' := by
  have hfirst : candidate (outputName ps) 0 = outputName ps := rfl
  cases howner : r.owner? (outputName ps) with
  | none =>
    have hclaim : r.claimFrom ps (outputName ps) (999 + 1) 0 =
        some (outputName ps, ⟨r.claims ++ [(outputName ps, ps)]⟩) := by
      rw [claimFrom]
      simp only [hfirst, howner]
    refine ⟨_, claim_eq_ok.mpr hclaim, fun qs hqs os hos => ?_⟩
    rw [owner?_append, Option.or_eq_some_iff] at hos
    obtain hos | ⟨-, hos⟩ := hos
    · exact h qs hqs os hos
    · split_ifs at hos with hname
      rw [← Option.some.inj hos, hdiffer ps hps qs hqs hname]
  | some owner =>
    obtain rfl := h ps hps owner howner
    refine ⟨r, claim_eq_ok.mpr ?_, h⟩
    rw [show maxTries = 999 + 1 from rfl, claimFrom]
    simp only [hfirst, howner, if_true]

theorem request_abreast (hdiffer : NamesDiffer lists) (hps : ps ∈ lists) :
    Abreast (BothPlain lists) Eq (request ps) (request ps) := by
  rintro r r' ⟨hr, hr'⟩
  obtain ⟨s, hclaim, hs⟩ := hr.claim hdiffer hps
  obtain ⟨s', hclaim', hs'⟩ := hr'.claim hdiffer hps
  rw [exec_request, exec_request, hclaim, hclaim']
  exact ⟨.ok rfl, hs, hs'⟩

end Registry

open Registry (NamesDiffer Plain BothPlain)

variable {lists : List (List String)}

/-! ## Blocks -/

namespace Block

variable {A M : Nat → Prop} {L : List String → Prop} {g : Graph} {n : Node}
  {outs : List (String × String)}

theorem ofNode_abreast_self (hdiffer : NamesDiffer lists) (hL : ∀ ps, L ps → ps ∈ lists)
    (hn : NodeHeld A M L n.id n.kind n.content) :
    Abreast (BothPlain lists) Eq (ofNode n outs) (ofNode n outs) := by
  refine (abreast_liftM_eq _).bind_eq fun c => ?_
  cases hk : n.kind with
  | step => exact (abreast_liftM_eq _).bind_eq fun _ => abreast_pure rfl
  | setup => exact (abreast_liftM_eq _).bind_eq fun _ => abreast_pure rfl
  | paths =>
    obtain ⟨-, ps, hps, hcontent⟩ := hn.paths hk
    have hpatterns : (n.content.members >>= Value.strings) = .ok ps := by
      rw [hcontent]
      exact Graph.strings_map ps
    dsimp only
    rw [hpatterns]
    refine (abreast_liftM_self _).bind fun a b ⟨ha, hab⟩ => ?_
    obtain rfl := Except.ok.inj ha
    subst hab
    refine (Registry.request_abreast hdiffer (hL _ hps)).bind_eq fun id => ?_
    refine (abreast_liftM_eq _).bind_eq fun check => ?_
    exact (abreast_liftM_eq _).bind_eq fun _ => abreast_pure rfl

theorem joinFrom_abreast_self (hdiffer : NamesDiffer lists) (hL : ∀ ps, L ps → ps ∈ lists)
    (hg : Contents (NodeHeld A M L) g) (ids : List String) :
    Abreast (BothPlain lists) Eq (joinFrom g outs ids) (joinFrom g outs ids) := by
  induction ids generalizing outs with
  | nil => exact abreast_pure rfl
  | cons id rest ih =>
    rw [joinFrom]
    cases hfind : g.find? id with
    | none => exact abreast_throw _
    | some n =>
      have hn := hg n (List.mem_of_find?_eq_some hfind)
      refine (ofNode_abreast_self hdiffer hL hn).bind_eq fun _ => ?_
      exact ih.bind_eq fun _ => abreast_pure rfl

end Block

/-! ## Jobs -/

/-- **A separate job compiles the same** from all registries in which names are free or in their own
hands. -/
theorem Job.Separate.compile_abreast {table job : Value} (h : Separate table job)
    (hdiffer : NamesDiffer lists) (hsub : patternLists job ⊆ lists) :
    Abreast (BothPlain lists) Eq (compile table job) (compile table job) := by
  refine (abreast_liftM_self _).bind fun made made' ⟨hmade, heq⟩ => ?_
  subst heq
  obtain ⟨g, plain, log⟩ := made
  obtain ⟨hg, -⟩ := ofJob_ok h.jobAdmits hmade
  refine (abreast_liftM_eq _).bind_eq fun ids => ?_
  refine (Block.joinFrom_abreast_self hdiffer (fun _ hps => hsub hps) hg ids).bind_eq
    fun gated => ?_
  refine (abreast_liftM_eq _).bind_eq fun resolved => ?_
  exact (abreast_liftM_eq _).bind_eq fun fields => abreast_pure rfl

end StepLoom
