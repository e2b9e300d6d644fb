import StepLoom.Proofs.Needs
import Mathlib.Data.Finset.SDiff
import Mathlib.Order.Lattice

/-!
# Which walk meets a setup first

References are followed in depth-first order: names in the order in which they are listed, and
behind each name what it needs before the next name. A setup that has been met is not entered again.
`Walk.firstMet` lists, for every setup that is met, the walk on which this happens first. A walk
knows the step at which it started and the setups that it passed through.

The recursion ends because each setup is entered once and the table needs only finitely many.
-/

namespace StepLoom

open Setup

/-- A walk along references, from the `setup` field of a step, or of the job, to a setup. -/
structure Walk where
  /-- The step at which the walk starts; `none` for the job. -/
  start : Option Nat
  /-- The setups that the walk passes through. -/
  via : List String
  /-- The setup at its end. -/
  name : String
deriving DecidableEq, Repr

namespace Walk

variable {table : Value}

/-- The walks to some names that go on in one way. -/
def each (start : Option Nat) (via names : List String) : List Walk := names.map (⟨start, via, ·⟩)

/-- The walks that go one reference further. -/
def onward (table : Value) (w : Walk) : List Walk :=
  each w.start (w.via ++ [w.name]) (needs table w.name)

/-- The setups at the ends of walks. -/
def ends (ws : List Walk) : List String := ws.map (·.name)

/-- The names that walks may still come to for the first time. -/
def unmet (table : Value) (met todo : List Walk) : Finset String :=
  (allNeeded table ++ ends todo).toFinset \ (ends met).toFinset

theorem mem_unmet {met todo : List Walk} {s : String} :
    s ∈ unmet table met todo ↔ (s ∈ allNeeded table ∨ s ∈ ends todo) ∧ s ∉ ends met := by
  simp [unmet]

theorem ends_each {start : Option Nat} {via names : List String} :
    ends (each start via names) = names := by
  rw [ends, each, List.map_map]
  exact List.map_id names

theorem ends_append (xs ys : List Walk) : ends (xs ++ ys) = ends xs ++ ends ys := List.map_append

theorem unmet_skip (met todo : List Walk) (w : Walk) :
    unmet table met todo ⊆ unmet table met (w :: todo) := by
  intro s hs
  rw [mem_unmet] at hs ⊢
  exact ⟨hs.1.imp_right fun h => List.mem_cons_of_mem _ h, hs.2⟩

theorem unmet_enter {met todo : List Walk} {w : Walk} (hw : w.name ∉ ends met) :
    unmet table (met ++ [w]) (w.onward table ++ todo) ⊂ unmet table met (w :: todo) := by
  refine (Finset.ssubset_iff_of_subset fun s hs => ?_).mpr ⟨w.name, ?_, ?_⟩
  · rw [mem_unmet, ends_append, ends_append, onward, ends_each] at hs
    rw [mem_unmet]
    obtain ⟨hs, hmet⟩ := hs
    refine ⟨?_, fun h => hmet (List.mem_append_left _ h)⟩
    rcases hs with hs | hs
    · exact Or.inl hs
    · rcases List.mem_append.mp hs with hs | hs
      · exact Or.inl (mem_allNeeded hs)
      · exact Or.inr (List.mem_cons_of_mem _ hs)
  · exact mem_unmet.mpr ⟨Or.inr (List.mem_cons_self ..), hw⟩
  · intro h
    exact (mem_unmet.mp h).2 (by rw [ends_append]; simp [ends])

/-- The walks on which setups are first met, after those in `met`. -/
def firstMet (table : Value) (met : List Walk) : List Walk → List Walk
  | [] => met
  | w :: todo =>
    if w.name ∈ ends met then firstMet table met todo
    else firstMet table (met ++ [w]) (w.onward table ++ todo)
termination_by todo => ((unmet table met todo).card, todo.length)
decreasing_by
  · refine Prod.Lex.right' _ (Finset.card_le_card (unmet_skip met todo w)) ?_
    simp
  · exact Prod.Lex.left _ _ (Finset.card_lt_card (unmet_enter ‹_›))

theorem firstMet_nil (met : List Walk) : firstMet table met [] = met := by rw [firstMet]

theorem firstMet_skip {met todo : List Walk} {w : Walk} (h : w.name ∈ ends met) :
    firstMet table met (w :: todo) = firstMet table met todo := by
  rw [firstMet, if_pos h]

theorem firstMet_enter {met todo : List Walk} {w : Walk} (h : w.name ∉ ends met) :
    firstMet table met (w :: todo) = firstMet table (met ++ [w]) (w.onward table ++ todo) := by
  rw [firstMet, if_neg h]

/-- What comes later is met after all that comes before. -/
theorem firstMet_append (met xs ys : List Walk) :
    firstMet table met (xs ++ ys) = firstMet table (firstMet table met xs) ys := by
  induction met, xs using firstMet.induct table with
  | case1 met => rw [firstMet_nil, List.nil_append]
  | case2 met w todo h ih => rw [List.cons_append, firstMet_skip h, firstMet_skip h, ih]
  | case3 met w todo h ih =>
    rw [List.cons_append, firstMet_enter h, firstMet_enter h, ← List.append_assoc, ih]

/-- A walk under path checks: it starts at a step that has some, and does not pass through the
checkout. -/
def Conditional (hasPaths : Option Nat → Prop) (w : Walk) : Prop :=
  hasPaths w.start ∧ Graph.checkoutSetup ∉ w.via

end Walk

end StepLoom
