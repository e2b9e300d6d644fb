import StepLoom.Compile.Registry
import StepLoom.Proofs.Needs
import Mathlib.Data.List.TakeWhile

/-!
# Claiming step ids

Patterns whose names come out alike get the candidates of that name in turn. `Holds` describes a
registry that started empty: under each name, the candidates belong to the pattern lists that came
to this name, in the order in which they came.

**Theorem (`Holds.claim`).** New patterns get the next candidate of their name, unless the
candidates have run out.
-/

namespace StepLoom

/-! ## Names -/

namespace Check

theorem isWordChar_of_mem_wordsJoined {c : Char} {inRun : Bool} {cs : List Char}
    (h : c ∈ wordsJoined inRun cs) : isWordChar c := by
  induction cs generalizing inRun with
  | nil => cases h
  | cons d rest ih =>
    rw [wordsJoined] at h
    split_ifs at h with hd hrun
    · rcases List.mem_cons.mp h with rfl | h
      · exact hd
      · exact ih h
    · exact ih h
    · rcases List.mem_cons.mp h with rfl | h
      · rfl
      · exact ih h

theorem mem_intercalate {c : Char} {sep : List Char} {ls : List (List Char)}
    (h : c ∈ sep.intercalate ls) : c ∈ sep ∨ ∃ l ∈ ls, c ∈ l := by
  induction ls with
  | nil => cases h
  | cons l ls ih =>
    cases ls with
    | nil =>
      rw [List.intercalate_singleton] at h
      exact Or.inr ⟨l, by simp, h⟩
    | cons l' rest =>
      rw [List.intercalate_cons_cons, List.append_assoc, List.mem_append, List.mem_append] at h
      rcases h with h | h | h
      · exact Or.inr ⟨l, by simp, h⟩
      · exact Or.inl h
      · exact (ih h).imp_right fun ⟨m, hm, hc⟩ => ⟨m, List.mem_cons_of_mem l hm, hc⟩

/-- Names of path checks are words. -/
theorem isWordChar_of_mem_outputName {c : Char} {ps : List String}
    (h : c ∈ (outputName ps).toList) : isWordChar c := by
  rw [outputName, String.toList_append, List.mem_append, String.toList_intercalate] at h
  rcases h with h | h
  · exact List.all_eq_true.mp (by decide : "paths_".toList.all isWordChar = true) c h
  · rcases mem_intercalate h with h | ⟨l, hl, hc⟩
    · exact List.all_eq_true.mp (by decide : "__".toList.all isWordChar = true) c h
    · simp only [List.map_map, List.mem_map, Function.comp] at hl
      obtain ⟨p, -, rfl⟩ := hl
      rw [String.toList_ofList] at hc
      exact isWordChar_of_mem_wordsJoined hc

end Check

namespace Registry

open Check (outputName)

/-- A name and its candidates have no more than the name before the hyphen. -/
theorem takeWhile_candidate (ps : List String) (n : Nat) :
    (candidate (outputName ps) n).toList.takeWhile (· ≠ '-') = (outputName ps).toList := by
  have hword : ∀ c ∈ (outputName ps).toList, decide (c ≠ '-') = true := by
    intro c hc
    have h := Check.isWordChar_of_mem_outputName hc
    rw [decide_eq_true_eq]
    rintro rfl
    cases h
  unfold candidate
  split_ifs
  · exact List.takeWhile_eq_self_iff.mpr hword
  · rw [String.toList_append, String.toList_append, List.append_assoc,
      List.takeWhile_append_of_pos hword]
    simp

theorem candidate_inj {ps qs : List String} {m n : Nat} :
    candidate (outputName ps) m = candidate (outputName qs) n ↔
      outputName ps = outputName qs ∧ m = n := by
  constructor
  · intro h
    have hname : outputName ps = outputName qs := by
      have := congrArg (fun s => s.toList.takeWhile (· ≠ '-')) h
      rw [takeWhile_candidate, takeWhile_candidate] at this
      exact String.toList_injective this
    refine ⟨hname, ?_⟩
    rw [hname] at h
    unfold candidate at h
    have hhyphen : "-".length = 1 := rfl
    split_ifs at h with hm hn hn
    · rw [hm, hn]
    · have hlen := congrArg String.length h
      rw [String.length_append, String.length_append] at hlen
      omega
    · have hlen := congrArg String.length h
      rw [String.length_append, String.length_append] at hlen
      omega
    · exact Graph.toString_inj.mp ((String.append_right_inj _).mp h)
  · rintro ⟨hname, rfl⟩
    rw [hname]

/-- The step id is a candidate of the name of some patterns. -/
def IsCandidate (id : String) : Prop := ∃ ps n, id = candidate (outputName ps) n

theorem exists_candidate_of_claimFrom {r r' : Registry} {ps : List String} {name id : String}
    {tries n : Nat} (h : r.claimFrom ps name tries n = some (id, r')) :
    ∃ m, id = candidate name m := by
  induction tries generalizing n with
  | zero => cases h
  | succ tries ih =>
    rw [claimFrom] at h
    cases ho : r.owner? (candidate name n) with
    | none =>
      simp only [ho] at h
      exact ⟨n, (Prod.mk.inj (Option.some.inj h)).1.symm⟩
    | some owner =>
      simp only [ho] at h
      split_ifs at h
      · exact ⟨n, (Prod.mk.inj (Option.some.inj h)).1.symm⟩
      · exact ih h

theorem claim_eq_ok {r r' : Registry} {ps : List String} {id : String} :
    r.claim ps = .ok (id, r') ↔ r.claimFrom ps (outputName ps) maxTries 0 = some (id, r') := by
  rw [claim]
  cases r.claimFrom ps (outputName ps) maxTries 0 <;> simp

theorem isCandidate_of_claim {r r' : Registry} {ps : List String} {id : String}
    (h : r.claim ps = .ok (id, r')) : IsCandidate id :=
  ⟨ps, exists_candidate_of_claimFrom (claim_eq_ok.mp h)⟩

/-- What a claim makes of a registry: nothing if the id was theirs, else one more owner. -/
theorem claimFrom_cases {r r' : Registry} {ps : List String} {name id : String} {tries n : Nat}
    (h : r.claimFrom ps name tries n = some (id, r')) :
    r' = r ∧ r.owner? id = some ps ∨ r' = ⟨r.claims ++ [(id, ps)]⟩ ∧ r.owner? id = none := by
  induction tries generalizing n with
  | zero => cases h
  | succ tries ih =>
    rw [claimFrom] at h
    cases ho : r.owner? (candidate name n) with
    | none =>
      simp only [ho] at h
      obtain ⟨rfl, rfl⟩ := Prod.mk.inj (Option.some.inj h)
      exact .inr ⟨rfl, ho⟩
    | some owner =>
      simp only [ho] at h
      split_ifs at h with hself
      · obtain ⟨rfl, rfl⟩ := Prod.mk.inj (Option.some.inj h)
        exact .inl ⟨rfl, hself ▸ ho⟩
      · exact ih h

/-! ## Registries that started empty -/

variable {r : Registry} {done : List (List String)} {ps : List String}

/-- The pattern lists among some that come to the same name. -/
def namesakes (done : List (List String)) (ps : List String) : List (List String) :=
  done.filter fun qs => outputName qs = outputName ps

/-- The candidates of each name belong to the pattern lists that came to it, in order. -/
def Holds (done : List (List String)) (r : Registry) : Prop :=
  ∀ ps n, r.owner? (candidate (outputName ps) n) = (namesakes done ps)[n]?

theorem holds_empty : Holds [] {} := fun _ _ => rfl

theorem owner?_append {id id' : String} :
    (Registry.mk (r.claims ++ [(id', ps)])).owner? id =
      (r.owner? id).or (if id' = id then some ps else none) := by
  simp only [owner?, List.find?_append, Option.map_or]
  congr 1
  by_cases h : id' = id <;> simp [h]

/-- An id belongs to the patterns that it was claimed for. -/
theorem owner_of_claim {r' : Registry} {id : String} (h : r.claim ps = .ok (id, r')) :
    r'.owner? id = some ps := by
  obtain ⟨rfl, howner⟩ | ⟨rfl, hfree⟩ := claimFrom_cases (claim_eq_ok.mp h)
  · exact howner
  · rw [owner?_append, hfree, Option.none_or, if_pos rfl]

/-- An id that has an owner keeps it. -/
theorem owner_kept {r' : Registry} {id id' : String} {qs : List String}
    (h : r.claim ps = .ok (id, r')) (howner : r.owner? id' = some qs) :
    r'.owner? id' = some qs := by
  obtain ⟨rfl, -⟩ | ⟨rfl, -⟩ := claimFrom_cases (claim_eq_ok.mp h)
  · exact howner
  · rw [owner?_append, howner, Option.some_or]

theorem namesakes_append (done more : List (List String)) (qs : List String) :
    namesakes (done ++ more) qs = namesakes done qs ++ namesakes more qs := List.filter_append ..

theorem namesakes_snoc (qs : List String) : namesakes (done ++ [ps]) qs =
    namesakes done qs ++ if outputName ps = outputName qs then [ps] else [] := by
  rw [namesakes_append, namesakes, namesakes, List.filter_cons, List.filter_nil]
  simp only [decide_eq_true_eq]

theorem namesakes_congr {qs : List String} (h : outputName ps = outputName qs) :
    namesakes done ps = namesakes done qs := by
  rw [namesakes, h, namesakes]

/-- A list that still gets a candidate takes no name past the limit. -/
theorem length_namesakes_snoc_le {qs : List String} {m : Nat}
    (hq : (namesakes done qs).length ≤ m) (hp : (namesakes done ps).length < m) :
    (namesakes (done ++ [ps]) qs).length ≤ m := by
  rw [namesakes_snoc]
  split_ifs with hname
  · rw [namesakes_congr hname] at hp
    rw [List.length_append, List.length_singleton]
    omega
  · rwa [List.append_nil]

theorem length_namesakes_lt (done more : List (List String)) (ps : List String) :
    (namesakes done ps).length < (namesakes (done ++ ps :: more) ps).length := by
  rw [namesakes_append, namesakes, namesakes, List.filter_cons_of_pos (by simp)]
  simp

theorem Holds.claimFrom (h : Holds done r) (hnew : ps ∉ done) {tries n : Nat}
    (hn : n ≤ (namesakes done ps).length) : r.claimFrom ps (outputName ps) tries n =
      if (namesakes done ps).length < n + tries then
        some (candidate (outputName ps) (namesakes done ps).length,
          ⟨r.claims ++ [(candidate (outputName ps) (namesakes done ps).length, ps)]⟩)
      else none := by
  induction tries generalizing n with
  | zero => rw [Registry.claimFrom, if_neg (by omega)]
  | succ tries ih =>
    rw [Registry.claimFrom]
    simp only [h ps n]
    rcases Nat.lt_or_eq_of_le hn with hlt | rfl
    · have hne : (namesakes done ps)[n] ≠ ps := fun he =>
        hnew (List.mem_of_mem_filter (he ▸ List.getElem_mem hlt))
      simp only [List.getElem?_eq_getElem hlt, if_neg hne]
      rw [ih hlt, show n + 1 + tries = n + (tries + 1) by omega]
    · simp

/-- **New patterns get the next candidate of their name.** -/
theorem Holds.claim (h : Holds done r) (hnew : ps ∉ done)
    (hlt : (namesakes done ps).length < maxTries) :
    ∃ id r', r.claim ps = .ok (id, r') ∧ Holds (done ++ [ps]) r' := by
  have hclaim : r.claim ps = .ok (candidate (outputName ps) (namesakes done ps).length,
      ⟨r.claims ++ [(candidate (outputName ps) (namesakes done ps).length, ps)]⟩) := by
    rw [Registry.claim, h.claimFrom hnew (Nat.zero_le _), if_pos (by omega)]
  refine ⟨_, _, hclaim, fun qs n => ?_⟩
  rw [owner?_append, h qs n, namesakes_snoc]
  by_cases hname : outputName ps = outputName qs
  · rw [if_pos hname, namesakes_congr hname]
    rcases Nat.lt_trichotomy n (namesakes done qs).length with hlt | rfl | hgt
    · rw [List.getElem?_append_left hlt, List.getElem?_eq_getElem hlt, Option.some_or]
    · simp [hname]
    · have hne : candidate (outputName ps) (namesakes done qs).length ≠
          candidate (outputName qs) n := fun he => by
        have := (candidate_inj.mp he).2
        omega
      rw [if_neg hne, Option.or_none, List.getElem?_eq_none hgt.le,
        List.getElem?_eq_none (by simp; omega)]
  · have hne : candidate (outputName ps) (namesakes done ps).length ≠
        candidate (outputName qs) n := fun he => hname (candidate_inj.mp he).1
    rw [if_neg hname, if_neg hne, Option.or_none, List.append_nil]

theorem Holds.claim_error (h : Holds done r) (hnew : ps ∉ done)
    (hle : maxTries ≤ (namesakes done ps).length) : r.claim ps = .error (.noFreeId ps) := by
  rw [Registry.claim, h.claimFrom hnew (Nat.zero_le _), if_neg (by omega)]

theorem Holds.claimFrom_again (h : Holds done r) {k : Nat} (hk : (namesakes done ps)[k]? = some ps)
    {tries n : Nat} (hn : n ≤ k) (htries : k < n + tries) :
    ∃ m, r.claimFrom ps (outputName ps) tries n = some (candidate (outputName ps) m, r) ∧
      r.owner? (candidate (outputName ps) m) = some ps := by
  induction tries generalizing n with
  | zero => omega
  | succ tries ih =>
    have hlt : n < (namesakes done ps).length :=
      Nat.lt_of_le_of_lt hn (List.getElem?_eq_some_iff.mp hk).1
    have howner : r.owner? (candidate (outputName ps) n) = some (namesakes done ps)[n] := by
      rw [h ps n, List.getElem?_eq_getElem hlt]
    simp only [Registry.claimFrom, howner]
    by_cases hself : (namesakes done ps)[n] = ps
    · rw [if_pos hself]
      exact ⟨n, rfl, howner.trans (congrArg some hself)⟩
    · have hne : n ≠ k := by
        rintro rfl
        rw [List.getElem?_eq_getElem hlt] at hk
        exact hself (Option.some.inj hk)
      rw [if_neg hself]
      exact ih (by omega) (by omega)

/-- **Patterns that have a candidate get it again.** -/
theorem Holds.claim_again (h : Holds done r) (hps : ps ∈ done)
    (hle : (namesakes done ps).length ≤ maxTries) :
    ∃ id, r.claim ps = .ok (id, r) ∧ r.owner? id = some ps := by
  obtain ⟨k, hk⟩ := List.getElem?_of_mem (show ps ∈ namesakes done ps by simp [namesakes, hps])
  obtain ⟨hlt, -⟩ := List.getElem?_eq_some_iff.mp hk
  obtain ⟨m, hclaim, howner⟩ :=
    h.claimFrom_again hk (Nat.zero_le k) ((Nat.zero_add maxTries).symm ▸ Nat.lt_of_lt_of_le hlt hle)
  exact ⟨_, claim_eq_ok.mpr hclaim, howner⟩

end Registry

end StepLoom
