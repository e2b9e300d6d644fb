import StepLoom.Proofs.Compile.Claims
import StepLoom.Proofs.Run

/-!
# Histories of requests

One registry answers all requests for step ids that come up in a document, in whatever order its
jobs make them. `Answered` says what is true of the registry after any number of requests: beside
the order of each name's owners (`Registry.Holds`), no list was served twice, no name has passed its
limit, and every id is a candidate of its owner's name.

**Theorem (`requests_answered`).** Over any history, two requests get the same id just when they
name the same patterns, ids never change their owner, and a request fails only when all candidates
of its name belong to other patterns.
-/

namespace StepLoom

namespace Registry

open Check (outputName)

/-! ## Requests -/

/-- A request for the step id of some patterns. One that fails leaves the registry alone. -/
def request (patterns : List String) : Claiming String := ExceptT.mk fun r =>
  match r.claim patterns with
  | .ok (id, r) => (.ok id, r)
  | .error e => (.error e, r)

/-- The registry after some requests. -/
def after (calls : List (List String)) : Registry :=
  calls.foldl (fun r ps => (exec (request ps) r).2) {}

/-- The answer to a request that comes after some others. -/
def answer (before : List (List String)) (ps : List String) : Except Fault String :=
  (exec (request ps) (after before)).1

/-- All candidates of a name are taken by lists other than this one. -/
def Exhausted (r : Registry) (ps : List String) : Prop :=
  ∃ others : List (List String), others.Nodup ∧ others.length = maxTries ∧
    ∀ qs ∈ others, qs ≠ ps ∧ outputName qs = outputName ps ∧ ∃ id, r.owner? id = some qs

variable {r r' : Registry} {done : List (List String)} {ps qs : List String} {id id' : String}

theorem exec_request : exec (request ps) r = match r.claim ps with
    | .ok (id, r') => (.ok id, r')
    | .error e => (.error e, r) := rfl

theorem after_snoc (calls : List (List String)) (ps : List String) :
    after (calls ++ [ps]) = (exec (request ps) (after calls)).2 := by
  rw [after, List.foldl_concat, after]

/-! ## What a request does -/

/-- The state of a registry that has only been asked for ids; `done` are the lists served so far. -/
structure Answered (done : List (List String)) (r : Registry) : Prop where
  holds : Holds done r
  nodup : done.Nodup
  bounded : ∀ qs, (namesakes done qs).length ≤ maxTries
  named : ∀ id qs, r.owner? id = some qs → ∃ n, id = candidate (outputName qs) n

theorem answered_empty : Answered [] {} where
  holds := holds_empty
  nodup := List.nodup_nil
  bounded _ := Nat.zero_le _
  named _ _ h := nomatch h

theorem Answered.mem_of_owner (h : Answered done r) (howner : r.owner? id = some qs) :
    qs ∈ done := by
  obtain ⟨n, rfl⟩ := h.named id qs howner
  rw [h.holds qs n] at howner
  exact List.mem_of_mem_filter (List.mem_of_getElem? howner)

/-- An id and its owner determine each other. -/
theorem Answered.id_unique (h : Answered done r) (hid : r.owner? id = some ps)
    (hid' : r.owner? id' = some ps) : id = id' := by
  obtain ⟨m, rfl⟩ := h.named id ps hid
  obtain ⟨n, rfl⟩ := h.named id' ps hid'
  rw [h.holds] at hid hid'
  obtain ⟨hm, hid⟩ := List.getElem?_eq_some_iff.mp hid
  obtain ⟨hn, hid'⟩ := List.getElem?_eq_some_iff.mp hid'
  rw [(h.nodup.filter _).getElem_inj_iff.mp (hid.trans hid'.symm)]

/-- How a registry goes on after a request: the patterns have their id from before, or they get
one that was free, or there is none left. -/
inductive Turn (done : List (List String)) (r : Registry) (ps : List String) : Prop
  | known (id : String) (hexec : exec (request ps) r = (.ok id, r)) (howner : r.owner? id = some ps)
  | new (id : String) (hexec : exec (request ps) r = (.ok id, ⟨r.claims ++ [(id, ps)]⟩))
      (hfree : r.owner? id = none) (hnext : Answered (done ++ [ps]) ⟨r.claims ++ [(id, ps)]⟩)
  | full (hexec : exec (request ps) r = (.error (.noFreeId ps), r)) (hnew : ps ∉ done)
      (hle : maxTries ≤ (namesakes done ps).length)

theorem Answered.turn (h : Answered done r) (ps : List String) : Turn done r ps := by
  by_cases hnew : ps ∈ done
  · obtain ⟨id, hclaim, howner⟩ := h.holds.claim_again hnew (h.bounded ps)
    exact .known id (by rw [exec_request, hclaim]) howner
  · rcases Nat.lt_or_ge (namesakes done ps).length maxTries with hlt | hge
    · obtain ⟨id, r', hclaim, hholds⟩ := h.holds.claim hnew hlt
      obtain ⟨n, hn⟩ := exists_candidate_of_claimFrom (claim_eq_ok.mp hclaim)
      obtain ⟨rfl, howner⟩ | ⟨rfl, hfree⟩ := claimFrom_cases (claim_eq_ok.mp hclaim)
      · exact absurd (h.mem_of_owner howner) hnew
      · refine .new id (by rw [exec_request, hclaim]) hfree ⟨hholds, ?_, ?_, ?_⟩
        · exact h.nodup.append (List.nodup_singleton ps) (by simpa using hnew)
        · exact fun qs => length_namesakes_snoc_le (h.bounded qs) hlt
        · intro id' qs howner
          rw [owner?_append, Option.or_eq_some_iff] at howner
          obtain howner | ⟨-, howner⟩ := howner
          · exact h.named id' qs howner
          · split_ifs at howner with hid
            · obtain rfl := Option.some.inj howner
              exact ⟨n, hid ▸ hn⟩
    · exact .full (by rw [exec_request, h.holds.claim_error hnew hge]) hnew hge

theorem owner_kept_request (howner : r.owner? id = some qs) :
    (exec (request ps) r).2.owner? id = some qs := by
  rw [exec_request]
  cases hclaim : r.claim ps with
  | error e => exact howner
  | ok answer => exact owner_kept hclaim howner

/-- The owner of an id that was just handed out. -/
theorem owner_of_request (hok : (exec (request ps) r).1 = .ok id) :
    (exec (request ps) r).2.owner? id = some ps := by
  rw [exec_request] at hok ⊢
  cases hclaim : r.claim ps with
  | error e =>
    rw [hclaim] at hok
    cases hok
  | ok answer =>
    rw [hclaim] at hok
    obtain rfl := Except.ok.inj hok
    exact owner_of_claim hclaim

/-- A list that was served has its candidate, however many others have one. -/
theorem Answered.not_exhausted (h : Answered done r) (hps : ps ∈ done) : ¬ Exhausted r ps := by
  rintro ⟨others, hnodup, hlength, hothers⟩
  have hsub : ps :: others ⊆ namesakes done ps := by
    intro qs hqs
    rcases List.mem_cons.mp hqs with rfl | hqs
    · exact List.mem_filter.mpr ⟨hps, by simp⟩
    · obtain ⟨-, hname, id, howner⟩ := hothers qs hqs
      exact List.mem_filter.mpr ⟨h.mem_of_owner howner, by simpa using hname⟩
  have hlist : (ps :: others).Nodup :=
    List.nodup_cons.mpr ⟨fun hmem => (hothers ps hmem).1 rfl, hnodup⟩
  have hle := (List.subperm_of_subset hlist hsub).length_le.trans (h.bounded ps)
  rw [List.length_cons, hlength] at hle
  omega

/-- **A request fails just when its candidates are exhausted.** -/
theorem Answered.error_iff (h : Answered done r) {e : Fault} :
    (exec (request ps) r).1 = .error e ↔ e = .noFreeId ps ∧ Exhausted r ps := by
  cases h.turn ps with
  | known id hexec howner =>
    have hnot := h.not_exhausted (h.mem_of_owner howner)
    simp [hexec, hnot]
  | new id hexec _ hnext =>
    have hlast : ps ∈ done ++ [ps] := by simp
    have hnot : ¬ Exhausted r ps := by
      rintro ⟨others, hnodup, hlength, hothers⟩
      refine hnext.not_exhausted hlast ⟨others, hnodup, hlength, fun qs hqs => ?_⟩
      obtain ⟨hne, hname, id', howner⟩ := hothers qs hqs
      exact ⟨hne, hname, id', by rw [owner?_append, howner, Option.some_or]⟩
    simp [hexec, hnot]
  | full hexec hnew hle =>
    have hfull : Exhausted r ps := by
      refine ⟨(namesakes done ps).take maxTries, (h.nodup.filter _).take, ?_, ?_⟩
      · rw [List.length_take, Nat.min_eq_left hle]
      · intro qs hqs
        have hmem : qs ∈ namesakes done ps := List.mem_of_mem_take hqs
        obtain ⟨hdone, hname⟩ := List.mem_filter.mp hmem
        obtain ⟨k, hk⟩ := List.getElem?_of_mem hmem
        refine ⟨fun he => hnew (he ▸ hdone), of_decide_eq_true hname,
          candidate (outputName ps) k, ?_⟩
        rw [h.holds, hk]
    rw [hexec]
    exact ⟨fun he => ⟨(Except.error.inj he).symm, hfull⟩, fun he => by rw [he.1]⟩

theorem Answered.unchanged_of_error (h : Answered done r) {e : Fault}
    (he : (exec (request ps) r).1 = .error e) : (exec (request ps) r).2 = r := by
  cases h.turn ps with
  | known id hexec _ => rw [hexec]
  | new id hexec _ _ =>
    rw [hexec] at he
    cases he
  | full hexec _ _ => rw [hexec]

/-! ## Histories -/

theorem exists_answered (calls : List (List String)) : ∃ done, Answered done (after calls) := by
  induction calls using List.reverseRecOn with
  | nil => exact ⟨[], answered_empty⟩
  | append_singleton calls ps ih =>
    obtain ⟨done, h⟩ := ih
    rw [after_snoc]
    cases h.turn ps with
    | known id hexec _ => exact ⟨done, by rwa [hexec]⟩
    | new id hexec _ hnext => exact ⟨done ++ [ps], by rwa [hexec]⟩
    | full hexec _ _ => exact ⟨done, by rwa [hexec]⟩

theorem owner_kept_append {calls more : List (List String)}
    (howner : (after calls).owner? id = some qs) :
    (after (calls ++ more)).owner? id = some qs := by
  induction more using List.reverseRecOn with
  | nil => rwa [List.append_nil]
  | append_singleton more ps ih =>
    rw [← List.append_assoc, after_snoc]
    exact owner_kept_request ih

theorem owner_kept_take {calls : List (List String)} {i j : Nat} (hij : i ≤ j)
    (howner : (after (calls.take i)).owner? id = some qs) :
    (after (calls.take j)).owner? id = some qs := by
  obtain ⟨k, rfl⟩ := Nat.exists_eq_add_of_le hij
  rw [List.take_add]
  exact owner_kept_append howner

theorem take_snoc {calls : List (List String)} {i : Nat} (hi : calls[i]? = some ps) :
    calls.take (i + 1) = calls.take i ++ [ps] := by
  rw [List.take_add_one, hi, Option.toList_some]

/-- At the end of a history, an answer belongs to the patterns it was given for. -/
theorem owner_of_answer {calls : List (List String)} {i : Nat} (hi : calls[i]? = some ps)
    (hok : answer (calls.take i) ps = .ok id) : (after calls).owner? id = some ps := by
  have howner : (after (calls.take (i + 1))).owner? id = some ps := by
    rw [take_snoc hi, after_snoc]
    exact owner_of_request hok
  rw [← List.take_length (l := calls)]
  exact owner_kept_take (List.getElem?_eq_some_iff.mp hi).1 howner

/-- **Over any history of requests, ids and pattern lists determine each other.** -/
theorem requests_answered (calls : List (List String)) :
    (∀ i j ps qs id id', calls[i]? = some ps → calls[j]? = some qs →
      answer (calls.take i) ps = .ok id → answer (calls.take j) qs = .ok id' →
        (id = id' ↔ ps = qs)) ∧
    (∀ i j id ps, i ≤ j → (after (calls.take i)).owner? id = some ps →
      (after (calls.take j)).owner? id = some ps) ∧
    (∀ i ps e, calls[i]? = some ps →
      (answer (calls.take i) ps = .error e ↔
        e = .noFreeId ps ∧ Exhausted (after (calls.take i)) ps) ∧
      (answer (calls.take i) ps = .error e →
        after (calls.take (i + 1)) = after (calls.take i))) := by
  refine ⟨?_, fun i j id ps hij => owner_kept_take hij, ?_⟩
  · intro i j ps qs id id' hi hj hok hok'
    have howner := owner_of_answer hi hok
    have howner' := owner_of_answer hj hok'
    constructor
    · rintro rfl
      exact Option.some.inj (howner.symm.trans howner')
    · rintro rfl
      obtain ⟨done, h⟩ := exists_answered calls
      exact h.id_unique howner howner'
  · intro i ps e hi
    obtain ⟨done, h⟩ := exists_answered (calls.take i)
    refine ⟨h.error_iff, fun he => ?_⟩
    rw [take_snoc hi, after_snoc]
    exact h.unchanged_of_error he

-- The two lists have one name, and the first still has its id when it is asked for again.
example : answer [["a.b"]] ["a-b"] = .ok "paths_a_b-1" ∧
    answer [["a.b"], ["a-b"]] ["a.b"] = .ok "paths_a_b" := ⟨rfl, rfl⟩

end Registry

end StepLoom
