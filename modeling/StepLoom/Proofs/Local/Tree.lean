import StepLoom.Workspace
import Mathlib.Data.List.Infix
import Mathlib.Data.List.TakeWhile
import Mathlib.Tactic.Common

/-!
# Files that are put into a tree

Putting an entry adds the directories that lead to it and nothing else (`entry?_put`). So files that
are put below some names stand there as they stand in a tree of their own (`Holds`), and what is
elsewhere stays.

A path without `..` behind a name leads to the names that it gives, or nowhere (`place_settled`). If
a path leads to a directory, this stays so as long as directories stay.
-/

namespace StepLoom

namespace Tree

variable {t t' c : Tree} {names above rest x y h way : List String} {e : Entry} {p : Path}

/-! ## Entries -/

/-- The names lead to the working directory, upwards from it, or to the root of the file system. -/
def IsStart (names : List String) : Prop := leadsUp names || names == [rootName]

instance (names : List String) : Decidable (IsStart names) :=
  inferInstanceAs (Decidable (_ = true))

theorem isStart_nil : IsStart [] := rfl

theorem entry?_of_isStart (hx : IsStart x) : t.entry? x = some .directory := if_pos hx

theorem entry?_of_not_isStart (hx : ¬ IsStart x) :
    t.entry? x = (t.entries.find? fun (k, _) => k == x).map (·.2) := if_neg hx

theorem find?_set {entries : List (List String × Entry)} :
    ((set names e entries).find? fun (k, _) => k == x).map (·.2) =
      if x = names then some e else (entries.find? fun (k, _) => k == x).map (·.2) := by
  induction entries with
  | nil =>
    rw [set, List.find?_singleton]
    by_cases hx : x = names
    · simp [hx]
    · simp [hx, Ne.symm hx]
  | cons f rest ih =>
    obtain ⟨k, old⟩ := f
    rw [set]
    split_ifs with hk hx hx
    · simp [hk, hx]
    · rw [List.find?_cons_of_neg (by simpa [hk] using Ne.symm hx),
        List.find?_cons_of_neg (by simpa [hk] using Ne.symm hx)]
    · rw [List.find?_cons_of_neg (by simpa [hx] using hk), ih, if_pos hx]
    · by_cases hkx : k = x
      · simp [hkx]
      · rw [List.find?_cons_of_neg (by simpa using hkx),
          List.find?_cons_of_neg (by simpa using hkx), ih, if_neg hx]

theorem entry?_set : Tree.entry? ⟨set names e t.entries⟩ x =
    if ¬ IsStart x ∧ x = names then some e else t.entry? x := by
  by_cases hstart : IsStart x
  · rw [if_neg (by simp [hstart]), entry?_of_isStart hstart, entry?_of_isStart hstart]
  · rw [entry?_of_not_isStart hstart, find?_set, entry?_of_not_isStart hstart]
    simp [hstart]

/-- Directories are added at the places on the way where nothing is. -/
theorem entry?_addDirectories : Tree.entry? (t.addDirectories above rest) x =
    if above <+: x ∧ x <+: above ++ rest ∧ x ≠ above then some ((t.entry? x).getD .directory)
    else t.entry? x := by
  induction rest generalizing above t with
  | nil =>
    rw [addDirectories, List.append_nil, if_neg]
    rintro ⟨h, h', hne⟩
    exact hne (h'.eq_of_length_le h.length_le)
  | cons name rest ih =>
    have hcons : above ++ name :: rest = above ++ [name] ++ rest := by simp
    rw [addDirectories, ih, hcons]
    set here := above ++ [name] with hhere
    set t' : Tree := if (t.entry? here).isSome then t else ⟨set here .directory t.entries⟩ with ht'
    have hnew : t'.entry? here = some ((t.entry? here).getD .directory) := by
      rw [ht']
      split_ifs with hsome
      · obtain ⟨e, he⟩ := Option.isSome_iff_exists.mp hsome
        rw [he]
        rfl
      · have hnone : t.entry? here = none := by simpa using hsome
        have hstart : ¬ IsStart here := fun hs => by
          rw [entry?_of_isStart hs] at hnone
          cases hnone
        rw [entry?_set, if_pos ⟨hstart, rfl⟩, hnone]
        rfl
    have hold : ∀ {x}, x ≠ here → t'.entry? x = t.entry? x := by
      intro x hx
      rw [ht']
      split_ifs
      · rfl
      · rw [entry?_set, if_neg (by simp [hx])]
    have hne : here ≠ above := by simp [hhere]
    have habove : above <+: here := List.prefix_append _ _
    by_cases hx : x = here
    · subst hx
      rw [if_neg (by simp), if_pos ⟨habove, List.prefix_append _ _, hne⟩, hnew]
    · rw [hold hx]
      refine if_congr ⟨fun h => ⟨habove.trans h.1, h.2.1, ?_⟩, fun h => ⟨?_, h.2.1, hx⟩⟩ rfl rfl
      · rintro rfl
        exact hne (h.1.eq_of_length_le habove.length_le)
      · -- What is on the way below `above` goes on with the next name.
        obtain ⟨⟨s, rfl⟩, hpre, hnotabove⟩ := h
        rw [hhere, List.append_assoc, List.prefix_append_right_inj] at hpre
        cases s with
        | nil => simp at hnotabove
        | cons a s =>
          obtain rfl := (List.cons_prefix_cons.mp hpre).1
          exact (List.prefix_append_right_inj above).mpr (by simp)

/-- **What putting an entry does**: the entry stands at its names, and there are directories on the
way where nothing was. -/
theorem entry?_put (hnames : ¬ IsStart names) : Tree.entry? (t.put names e) x =
    if x = names then some e
    else if x <+: names then some ((t.entry? x).getD .directory) else t.entry? x := by
  have hne : names ≠ [] := fun h => hnames (h ▸ isStart_nil)
  rw [put, entry?_set, entry?_addDirectories]
  by_cases hx : x = names
  · rw [if_pos ⟨hx ▸ hnames, hx⟩, if_pos hx]
  · rw [if_neg (by simp [hx]), if_neg hx, List.nil_append]
    by_cases hpre : x <+: names
    · have hdrop : x <+: names.dropLast := by
        obtain ⟨s, rfl⟩ := hpre
        have hs : s ≠ [] := by
          rintro rfl
          simp at hx
        rw [List.dropLast_append_of_ne_nil hs]
        exact List.prefix_append _ _
      rw [if_pos hpre]
      by_cases hnil : x = []
      · rw [if_neg (by simp [hnil]), hnil, entry?_of_isStart isStart_nil]
        rfl
      · rw [if_pos ⟨List.nil_prefix, hdrop, hnil⟩]
    · rw [if_neg hpre, if_neg]
      exact fun h => hpre (h.2.1.trans (List.dropLast_prefix names))

/-! ## Files below some names -/

/-- The tree with some files, given by the ways to them from the names `h`. -/
def putBelow (h : List String) (files : List (List String × String)) (t : Tree) : Tree :=
  files.foldl (fun t f => t.put (h ++ f.1) (.file f.2)) t

/-- There is a directory at the names `h`, and it holds the files and nothing else. -/
def Holds (t : Tree) (h : List String) (files : List (List String × String)) : Prop :=
  t.entry? h = some .directory ∧
    ∀ way, ¬ IsStart way → t.entry? (h ++ way) = Tree.entry? (putBelow [] files {}) way

/-- Each way leads to somewhere below its start. -/
def Proper (files : List (List String × String)) : Prop := ∀ f ∈ files, ¬ IsStart f.1

variable {files : List (List String × String)}

theorem putBelow_below (hh : ∀ way, ¬ IsStart (h ++ way)) (hfiles : Proper files)
    (hsame : ∀ way, ¬ IsStart way → t.entry? (h ++ way) = c.entry? way) :
    ∀ way, ¬ IsStart way →
      Tree.entry? (putBelow h files t) (h ++ way) = Tree.entry? (putBelow [] files c) way := by
  induction files generalizing t c with
  | nil => exact hsame
  | cons f rest ih =>
    obtain ⟨hf, hrest⟩ := List.forall_mem_cons.mp hfiles
    refine ih hrest fun way hway => ?_
    dsimp only
    rw [List.nil_append, entry?_put (hh f.1), entry?_put hf, hsame way hway]
    simp only [List.append_right_inj, List.prefix_append_right_inj]

theorem putBelow_elsewhere (hh : ∀ way, ¬ IsStart (h ++ way)) (hbelow : ¬ h <+: x)
    (habove : ¬ x <+: h) : Tree.entry? (putBelow h files t) x = t.entry? x := by
  induction files generalizing t with
  | nil => rfl
  | cons f rest ih =>
    refine (ih (t := t.put (h ++ f.1) (.file f.2))).trans ?_
    rw [entry?_put (hh f.1), if_neg, if_neg]
    · intro hpre
      rcases List.prefix_or_prefix_of_prefix hpre (List.prefix_append h f.1) with h' | h'
      · exact habove h'
      · exact hbelow h'
    · rintro rfl
      exact hbelow (List.prefix_append _ _)

theorem putBelow_above (hh : ∀ way, ¬ IsStart (h ++ way)) (hfiles : Proper files) (hne : files ≠ [])
    (habove : x <+: h) :
    Tree.entry? (putBelow h files t) x = some ((t.entry? x).getD .directory) := by
  induction files generalizing t with
  | nil => exact absurd rfl hne
  | cons f rest ih =>
    obtain ⟨hf, hrest⟩ := List.forall_mem_cons.mp hfiles
    have hstep : Tree.entry? (t.put (h ++ f.1) (.file f.2)) x =
        some ((t.entry? x).getD .directory) := by
      rw [entry?_put (hh f.1), if_neg, if_pos (habove.trans (List.prefix_append _ _))]
      rintro rfl
      have hlen := habove.length_le
      rw [List.length_append] at hlen
      have hnil : f.1 = [] := List.length_eq_zero_iff.mp (by omega)
      exact hf (hnil ▸ isStart_nil)
    change Tree.entry? (putBelow h rest (t.put (h ++ f.1) (.file f.2))) x = _
    rcases List.eq_nil_or_concat rest with rfl | ⟨_, _, hcons⟩
    · exact hstep
    · rw [ih hrest (by simp [hcons]), hstep]
      rfl

/-- **Files that are put where nothing was** are all that stands there. -/
theorem holds_putBelow (hh : ∀ way, ¬ IsStart (h ++ way)) (hfiles : Proper files) (hne : files ≠ [])
    (hnone : ∀ way, t.entry? (h ++ way) = none) : Holds (putBelow h files t) h files := by
  refine ⟨?_, putBelow_below hh hfiles fun way hway => ?_⟩
  · rw [putBelow_above hh hfiles hne (List.prefix_refl h),
      show t.entry? h = none by simpa using hnone []]
    rfl
  · rw [hnone, entry?_of_not_isStart hway]
    rfl

/-! ## Where a path leads -/

/-- Every directory of one tree is a directory of the other. -/
def Keeps (t t' : Tree) : Prop := ∀ x, t.entry? x = some .directory → t'.entry? x = some .directory

theorem follow_append : t.follow h (x ++ y) =
    match t.follow h x with
    | .ok h => t.follow h y
    | .error d => .error d := by
  induction x generalizing h with
  | nil => rfl
  | cons name rest ih =>
    rw [List.cons_append, follow, follow]
    cases t.entry? h with
    | none => rfl
    | some e =>
      cases e with
      | file text => rfl
      | directory => exact ih

theorem place_append : t.place ⟨p.origin, p.names ++ rest⟩ =
    match t.place p with
    | .ok h => t.follow h rest
    | .error d => .error d := follow_append

theorem follow_keeps (hkeeps : Keeps t t') (hok : t.follow h rest = .ok x) :
    t'.follow h rest = .ok x := by
  induction rest generalizing h with
  | nil => exact hok
  | cons name rest ih =>
    rw [follow] at hok ⊢
    cases he : t.entry? h with
    | none => simp [he] at hok
    | some e =>
      cases e with
      | file text => simp [he] at hok
      | directory =>
        rw [he] at hok
        rw [hkeeps h he]
        exact ih hok

theorem eq_of_follow (hdots : ".." ∉ rest) (hok : t.follow h rest = .ok x) : x = h ++ rest := by
  induction rest generalizing h with
  | nil =>
    rw [List.append_nil]
    exact (Except.ok.inj hok).symm
  | cons name rest ih =>
    obtain ⟨hname, hdots⟩ := List.ne_and_not_mem_of_not_mem_cons hdots
    rw [follow] at hok
    cases he : t.entry? h with
    | none => simp [he] at hok
    | some e =>
      cases e with
      | file text => simp [he] at hok
      | directory =>
        rw [he, if_neg hname.symm] at hok
        rw [ih hdots hok, List.append_assoc]
        rfl

theorem follow_of_directories (hdots : ".." ∉ rest)
    (hdir : ∀ x, x <+: h ++ rest → t.entry? x = some .directory) :
    t.follow h rest = .ok (h ++ rest) := by
  induction rest generalizing h with
  | nil => rw [List.append_nil, follow]
  | cons name rest ih =>
    obtain ⟨hname, hdots⟩ := List.ne_and_not_mem_of_not_mem_cons hdots
    have hassoc : h ++ name :: rest = h ++ [name] ++ rest := by simp
    rw [follow, hdir h (List.prefix_append _ _)]
    dsimp only
    rw [if_neg hname.symm, ih hdots (fun x hx => hdir x (hassoc ▸ hx)), hassoc]

theorem follow_up {j k : Nat} : t.follow (List.replicate j "..") (List.replicate k ".." ++ rest) =
    t.follow (List.replicate (j + k) "..") rest := by
  induction k generalizing j with
  | zero => rfl
  | succ k ih =>
    have hup : leadsUp (List.replicate j "..") := by simp [leadsUp]
    have hne : List.replicate j ".." ≠ [rootName] := by
      intro heq
      have hmem : rootName ∈ List.replicate j ".." := heq ▸ List.mem_singleton_self _
      exact absurd (List.eq_of_mem_replicate hmem) (by decide)
    have hdir : t.entry? (List.replicate j "..") = some .directory :=
      entry?_of_isStart (by simp [IsStart, hup])
    rw [List.replicate_succ, List.cons_append, follow, hdir]
    dsimp only
    rw [if_pos rfl, upFrom, if_neg hne, if_pos hup, ← List.replicate_succ, ih]
    congr 2
    omega

end Tree

/-- No `..` stands behind a name, and none behind the root of the file system. -/
def Path.isSettled (p : Path) : Bool :=
  match p.origin with
  | .root _ => ".." ∉ p.names
  | _ => ".." ∉ p.names.dropWhile (· == "..")

namespace Tree

variable {t t' : Tree} {tail x : List String} {p : Path}

/-- A settled path is followed from a start along names without `..`. -/
theorem place_settled (hp : p.isSettled) : ∃ start rest, ".." ∉ rest ∧ namesOf p = start ++ rest ∧
    ∀ (t : Tree) tail, t.place ⟨p.origin, p.names ++ tail⟩ = t.follow start (rest ++ tail) := by
  obtain ⟨origin, names⟩ := p
  have hup : ".." ∉ names.dropWhile (· == "..") → ∃ start rest, ".." ∉ rest ∧
      names = start ++ rest ∧
      ∀ (t : Tree) tail, t.follow [] (names ++ tail) = t.follow start (rest ++ tail) := by
    intro hdots
    have hall : names.takeWhile (· == "..") =
        List.replicate (names.takeWhile (· == "..")).length ".." :=
      List.eq_replicate_of_mem fun x hx => by simpa using List.mem_takeWhile_imp hx
    refine ⟨_, _, hdots, (List.takeWhile_append_dropWhile).symm, fun t tail => ?_⟩
    conv_lhs => rw [← List.takeWhile_append_dropWhile (p := (· == "..")) (l := names)]
    rw [hall, List.append_assoc]
    exact (follow_up (j := 0)).trans (by rw [Nat.zero_add])
  cases origin with
  | root double =>
    exact ⟨[rootName], names, by simpa [Path.isSettled] using hp, rfl, fun _ _ => rfl⟩
  | here => exact hup (by simpa [Path.isSettled] using hp)
  | workDir => exact hup (by simpa [Path.isSettled] using hp)

end Tree

end StepLoom
