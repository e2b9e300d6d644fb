import StepLoom.Local.Action
import StepLoom.Proofs.Local.Acts
import StepLoom.Proofs.Local.Tree
import StepLoom.Proofs.Splitting

/-!
# The cache of actions

An action of another repository is fetched into a directory whose name comes from the reference.
What stands there is not fetched again, whichever reference it was fetched for.

**Theorem (`ensure_first`).** Starting from an empty cache, each request for an action yields a
directory in a clone that was made for the first request with the same place. So it is a clone of
the repository at the ref that are asked for, as long as requests with the same place agree on
these.

They need not agree. Only letters, underscores and dashes go into the name, so two versions of an
action have the same place, and the second one is never fetched (`second_version_not_fetched`).

Places under one cache root do not lie inside each other (`Request.place_eq_of_prefix`). A cache
root inside of what another request fetches is left out.
-/

namespace StepLoom

/-- A text without a slash names one place, or none. -/
theorem Path.ofText_of_not_mem {s : String} (h : '/' ∉ s.toList) :
    Path.ofText s = ⟨.here, [s].filter isName⟩ := by
  have horigin : originOf s.toList = .here := by
    have htake : s.toList.takeWhile (· = '/') = [] := by
      cases hs : s.toList with
      | nil => rfl
      | cons c rest =>
        rw [hs] at h
        rw [List.takeWhile_cons_of_neg]
        simpa using (List.ne_and_not_mem_of_not_mem_cons h).1.symm
    rw [originOf, htake]
    rfl
  rw [Path.ofText, horigin, Text.split, Text.splitOnChar_of_not_mem h]
  simp

namespace Action

/-! ## Requests -/

/-- A request for the directory of an action. -/
structure Request where
  uses : String
  cacheRoot : Path

namespace Request

variable (q : Request) (t : Tree)

def repository : String := (Reference.ofText q.uses).repository

def ref : String := (Reference.ofText q.uses).ref

/-- The path that the repository is fetched to. -/
def target : Path := cachePath q.cacheRoot q.uses

/-- The names that lead from the cache root to the place of the reference. -/
def tail : List String :=
  (Path.ofText cacheDirectory).names ++ (Path.ofText (cacheName q.uses)).names

/-- The names that the cache root leads to, or else the names that it gives. -/
def home : List String :=
  match t.place q.cacheRoot with
  | .ok names => names
  | .error _ => Tree.namesOf q.cacheRoot

/-- The names that lead to what is fetched. -/
def place : List String := q.home t ++ q.tail

/-- The directory of the action, inside what is fetched. -/
def directory : Path :=
  ⟨q.target.origin, q.target.names ++ (Reference.ofText q.uses).directory.filter Path.isName⟩

/-- How git is asked to fetch the repository. -/
def cloneArgs : List String :=
  ["clone", "--quiet", "--depth", "1"] ++ (if q.ref = "" then [] else ["--branch", q.ref]) ++
    ["https://github.com/" ++ q.repository ++ ".git", q.target.text]

end Request

variable {q : Request} {t t₀ : Tree} {w : Workspace}

theorem isCacheChar_of_mem_cacheName {uses : String} {c : Char}
    (h : c ∈ (cacheName uses).toList) : isCacheChar c := by
  rw [cacheName, String.toList_ofList, List.mem_map] at h
  obtain ⟨d, -, rfl⟩ := h
  split_ifs with hd
  · exact hd
  · decide

theorem ofText_cacheName (uses : String) :
    Path.ofText (cacheName uses) = ⟨.here, [cacheName uses].filter Path.isName⟩ :=
  Path.ofText_of_not_mem fun h => absurd (isCacheChar_of_mem_cacheName h) (by decide)

theorem cacheName_ne {uses s : String} (h : '.' ∈ s.toList) : cacheName uses ≠ s := by
  rintro rfl
  exact absurd (isCacheChar_of_mem_cacheName h) (by decide)

theorem ofText_cacheDirectory :
    Path.ofText cacheDirectory = ⟨.here, ["node_modules", ".actions-cache"]⟩ := by
  decide

theorem Request.dots_not_mem_tail : ".." ∉ q.tail := by
  rw [Request.tail, ofText_cacheName, ofText_cacheDirectory, List.mem_append, not_or]
  refine ⟨by decide, fun h => ?_⟩
  have heq : ".." = cacheName q.uses := List.mem_singleton.mp (List.mem_of_mem_filter h)
  exact cacheName_ne (by decide) heq.symm

theorem Request.target_eq (q : Request) :
    q.target = ⟨q.cacheRoot.origin, q.cacheRoot.names ++ q.tail⟩ := by
  change ((q.cacheRoot.join (Path.ofText cacheDirectory)).join (Path.ofText (cacheName q.uses))) = _
  rw [tail, ofText_cacheName, ofText_cacheDirectory, Path.join, Path.join, List.append_assoc]

/-- The way inside the repository is appended name by name. -/
theorem Request.directory_eq (q : Request) :
    (Reference.ofText q.uses).directory.foldl (fun (p : Path) (name : String) => p / name)
      q.target = q.directory := by
  suffices hfold : ∀ (names : List String) (p : Path), (∀ name ∈ names, '/' ∉ name.toList) →
      names.foldl (fun (p : Path) (name : String) => p / name) p =
        ⟨p.origin, p.names ++ names.filter Path.isName⟩ by
    refine hfold _ _ fun name hname => ?_
    have hmem := List.mem_of_mem_drop hname
    obtain ⟨piece, hpiece, rfl⟩ := List.mem_map.mp hmem
    rw [String.toList_ofList]
    exact Text.not_mem_of_mem_splitOnChar hpiece
  intro names
  induction names with
  | nil => simp
  | cons name rest ih =>
    intro p h
    obtain ⟨hname, hrest⟩ := List.forall_mem_cons.mp h
    rw [List.foldl_cons, ih _ hrest]
    change (⟨(p.join (Path.ofText name)).origin,
      (p.join (Path.ofText name)).names ++ rest.filter Path.isName⟩ : Path) = _
    rw [Path.ofText_of_not_mem hname, Path.join, List.append_assoc, ← List.filter_append]
    rfl

/-! ## Where requests lead -/

/-- The place of a request is none of the starts of paths, and neither is anything below it. -/
theorem Request.not_isStart (way : List String) : ¬ Tree.IsStart (q.place t ++ way) := by
  have hmem : "node_modules" ∈ q.place t ++ way := by
    have htail : "node_modules" ∈ q.tail := by
      rw [Request.tail, ofText_cacheDirectory]
      exact List.mem_cons_self
    exact List.mem_append_left _ (List.mem_append_right _ htail)
  intro h
  rcases Bool.or_eq_true_iff.mp h with hup | hroot
  · exact absurd (List.all_eq_true.mp hup _ hmem) (by decide)
  · rw [beq_iff_eq.mp hroot, List.mem_singleton] at hmem
    exact absurd hmem (by decide)

/-- Places under one cache root do not lie inside each other. -/
theorem Request.place_eq_of_prefix {p : Request} (hroot : p.cacheRoot = q.cacheRoot)
    (hp : p.uses ≠ "") (hq : q.uses ≠ "") (h : p.place t <+: q.place t) :
    p.place t = q.place t := by
  have hlength : ∀ r : Request, r.uses ≠ "" → r.tail.length = 3 := by
    intro r hr
    have hname : Path.isName (cacheName r.uses) := by
      obtain ⟨c, rest, hchars⟩ := List.exists_cons_of_ne_nil (mt String.toList_eq_nil_iff.mp hr)
      have hdot : cacheName r.uses ≠ "." := cacheName_ne (by decide)
      have hempty : cacheName r.uses ≠ "" := by
        rw [cacheName, hchars]
        simp [← String.toList_eq_nil_iff]
      simp [Path.isName, hdot, hempty]
    simp [tail, ofText_cacheDirectory, ofText_cacheName, hname]
  refine h.eq_of_length ?_
  rw [place, place, home, hroot, ← home, List.length_append, List.length_append, hlength p hp,
    hlength q hq]

/-- The cache root has no `..` behind a name, or it is a directory. -/
def Request.Rooted (t : Tree) (q : Request) : Prop :=
  q.cacheRoot.isSettled ∨ t.isDirectory q.cacheRoot

/-- The path of a request leads to its place, if it leads anywhere. -/
theorem Request.Rooted.follow (h : q.Rooted t₀) (hkeeps : Tree.Keeps t₀ t) :
    ∃ start rest, ".." ∉ rest ∧ q.place t₀ = start ++ rest ∧
      t.place q.target = t.follow start rest := by
  rw [q.target_eq]
  rcases h with hsettled | hdirectory
  · obtain ⟨start, rest, hdots, hnames, hplace⟩ := Tree.place_settled hsettled
    refine ⟨start, rest ++ q.tail, ?_, ?_, hplace t q.tail⟩
    · rw [List.mem_append, not_or]
      exact ⟨hdots, q.dots_not_mem_tail⟩
    · have hroot : t₀.place q.cacheRoot = t₀.follow start rest := by
        simpa using hplace t₀ []
      have hhome : q.home t₀ = start ++ rest := by
        rw [Request.home, hroot]
        cases hok : t₀.follow start rest with
        | ok names => exact Tree.eq_of_follow hdots hok
        | error d => exact hnames
      rw [Request.place, hhome, List.append_assoc]
  · rw [Tree.isDirectory, Tree.at?] at hdirectory
    cases hok : t₀.place q.cacheRoot with
    | error d => simp [hok] at hdirectory
    | ok names =>
      have hhome : q.home t₀ = names := by rw [Request.home, hok]
      refine ⟨names, q.tail, q.dots_not_mem_tail, by rw [Request.place, hhome], ?_⟩
      rw [Tree.place_append, show t.place q.cacheRoot = .ok names from Tree.follow_keeps hkeeps hok]

theorem Request.Rooted.has (h : q.Rooted t₀) (hkeeps : Tree.Keeps t₀ t)
    (hdir : ∀ x, x <+: q.place t₀ → t.entry? x = some .directory) :
    t.place q.target = .ok (q.place t₀) ∧ t.has q.target := by
  obtain ⟨start, rest, hdots, hplace, hfollow⟩ := h.follow hkeeps
  have hok : t.place q.target = .ok (q.place t₀) := by
    rw [hplace] at hdir ⊢
    rw [hfollow, Tree.follow_of_directories hdots hdir]
  refine ⟨hok, ?_⟩
  rw [Tree.has, Tree.at?, hok]
  dsimp only
  rw [hdir _ (List.prefix_refl _)]
  rfl

theorem Request.Rooted.not_has (h : q.Rooted t₀) (hkeeps : Tree.Keeps t₀ t)
    (hnone : t.entry? (q.place t₀) = none) : ¬ t.has q.target := by
  obtain ⟨start, rest, hdots, hplace, hfollow⟩ := h.follow hkeeps
  rw [Tree.has, Tree.at?, hfollow]
  cases hok : t.follow start rest with
  | error d => simp
  | ok names =>
    rw [Tree.eq_of_follow hdots hok, ← hplace]
    simp [hnone]

/-! ## One request -/

/-- The names that a written file is put under, and its text. -/
def written (f : String × String) : List String × String := (Tree.namesOf (.ofText f.1), f.2)

theorem putFiles_eq {files : List (String × String)} {h : List String}
    {contents : List (List String × String)}
    (hfiles : files.map written = contents.map fun f => (h ++ f.1, f.2)) :
    t.putFiles files = t.putBelow h contents := by
  have hput : t.putFiles files =
      (files.map written).foldl (fun t f => t.put f.1 (.file f.2)) t := by
    rw [List.foldl_map]
    rfl
  rw [hput, hfiles, List.foldl_map]
  rfl

/-- What is there is not fetched. -/
theorem exec_ensure_present (h : w.tree.has q.target) :
    exec (ensure q.uses q.cacheRoot) w = (.ok q.directory, w) := by
  have hhas : exec (Act.has (cachePath q.cacheRoot q.uses)) w = (.ok true, w) :=
    congrArg (fun b => (Except.ok b, w)) h
  rw [ensure, exec_bind_ok hhas]
  exact congrArg (fun p => (Except.ok p, w)) q.directory_eq

theorem clone_eq : Git.clone q.repository q.target.text (some q.ref) =
    discard (Act.git q.cloneArgs none) := by
  unfold Git.clone Request.cloneArgs
  by_cases href : q.ref = ""
  · rw [href]
    rfl
  · simp [href, Option.filter]

/-- What is not there is fetched. -/
theorem exec_ensure_absent {a : GitAnswer} (h : ¬ w.tree.has q.target)
    (ha : w.git.find? (fun a => a.args == q.cloneArgs) = some a) (hcode : a.code = 0) :
    ∃ w', exec (ensure q.uses q.cacheRoot) w = (.ok q.directory, w') ∧
      w'.tree = w.tree.putFiles a.writes ∧ w'.git = w.git := by
  have hhas : exec (Act.has (cachePath q.cacheRoot q.uses)) w = (.ok false, w) :=
    congrArg (fun b => (Except.ok b, w)) (Bool.eq_false_iff.mpr h)
  have hclone : ∀ stdout, exec (Git.clone (Reference.ofText q.uses).repository
      (cachePath q.cacheRoot q.uses).text (some (Reference.ofText q.uses).ref)) { w with stdout } =
      (.ok (), { w with
        stdout
        tree := w.tree.putFiles a.writes
        calls := w.calls ++ [Call.git q.cloneArgs none] }) := by
    intro stdout
    refine (congrArg (exec · _) (clone_eq (q := q))).trans ?_
    rw [exec_discard, Act.exec_git (w := { w with stdout }) ha hcode]
  have hdirectory := q.directory_eq
  rw [Request.target] at hdirectory
  rw [ensure, exec_bind_ok hhas]
  simp only [Bool.not_false, if_true]
  rw [exec_bind_ok (Act.exec_print _), exec_bind_ok (hclone _), exec_bind_ok (Act.exec_print _),
    exec_pure, hdirectory]
  exact ⟨_, rfl, rfl, rfl⟩

/-! ## All requests -/

/-- The directories of some actions, one after another. -/
def ensureAll : List Request → Act (List Path)
  | [] => return []
  | q :: rest => do
    let directory ← ensure q.uses q.cacheRoot
    return directory :: (← ensureAll rest)

/-- The files of a repository at a ref. -/
abbrev Contents := String → String → List (List String × String)

variable {contents : Contents} {qs done : List Request}

/-- The first request with the place of `q`. -/
def firstAt (t : Tree) (qs : List Request) (q : Request) : Option Request :=
  qs.find? fun p => p.place t = q.place t

/-- Nothing is in the cache, and git fetches what it is asked for. -/
structure Ready (contents : Contents) (w : Workspace) (qs : List Request) : Prop where
  rooted : ∀ q ∈ qs, q.Rooted w.tree
  /-- Nothing is at the place of a request, -/
  empty : ∀ q ∈ qs, ∀ way, w.tree.entry? (q.place w.tree ++ way) = none
  /-- and no file is on the way to it. -/
  passable : ∀ q ∈ qs, ∀ x, x <+: q.place w.tree → ∀ text, w.tree.entry? x ≠ some (.file text)
  /-- No place of a request lies inside that of another one. -/
  apart : ∀ p ∈ qs, ∀ q ∈ qs, p.place w.tree <+: q.place w.tree → p.place w.tree = q.place w.tree
  /-- The repository is put into the place of the request. -/
  fetched : ∀ q ∈ qs, ∃ a, w.git.find? (fun a => a.args == q.cloneArgs) = some a ∧ a.code = 0 ∧
    a.writes.map written =
      (contents q.repository q.ref).map fun f => (q.place w.tree ++ f.1, f.2)
  /-- A repository has files, and they are in it. -/
  proper : ∀ q ∈ qs, contents q.repository q.ref ≠ [] ∧ Tree.Proper (contents q.repository q.ref)

/-- The cache after some requests: at each place is what was fetched for the first of them. -/
structure Stocked (contents : Contents) (w₀ : Workspace) (qs done : List Request) (w : Workspace) :
    Prop where
  git : w.git = w₀.git
  keeps : Tree.Keeps w₀.tree w.tree
  passable : ∀ q ∈ qs, ∀ x, x <+: q.place w₀.tree → ∀ text, w.tree.entry? x ≠ some (.file text)
  stored : ∀ q ∈ qs, ∀ p, firstAt w₀.tree done q = some p →
    (∀ x, x <+: q.place w₀.tree → w.tree.entry? x = some .directory) ∧
      w.tree.Holds (q.place w₀.tree) (contents p.repository p.ref)
  missing : ∀ q ∈ qs, firstAt w₀.tree done q = none →
    ∀ way, w.tree.entry? (q.place w₀.tree ++ way) = none

theorem firstAt_append {r : Request} : firstAt t (done ++ [q]) r =
    (firstAt t done r).or (if q.place t = r.place t then some q else none) := by
  rw [firstAt, List.find?_append, List.find?_singleton]
  simp [firstAt]

section

variable {w₀ : Workspace} (hready : Ready contents w₀ qs) (hq : q ∈ qs)
  (hnone : ∀ way, t.entry? (q.place w₀.tree ++ way) = none)

include hnone in
/-- No directory is replaced when files are put where nothing was. -/
theorem keeps_putBelow {files : List (List String × String)} (hfiles : Tree.Proper files)
    (hne : files ≠ []) : Tree.Keeps t (t.putBelow (q.place w₀.tree) files) := by
  intro x hx
  by_cases hbelow : q.place w₀.tree <+: x
  · obtain ⟨way, rfl⟩ := hbelow
    rw [hnone way] at hx
    cases hx
  · by_cases habove : x <+: q.place w₀.tree
    · rw [Tree.putBelow_above Request.not_isStart hfiles hne habove, hx]
      rfl
    · rw [Tree.putBelow_elsewhere Request.not_isStart hbelow habove, hx]

include hready hq in
/-- At the places of other requests nothing changes. -/
theorem putBelow_other {files : List (List String × String)} {r : Request} (hr : r ∈ qs)
    (hplace : q.place w₀.tree ≠ r.place w₀.tree) (way : List String) :
    Tree.entry? (t.putBelow (q.place w₀.tree) files) (r.place w₀.tree ++ way) =
      t.entry? (r.place w₀.tree ++ way) := by
  refine Tree.putBelow_elsewhere Request.not_isStart (fun hbelow => hplace ?_)
    fun habove => hplace ?_
  · rcases List.prefix_or_prefix_of_prefix hbelow (List.prefix_append _ _) with hpre | hpre
    · exact hready.apart q hq r hr hpre
    · exact (hready.apart r hr q hq hpre).symm
  · exact (hready.apart r hr q hq ((List.prefix_append _ _).trans habove)).symm

include hready hq in
/-- What is fetched into an empty place is added to the cache. -/
theorem Stocked.fetch {w' : Workspace} (h : Stocked contents w₀ qs done w)
    (hfirst : firstAt w₀.tree done q = none) (hgit : w'.git = w.git)
    (htree : w'.tree = w.tree.putBelow (q.place w₀.tree) (contents q.repository q.ref)) :
    Stocked contents w₀ qs (done ++ [q]) w' := by
  obtain ⟨hne, hproper⟩ := hready.proper q hq
  have hempty := h.missing q hq hfirst
  have hkeeps : Tree.Keeps w.tree w'.tree := htree ▸ keeps_putBelow hempty hproper hne
  have hother : ∀ r ∈ qs, q.place w₀.tree ≠ r.place w₀.tree → ∀ way,
      w'.tree.entry? (r.place w₀.tree ++ way) = w.tree.entry? (r.place w₀.tree ++ way) :=
    fun r hr hplace way => htree ▸ putBelow_other hready hq hr hplace way
  have habove : ∀ x, x <+: q.place w₀.tree →
      w'.tree.entry? x = some ((w.tree.entry? x).getD .directory) :=
    fun x hx => htree ▸ Tree.putBelow_above Request.not_isStart hproper hne hx
  have hdirectory : ∀ x, x <+: q.place w₀.tree → w'.tree.entry? x = some .directory := by
    intro x hx
    rw [habove x hx]
    cases hentry : w.tree.entry? x with
    | none => rfl
    | some e =>
      cases e with
      | directory => rfl
      | file text => exact absurd hentry (h.passable q hq x hx text)
  refine ⟨hgit.trans h.git, fun x hx => hkeeps x (h.keeps x hx), fun r hr x hx text => ?_,
    fun r hr p hp => ?_, fun r hr hr' => ?_⟩
  · by_cases hxq : x <+: q.place w₀.tree
    · rw [hdirectory x hxq]
      simp
    · have hqx : ¬ q.place w₀.tree <+: x := fun hqx =>
        hxq (hready.apart q hq r hr (hqx.trans hx) ▸ hx)
      rw [htree, Tree.putBelow_elsewhere Request.not_isStart hqx hxq]
      exact h.passable r hr x hx text
  · rw [firstAt_append] at hp
    cases hold : firstAt w₀.tree done r with
    | some p' =>
      obtain rfl : p' = p := by simpa [hold] using hp
      have hplace : q.place w₀.tree ≠ r.place w₀.tree := by
        intro hsame
        rw [firstAt, hsame] at hfirst
        cases hfirst.symm.trans hold
      obtain ⟨hdir, hroot, hholds⟩ := h.stored r hr p' hold
      refine ⟨fun x hx => hkeeps x (hdir x hx), hkeeps _ hroot, fun way hway => ?_⟩
      rw [hother r hr hplace, hholds way hway]
    | none =>
      rw [hold, Option.none_or] at hp
      split_ifs at hp with hsame
      obtain rfl := Option.some.inj hp
      rw [← hsame]
      exact ⟨hdirectory, htree ▸ Tree.holds_putBelow Request.not_isStart hproper hne hempty⟩
  · rw [firstAt_append, Option.or_eq_none_iff] at hr'
    have hplace : q.place w₀.tree ≠ r.place w₀.tree := fun hsame => by simp [hsame] at hr'
    intro way
    rw [hother r hr hplace, h.missing r hr hr'.1]

/-- What is there already stands for the request, too. -/
theorem Stocked.reuse {p : Request} (h : Stocked contents w₀ qs done w)
    (hfirst : firstAt w₀.tree done q = some p) : Stocked contents w₀ qs (done ++ [q]) w := by
  refine ⟨h.git, h.keeps, h.passable, fun r hr p' hp' => ?_, fun r hr hr' => ?_⟩
  · rw [firstAt_append] at hp'
    cases hold : firstAt w₀.tree done r with
    | some p => exact h.stored r hr p' (by simpa [hold] using hp')
    | none =>
      -- A request with the place of `q` has been made before.
      rw [hold, Option.none_or] at hp'
      split_ifs at hp' with hsame
      rw [firstAt, ← hsame] at hold
      cases hfirst.symm.trans hold
  · rw [firstAt_append, Option.or_eq_none_iff] at hr'
    exact h.missing r hr hr'.1

include hready hq in
/-- **One request** keeps what is in the cache, and adds what is missing. -/
theorem Stocked.ensure (h : Stocked contents w₀ qs done w) :
    ∃ w', exec (Action.ensure q.uses q.cacheRoot) w = (.ok q.directory, w') ∧
      Stocked contents w₀ qs (done ++ [q]) w' := by
  cases hfirst : firstAt w₀.tree done q with
  | some p =>
    obtain ⟨hdir, -⟩ := h.stored q hq p hfirst
    exact ⟨w, exec_ensure_present ((hready.rooted q hq).has h.keeps hdir).2, h.reuse hfirst⟩
  | none =>
    obtain ⟨a, ha, hcode, hwrites⟩ := hready.fetched q hq
    have hnot : ¬ w.tree.has q.target :=
      (hready.rooted q hq).not_has h.keeps (by simpa using h.missing q hq hfirst [])
    obtain ⟨w', hexec, htree, hgit⟩ := exec_ensure_absent hnot (h.git ▸ ha) hcode
    rw [putFiles_eq hwrites] at htree
    exact ⟨w', hexec, h.fetch hready hq hfirst hgit htree⟩

include hready in
/-- **All requests**, one after another. -/
theorem Stocked.ensureAll {rest : List Request} (hrest : ∀ q ∈ rest, q ∈ qs)
    (h : Stocked contents w₀ qs done w) :
    ∃ w', exec (Action.ensureAll rest) w = (.ok (rest.map Request.directory), w') ∧
      Stocked contents w₀ qs (done ++ rest) w' := by
  induction rest generalizing done w with
  | nil => exact ⟨w, rfl, by rwa [List.append_nil]⟩
  | cons q rest ih =>
    obtain ⟨hq, hrest⟩ := List.forall_mem_cons.mp hrest
    obtain ⟨w₁, hexec, h₁⟩ := h.ensure hready hq
    obtain ⟨w₂, hexec', h₂⟩ := ih hrest h₁
    refine ⟨w₂, ?_, by rwa [List.append_assoc] at h₂⟩
    rw [Action.ensureAll, exec_bind_ok hexec, exec_bind_ok hexec']
    rfl

end

theorem Ready.stocked (h : Ready contents w qs) : Stocked contents w qs [] w :=
  ⟨rfl, fun _ hx => hx, h.passable, fun _ _ _ hp => absurd hp (by simp [firstAt]),
    fun q hq _ => h.empty q hq⟩

/-- The first request with the place of `q` is one of the requests, and has this place. -/
theorem exists_firstAt (hq : q ∈ qs) :
    ∃ p ∈ qs, p.place t = q.place t ∧ firstAt t qs q = some p := by
  cases hfirst : firstAt t qs q with
  | none => simpa using List.find?_eq_none.mp hfirst q hq
  | some p =>
    exact ⟨p, List.mem_of_find?_eq_some hfirst, by simpa using List.find?_some hfirst, rfl⟩

/-- **The cache of actions.** Each request yields a directory in a clone that was made for the first
request with the same place; if requests with its place ask for the same, it is a clone of what was
asked for. -/
theorem ensure_first (h : Ready contents w qs) :
    ∃ w', exec (ensureAll qs) w = (.ok (qs.map Request.directory), w') ∧
      ∀ q ∈ qs, w'.tree.place q.target = .ok (q.place w.tree) ∧
        (∃ p, firstAt w.tree qs q = some p ∧
          w'.tree.Holds (q.place w.tree) (contents p.repository p.ref)) ∧
        ((∀ p ∈ qs, p.place w.tree = q.place w.tree →
            p.repository = q.repository ∧ p.ref = q.ref) →
          w'.tree.Holds (q.place w.tree) (contents q.repository q.ref)) := by
  obtain ⟨w', hexec, hstocked⟩ := h.stocked.ensureAll h fun _ hq => hq
  refine ⟨w', hexec, fun q hq => ?_⟩
  obtain ⟨p, hp, hplace, hfirst⟩ := exists_firstAt (t := w.tree) hq
  obtain ⟨hdir, hholds⟩ := hstocked.stored q hq p hfirst
  refine ⟨((h.rooted q hq).has hstocked.keeps hdir).1, ⟨p, hfirst, hholds⟩, fun hagree => ?_⟩
  obtain ⟨hrepository, href⟩ := hagree p hp hplace
  rw [← hrepository, ← href]
  exact hholds

/-! ## Samples -/

/-- In a tree without files nothing has been fetched. -/
theorem Ready.of_no_files {root : Path} (htree : w.tree = {}) (hsettled : root.isSettled)
    (hqs : ∀ q ∈ qs, q.cacheRoot = root ∧ q.uses ≠ "")
    (hfetched : ∀ q ∈ qs, ∃ a, w.git.find? (fun a => a.args == q.cloneArgs) = some a ∧ a.code = 0 ∧
      a.writes.map written = (contents q.repository q.ref).map fun f => (q.place {} ++ f.1, f.2))
    (hproper : ∀ q ∈ qs, contents q.repository q.ref ≠ [] ∧
      Tree.Proper (contents q.repository q.ref)) : Ready contents w qs where
  rooted q hq := .inl ((hqs q hq).1 ▸ hsettled)
  empty q _ way := by
    rw [htree, Tree.entry?_of_not_isStart (Request.not_isStart way)]
    rfl
  passable q _ x _ text := by
    rw [htree]
    by_cases hx : Tree.IsStart x
    · rw [Tree.entry?_of_isStart hx]
      simp
    · rw [Tree.entry?_of_not_isStart hx]
      simp
  apart p hp q hq := Request.place_eq_of_prefix ((hqs p hp).1.trans (hqs q hq).1.symm)
    (hqs p hp).2 (hqs q hq).2
  fetched := htree ▸ hfetched
  proper := hproper

namespace Sample

/-- Each repository has one file, which says what it is. -/
def describe : Contents := fun repository ref => [(["action.yml"], repository ++ "@" ++ ref)]

def request (uses : String) : Request := ⟨uses, .ofText "."⟩

/-- How git fetches what is asked for. -/
def fetch (uses : String) : GitAnswer where
  args := (request uses).cloneArgs
  writes := [((request uses).target.text ++ "/action.yml",
    (request uses).repository ++ "@" ++ (request uses).ref)]

def workspace (uses : List String) : Workspace where
  git := uses.map fetch

/-- The directories that some requests yield, and the workspace after them. -/
def results (uses : List String) : Except Fault (List Path) × Workspace :=
  exec (ensureAll (uses.map request)) (workspace uses)

theorem ready {uses : List String} (hne : ∀ u ∈ uses, u ≠ "")
    (hfetched : ∀ u ∈ uses, ∃ a,
      (uses.map fetch).find? (fun a => a.args == (request u).cloneArgs) = some a ∧ a.code = 0 ∧
        a.writes.map written = [((request u).place {} ++ ["action.yml"],
          (request u).repository ++ "@" ++ (request u).ref)]) :
    Ready describe (workspace uses) (uses.map request) := by
  have hsettled : (Path.ofText ".").isSettled := by decide
  refine .of_no_files rfl hsettled ?_ ?_ fun q _ => ⟨List.cons_ne_nil _ _,
    List.forall_mem_singleton.mpr (by decide : ¬ Tree.IsStart ["action.yml"])⟩
  · exact List.forall_mem_map.mpr fun u hu => ⟨rfl, hne u hu⟩
  · exact List.forall_mem_map.mpr hfetched

end Sample

open Sample

theorem ensure_first_two_actions :
    Ready describe (workspace ["octo/hello@main", "octo/tools/lint@main"])
      (["octo/hello@main", "octo/tools/lint@main"].map request) ∧
    (results ["octo/hello@main", "octo/tools/lint@main"]).2.tree.Holds
      ["node_modules", ".actions-cache", "octo-hello-main"] (describe "octo/hello" "main") ∧
    (results ["octo/hello@main", "octo/tools/lint@main"]).2.tree.Holds
      ["node_modules", ".actions-cache", "octo-tools-lint-main"]
      (describe "octo/tools" "main") := by
  have hready : Ready describe (workspace ["octo/hello@main", "octo/tools/lint@main"])
      (["octo/hello@main", "octo/tools/lint@main"].map request) := by
    refine ready (by decide) ?_
    rw [List.forall_mem_cons, List.forall_mem_singleton]
    exact ⟨⟨fetch "octo/hello@main", by decide +kernel⟩,
      fetch "octo/tools/lint@main", by decide +kernel⟩
  obtain ⟨w', hexec, hall⟩ := ensure_first hready
  obtain ⟨-, -, hhello⟩ := hall (request "octo/hello@main") (by simp)
  obtain ⟨-, -, hlint⟩ := hall (request "octo/tools/lint@main") (by simp)
  have hhello := hhello (by decide +kernel)
  have hlint := hlint (by decide +kernel)
  rw [show (request "octo/hello@main").place _ =
      ["node_modules", ".actions-cache", "octo-hello-main"] by decide +kernel,
    show (request "octo/hello@main").repository = "octo/hello" by decide +kernel,
    show (request "octo/hello@main").ref = "main" by decide +kernel] at hhello
  rw [show (request "octo/tools/lint@main").place _ =
      ["node_modules", ".actions-cache", "octo-tools-lint-main"] by decide +kernel,
    show (request "octo/tools/lint@main").repository = "octo/tools" by decide +kernel,
    show (request "octo/tools/lint@main").ref = "main" by decide +kernel] at hlint
  rw [results, hexec]
  exact ⟨hready, hhello, hlint⟩

/-- **Two versions of an action** have one place, and only the first one is fetched. -/
theorem second_version_not_fetched :
    Ready describe (workspace ["octo/hello@v1", "octo/hello@v2"])
      (["octo/hello@v1", "octo/hello@v2"].map request) ∧
    (results ["octo/hello@v1", "octo/hello@v2"]).1 =
      .ok [(request "octo/hello@v1").directory, (request "octo/hello@v1").directory] ∧
    (results ["octo/hello@v1", "octo/hello@v2"]).2.calls =
      [.git (request "octo/hello@v1").cloneArgs none] ∧
    ¬ (results ["octo/hello@v1", "octo/hello@v2"]).2.tree.Holds
      ((request "octo/hello@v2").place {}) (describe "octo/hello" "v2") := by
  refine ⟨ready (by decide) ?_, by decide +kernel, by decide +kernel, fun h => ?_⟩
  · rw [List.forall_mem_cons, List.forall_mem_singleton]
    exact ⟨⟨fetch "octo/hello@v1", by decide +kernel⟩,
      fetch "octo/hello@v2", by decide +kernel⟩
  · exact absurd (h.2 ["action.yml"] (by decide)) (by decide +kernel)

end Action

end StepLoom
