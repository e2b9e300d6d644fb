import StepLoom.Proofs.Graph.Leftover
import Mathlib.Data.Finset.Max

/-!
# The queue of ready nodes

An order does more than to place each node after what it waits for: ready nodes are taken in the
order in which they became ready. This decides every tie (`FirstReady`): the nodes that wait for
nothing come first, as they stand in the graph; of two others, the one whose last-placed dependency
comes first; and the dependents of one node as they are recorded at it.

**Theorem (`order_firstReady`).** A graph without a cycle gets the only list that settles its ties
in this way. Along it the longest chain of dependencies never gets shorter, and nothing but the ids
and the recorded dependents has a part in it.

At any moment of the sweep, the nodes that were ready first and those that each placed node has made
ready, in the order of placing, are the nodes that are placed or ready (`Queued`).
-/

namespace StepLoom

namespace Graph

open Relation

variable {g g' : Graph} {x y z : String} {xs ys done : List String} {m n : Nat}

/-! ## Settling ties -/

/-- The nodes that wait for nothing. -/
def roots (g : Graph) : List String := (g.nodes.filter fun n => n.before.isEmpty).map (·.id)

/-- The nodes recorded as waiting for one. -/
def dependents (g : Graph) (x : String) : List String :=
  match g.find? x with
  | some n => n.after
  | none => []

/-- Of all that `x` waits for, `l` stands last in the list. -/
def LastDep (g : Graph) (xs : List String) (x l : String) : Prop :=
  g.Waits x l ∧ ∀ y, g.Waits x y → xs.idxOf y ≤ xs.idxOf l

/-- The nodes in the order in which they become ready. -/
structure FirstReady (g : Graph) (xs : List String) : Prop where
  nodup : xs.Nodup
  mem : ∀ x, x ∈ xs ↔ g.has x
  waits : ∀ x y, g.Waits x y → xs.idxOf y < xs.idxOf x
  roots : g.roots <+: xs
  last : ∀ x ∈ xs, x ∉ g.roots → ∃ l, g.LastDep xs x l
  later : ∀ x y k l, g.LastDep xs x k → g.LastDep xs y l → xs.idxOf k < xs.idxOf l →
    xs.idxOf x < xs.idxOf y
  shared : ∀ x y l, g.LastDep xs x l → g.LastDep xs y l →
    (g.dependents l).idxOf x < (g.dependents l).idxOf y → xs.idxOf x < xs.idxOf y

/-- A chain of `n` dependencies, each waiting for the next, starts at the node. -/
inductive Chain (g : Graph) : String → Nat → Prop
  | one (x : String) : g.has x → Chain g x 0
  | more (x y : String) (n : Nat) : g.Waits x y → Chain g y n → Chain g x (n + 1)

/-- The length of the longest chain of dependencies from a node. -/
def Longest (g : Graph) (x : String) (n : Nat) : Prop := g.Chain x n ∧ ∀ m, g.Chain x m → m ≤ n

theorem WellFormed.mem_dependents (hg : g.WellFormed) : y ∈ g.dependents x ↔ g.Waits y x := by
  rw [hg.linked, dependents, Frees]
  cases g.find? x <;> simp

theorem WellFormed.mem_roots (hg : g.WellFormed) : x ∈ g.roots ↔ g.has x ∧ ∀ y, ¬ g.Waits x y := by
  simpa [Sweep.start, roots] using (sweeping_start hg).free x

/-! ## What each placed node makes ready -/

/-- All that the node waits for is done. -/
def settled (g : Graph) (done : List String) (x : String) : Bool :=
  match g.find? x with
  | some n => n.before.all (· ∈ done)
  | none => true

theorem settled_iff : g.settled done x = true ↔ ∀ y, g.Waits x y → y ∈ done := by
  unfold settled Waits
  cases g.find? x <;> simp

/-- The nodes that become ready while some are placed after those that are done. -/
def released (g : Graph) : (done : List String) → List String → List String
  | _, [] => []
  | done, x :: rest =>
    (g.dependents x).filter (g.settled (done ++ [x])) ++ released g (done ++ [x]) rest

theorem released_append : g.released done (xs ++ ys) =
    g.released done xs ++ g.released (done ++ xs) ys := by
  induction xs generalizing done with
  | nil => simp [released]
  | cons x xs ih => simp [released, ih]

/-- What holds between two nodes, besides `Sweeping`: the queue, and that no edge from a node that
is not placed has been used. -/
structure Queued (g : Graph) (s : Sweep) : Prop where
  queue : s.placed ++ s.ready = g.roots ++ g.released [] s.placed
  unused : ∀ x, x ∉ s.placed → s.rest.dependents x = g.dependents x

theorem queued_start : Queued g (Sweep.start g) where
  queue := by simp [Sweep.start, roots, released]
  unused x _ := rfl

theorem dependents_unlink (h : z ≠ y) : (g.unlink x y).dependents z = g.dependents z := by
  unfold dependents
  rw [find?_unlink]
  cases g.find? z <;> simp [h]

/-- A dependent of the placed node becomes ready exactly if all that it waits for is placed. -/
theorem Releasing.release_ready {s s' : Sweep} {id d : String} {left : List String}
    (h : Releasing g id (d :: left) s) (hok : s.release id d = .ok s')
    (h' : Releasing g id left s') : s'.ready = s.ready ++ [d].filter (g.settled s.placed) := by
  obtain ⟨-, hplaced, hready⟩ := Sweep.release_cases hok
  have hwait : s.rest.Waits d id :=
    (h.waits d id).mpr ⟨h.left_waits d (by simp), Or.inr ⟨rfl, by simp⟩⟩
  have hbefore : d ∉ s.placed ++ s.ready := fun hmem => ((h.free d).mp hmem).2 id hwait
  have hleft : d ∉ left := (List.nodup_cons.mp h.left_nodup).1
  have hhas : g.has d := (h.left_waits d (by simp)).has
  have hafter : d ∈ s'.placed ++ s'.ready ↔ g.settled s.placed d = true := by
    rw [h'.free, and_iff_right hhas, settled_iff]
    refine forall_congr' fun y => ?_
    rw [h'.waits, hplaced]
    simp only [hleft, and_false, or_false, not_and, not_not]
  rw [hplaced] at hafter
  rcases hready with he | he
  · rw [he] at hafter
    rw [he, List.filter_cons_of_neg (fun hd => hbefore (hafter.mpr hd)), List.filter_nil,
      List.append_nil]
  · rw [he] at hafter
    rw [he, List.filter_cons_of_pos (hafter.mp (by simp)), List.filter_nil]

/-- The dependents of the placed node that become ready join the queue as they are recorded. -/
theorem Releasing.releaseAll_ready {s s' : Sweep} {id : String} {left : List String}
    (h : Releasing g id left s) (hid : id ∈ s.placed) (hok : s.releaseAll id left = .ok s') :
    s'.placed = s.placed ∧ s'.ready = s.ready ++ left.filter (g.settled s.placed) ∧
      ∀ x, x ≠ id → s'.rest.dependents x = s.rest.dependents x := by
  induction left generalizing s with
  | nil =>
    obtain rfl := Except.ok.inj hok
    simp
  | cons d left ih =>
    obtain ⟨s₁, hok₁, h₁, hp₁⟩ := h.release hid
    rw [Sweep.releaseAll, hok₁] at hok
    obtain ⟨hp, hr, hd⟩ := ih h₁ (hp₁ ▸ hid) hok
    refine ⟨hp.trans hp₁, ?_, fun x hx => ?_⟩
    · rw [hr, h.release_ready hok₁ h₁, hp₁, List.append_assoc, ← List.filter_append,
        List.singleton_append]
    · rw [hd x hx, (Sweep.release_cases hok₁).1, dependents_unlink hx]

/-- The sweep keeps the queue up to its end. -/
theorem Queued.run {s s' : Sweep} {fuel : Nat} (h : Sweeping g s) (hq : Queued g s)
    (hok : s.run fuel = .ok s') : Queued g s' := by
  induction fuel generalizing s with
  | zero =>
    obtain rfl := Except.ok.inj hok
    exact hq
  | succ fuel ih =>
    rw [Sweep.run] at hok
    cases hready : s.ready with
    | nil =>
      rw [hready] at hok
      obtain rfl := Except.ok.inj hok
      exact hq
    | cons id ready =>
      obtain ⟨n, hn, htake⟩ := h.take hready
      obtain ⟨s₁, hok₁, h₁, hp₁⟩ := htake.releaseAll (by simp)
      obtain ⟨-, hr₁, hd₁⟩ := htake.releaseAll_ready (by simp) hok₁
      rw [hready] at hok
      simp only [hn, hok₁] at hok
      refine ih h₁ ⟨?_, fun x hx => ?_⟩ hok
      · have hid : id ∉ s.placed := fun hmem =>
          List.disjoint_of_nodup_append h.nodup hmem (by simp [hready])
        have hafter : n.after = g.dependents id := by
          rw [← hq.unused id hid, dependents, hn]
        have hold := hq.queue
        rw [hready] at hold
        rw [hp₁, hr₁, hafter, released_append, ← List.append_assoc g.roots, ← hold]
        simp [released]
      · rw [hp₁, List.mem_append, List.mem_singleton, not_or] at hx
        rw [hd₁ x hx.2]
        exact hq.unused x hx.1

/-- An order consists of the nodes that wait for nothing and those that its nodes make ready. -/
theorem order_eq_released (hg : g.WellFormed) (h : g.order = .ok xs) :
    xs = g.roots ++ g.released [] xs := by
  have hfuel : g.nodes.length ≤ (Sweep.start g).placed.length + g.nodes.length := by simp
  obtain ⟨s, hok, -, hready⟩ := (sweeping_start hg).run hfuel
  have hq := Queued.run (sweeping_start hg) queued_start hok
  rw [order, hok] at h
  change (if s.rest.edges.isEmpty then Except.ok s.placed
    else Except.error (Fault.cycle s.rest.edges)) = _ at h
  split_ifs at h
  obtain rfl := Except.ok.inj h
  simpa [hready] using hq.queue

/-! ## The order settles all ties -/

theorem sublist_of_idxOf_lt (hx : x ∈ xs) (hy : y ∈ xs) (h : xs.idxOf x < xs.idxOf y) :
    [x, y].Sublist xs := by
  induction xs with
  | nil => cases hx
  | cons a xs ih =>
    have hay : a ≠ y := fun he => by simp [he] at h
    have hy' : y ∈ xs := (List.mem_cons.mp hy).resolve_left (Ne.symm hay)
    by_cases hax : a = x
    · subst hax
      exact List.cons_sublist_cons.mpr (List.singleton_sublist.mpr hy')
    · rw [List.idxOf_cons_ne _ hax, List.idxOf_cons_ne _ hay] at h
      have hx' : x ∈ xs := (List.mem_cons.mp hx).resolve_left (Ne.symm hax)
      exact (ih hx' hy' (Nat.lt_of_succ_lt_succ h)).cons a

theorem exists_split_of_idxOf_lt (hx : x ∈ xs) (hy : y ∈ xs) (h : xs.idxOf x < xs.idxOf y) :
    ∃ pre mid post, xs = (pre ++ x :: mid) ++ y :: post := by
  obtain ⟨us, vs, hxs, hx', hy'⟩ := List.cons_sublist_iff.mp (sublist_of_idxOf_lt hx hy h)
  obtain ⟨pre, mid, rfl⟩ := List.append_of_mem hx'
  obtain ⟨mid', post, rfl⟩ := List.append_of_mem (List.singleton_sublist.mp hy')
  exact ⟨pre, mid ++ mid', post, by rw [hxs]; simp⟩

/-- The one that stands last among those that a node waits for. -/
theorem exists_lastDep (hw : g.Waits x y) : ∃ l, g.LastDep xs x l := by
  obtain ⟨n, hn, hy⟩ := hw
  obtain ⟨l, hl, hmax⟩ :=
    n.before.toFinset.exists_max_image xs.idxOf ⟨y, List.mem_toFinset.mpr hy⟩
  refine ⟨l, ⟨n, hn, List.mem_toFinset.mp hl⟩, fun z hz => ?_⟩
  obtain ⟨m, hm, hz⟩ := hz
  obtain rfl := Option.some.inj (hn.symm.trans hm)
  exact hmax z (List.mem_toFinset.mpr hz)

/-- What stands up to one place of a list is known by its index. -/
theorem mem_of_idxOf_le {pre post : List String} {l : String} (hl : l ∉ pre)
    (h : (pre ++ l :: post).idxOf y ≤ (pre ++ l :: post).idxOf l) : y ∈ pre ++ [l] := by
  by_contra hy
  rw [List.mem_append, List.mem_singleton, not_or] at hy
  rw [List.idxOf_append_of_notMem hy.1, List.idxOf_append_of_notMem hl,
    List.idxOf_cons_ne _ (Ne.symm hy.2), List.idxOf_cons_self] at h
  omega

/-- A node becomes ready when its last dependency is placed. -/
theorem LastDep.mem_released (hg : g.WellFormed) {pre post : List String} {l : String}
    (hl : l ∉ pre) (h : g.LastDep (pre ++ l :: post) x l) :
    x ∈ (g.dependents l).filter (g.settled (pre ++ [l])) := by
  rw [List.mem_filter, hg.mem_dependents, settled_iff]
  exact ⟨h.1, fun y hy => mem_of_idxOf_le hl (h.2 y hy)⟩

theorem order_ties (hg : g.WellFormed) (h : g.order = .ok xs) : g.FirstReady xs := by
  obtain ⟨hnd, hmem, hord⟩ := order_ok hg h
  have heq := order_eq_released hg h
  have hsub : (g.released [] xs).Sublist xs := by
    conv_rhs => rw [heq]
    exact List.sublist_append_right _ _
  have hplaced : ∀ {x l}, g.LastDep xs x l → l ∈ xs := fun hl =>
    (hmem _).mpr (hg.has_of_waits hl.1)
  have hsplit : ∀ {pre l post}, xs = pre ++ l :: post → l ∉ pre := fun hxs hl =>
    List.disjoint_of_nodup_append (hxs ▸ hnd) hl (by simp)
  refine ⟨hnd, hmem, fun x y hw => ?_, ⟨_, heq.symm⟩, fun x hx hroot => ?_, ?_, ?_⟩
  · exact (hord.idxOf_lt hnd ((hmem x).mpr hw.has) (.single hw)).2
  · by_contra hno
    refine hroot (hg.mem_roots.mpr ⟨(hmem x).mp hx, fun y hw => hno (exists_lastDep hw)⟩)
  · intro x y k l hk hl hlt
    obtain ⟨pre, mid, post, hxs⟩ := exists_split_of_idxOf_lt (hplaced hk) (hplaced hl) hlt
    have hk' : xs = pre ++ k :: (mid ++ l :: post) := by rw [hxs]; simp
    have hx := LastDep.mem_released hg (hsplit hk') (hk' ▸ hk)
    have hy := LastDep.mem_released hg (hsplit hxs) (hxs ▸ hl)
    apply idxOf_lt_of_sublist hnd
    refine List.Sublist.trans ?_ hsub
    rw [hxs, released_append, released_append]
    exact (List.singleton_sublist.mpr (List.mem_append_right _ (List.mem_append_left _ hx))).append
      (List.singleton_sublist.mpr (List.mem_append_left _ hy))
  · intro x y l hx hy hlt
    obtain ⟨pre, post, hxs⟩ := List.append_of_mem (hplaced hx)
    have hx' := LastDep.mem_released hg (hsplit hxs) (hxs ▸ hx)
    have hy' := LastDep.mem_released hg (hsplit hxs) (hxs ▸ hy)
    rw [List.mem_filter] at hx' hy'
    have hpair := (sublist_of_idxOf_lt hx'.1 hy'.1 hlt).filter (g.settled (pre ++ [l]))
    rw [List.filter_cons_of_pos hx'.2, List.filter_cons_of_pos hy'.2, List.filter_nil] at hpair
    apply idxOf_lt_of_sublist hnd
    refine List.Sublist.trans ?_ hsub
    rw [hxs, released_append]
    exact (hpair.trans (List.sublist_append_left _ _)).trans (List.sublist_append_right _ _)

/-! ## There is one such order -/

/-- Lists of one length are equal if they go on in the same way as long as they agree. -/
theorem eq_of_next (hlen : xs.length = ys.length)
    (h : ∀ pre a b us vs, xs = pre ++ a :: us → ys = pre ++ b :: vs → a = b) : xs = ys := by
  induction xs generalizing ys with
  | nil => exact (List.length_eq_zero_iff.mp hlen.symm).symm
  | cons a xs ih =>
    obtain ⟨b, ys, rfl⟩ := List.exists_cons_of_length_eq_add_one hlen.symm
    obtain rfl := h [] a b xs ys rfl rfl
    rw [ih (Nat.succ_injective hlen) fun pre c d us vs hxs hys =>
      h (a :: pre) c d us vs (by rw [hxs]; rfl) (by rw [hys]; rfl)]

theorem idxOf_of_start (h : ys <+: xs) (hx : x ∈ ys) : xs.idxOf x = ys.idxOf x := by
  obtain ⟨zs, rfl⟩ := h
  exact List.idxOf_append_of_mem hx

theorem mem_of_idxOf_lt_length (h : ys <+: xs) (hx : xs.idxOf x < ys.length) : x ∈ ys := by
  obtain ⟨zs, rfl⟩ := h
  by_contra hno
  rw [List.idxOf_append_of_notMem hno] at hx
  omega

section
variable {pre us vs : List String} {a b : String}

/-- While two such orders agree, they agree on where a next node has its last dependency. -/
theorem FirstReady.lastDep_shared (hx : g.FirstReady (pre ++ a :: us)) {k : String}
    (hys : pre <+: ys) (hk : g.LastDep (pre ++ a :: us) a k) : g.LastDep ys a k ∧ k ∈ pre := by
  have hapre : a ∉ pre := fun ha => List.disjoint_of_nodup_append hx.nodup ha (by simp)
  have hpre : pre <+: pre ++ a :: us := List.prefix_append _ _
  have hmem : ∀ y, g.Waits a y → y ∈ pre := by
    intro y hy
    have hlt := hx.waits a y hy
    rw [List.idxOf_append_of_notMem hapre, List.idxOf_cons_self, Nat.add_zero] at hlt
    exact mem_of_idxOf_lt_length hpre hlt
  refine ⟨⟨hk.1, fun y hy => ?_⟩, hmem k hk.1⟩
  have hle := hk.2 y hy
  rwa [idxOf_of_start hpre (hmem y hy), idxOf_of_start hpre (hmem k hk.1),
    ← idxOf_of_start hys (hmem y hy), ← idxOf_of_start hys (hmem k hk.1)] at hle

/-- The next node in one order stands after the next one in the other. -/
theorem FirstReady.next_lt (hx : g.FirstReady (pre ++ a :: us)) (hy : g.FirstReady (pre ++ b :: vs))
    (hne : a ≠ b) : (pre ++ a :: us).idxOf a < (pre ++ a :: us).idxOf b := by
  have ha : a ∉ pre := fun ha => List.disjoint_of_nodup_append hx.nodup ha (by simp)
  have hb : b ∉ pre := fun hb => List.disjoint_of_nodup_append hy.nodup hb (by simp)
  rw [List.idxOf_append_of_notMem ha, List.idxOf_append_of_notMem hb, List.idxOf_cons_self,
    List.idxOf_cons_ne _ hne]
  omega

/-- A root is the next node in both orders or in none. -/
theorem FirstReady.next_root (hx : g.FirstReady (pre ++ a :: us))
    (hy : g.FirstReady (pre ++ b :: vs)) (hne : a ≠ b) : a ∉ g.roots := by
  intro hroot
  have hlt := hy.next_lt hx hne.symm
  have ha : a ∉ pre := fun ha => List.disjoint_of_nodup_append hx.nodup ha (by simp)
  have hb : b ∉ pre := fun hb => List.disjoint_of_nodup_append hy.nodup hb (by simp)
  rw [idxOf_of_start hy.roots hroot, ← idxOf_of_start hx.roots hroot,
    List.idxOf_append_of_notMem ha, List.idxOf_append_of_notMem hb, List.idxOf_cons_self,
    List.idxOf_cons_self] at hlt
  exact Nat.lt_irrefl _ hlt

theorem FirstReady.next (hg : g.WellFormed) (hx : g.FirstReady (pre ++ a :: us))
    (hy : g.FirstReady (pre ++ b :: vs)) : a = b := by
  by_contra hne
  have hab := hx.next_lt hy hne
  have hba := hy.next_lt hx (Ne.symm hne)
  obtain ⟨k, hk⟩ := hx.last a (by simp) (hx.next_root hy hne)
  obtain ⟨l, hl⟩ := hy.last b (by simp) (hy.next_root hx (Ne.symm hne))
  obtain ⟨hk', hkpre⟩ := hx.lastDep_shared (List.prefix_append pre (b :: vs)) hk
  obtain ⟨hl', hlpre⟩ := hy.lastDep_shared (List.prefix_append pre (a :: us)) hl
  have hidx : ∀ {x ws}, x ∈ pre → (pre ++ ws).idxOf x = pre.idxOf x :=
    fun hmem => List.idxOf_append_of_mem hmem
  rcases Nat.lt_trichotomy (pre.idxOf k) (pre.idxOf l) with hlt | heq | hlt
  · have := hy.later a b k l hk' hl (by rwa [hidx hkpre, hidx hlpre])
    omega
  · obtain rfl := (List.idxOf_inj hkpre).mp heq
    have hmem := hg.mem_dependents.mpr hk.1
    rcases Nat.lt_trichotomy ((g.dependents k).idxOf a) ((g.dependents k).idxOf b) with
      hlt | heq | hlt
    · have := hy.shared a b k hk' hl hlt
      omega
    · exact hne ((List.idxOf_inj hmem).mp heq)
    · have := hx.shared b a k hl' hk hlt
      omega
  · have := hx.later b a l k hl' hk (by rwa [hidx hkpre, hidx hlpre])
    omega

end

theorem FirstReady.unique (hg : g.WellFormed) (hx : g.FirstReady xs) (hy : g.FirstReady ys) :
    xs = ys := by
  apply eq_of_next
  · refine ((List.perm_ext_iff_of_nodup hx.nodup hy.nodup).mpr fun x => ?_).length_eq
    rw [hx.mem, hy.mem]
  · rintro pre a b us vs rfl rfl
    exact hx.next hg hy

/-! ## Chains -/

theorem FirstReady.not_root (hg : g.WellFormed) (h : g.FirstReady xs) (hw : g.Waits x y)
    (hle : xs.idxOf x ≤ xs.idxOf z) : z ∉ g.roots := by
  intro hz
  have hlt : xs.idxOf z < g.roots.length := by
    rw [idxOf_of_start h.roots hz]
    exact List.idxOf_lt_length_of_mem hz
  exact (hg.mem_roots.mp (mem_of_idxOf_lt_length h.roots (hle.trans_lt hlt))).2 y hw

/-- A chain from a node is matched by one from each node behind it. -/
theorem FirstReady.chain_of_le (hg : g.WellFormed) (h : g.FirstReady xs) (hc : g.Chain x n)
    (hy : y ∈ xs) (hle : xs.idxOf x ≤ xs.idxOf y) : g.Chain y n := by
  induction hc generalizing y with
  | one x _ => exact .one y ((h.mem y).mp hy)
  | more x z n hw _ ih =>
    have hx : x ∈ xs := (h.mem x).mpr hw.has
    obtain ⟨k, hk⟩ := h.last x hx (h.not_root hg hw le_rfl)
    obtain ⟨l, hl⟩ := h.last y hy (h.not_root hg hw hle)
    have hkl : xs.idxOf k ≤ xs.idxOf l := by
      by_contra hlt
      have := h.later y x l k hl hk (by omega)
      omega
    have hlmem : l ∈ xs := (h.mem l).mpr (hg.has_of_waits hl.1)
    exact .more y l n hl.1 (ih hlmem ((hk.2 z hw).trans hkl))

/-- A chain is no longer than the list in front of the node. -/
theorem FirstReady.chain_le (h : g.FirstReady xs) (hc : g.Chain x n) : n ≤ xs.idxOf x := by
  induction hc with
  | one x _ => exact Nat.zero_le _
  | more x y n hw _ ih =>
    have := h.waits x y hw
    omega

open Classical in
theorem FirstReady.exists_longest (h : g.FirstReady xs) (hx : g.has x) : ∃ n, g.Longest x n := by
  refine ⟨Nat.findGreatest (g.Chain x) (xs.idxOf x),
    Nat.findGreatest_spec (Nat.zero_le _) (.one x hx), fun m hm => ?_⟩
  exact Nat.le_findGreatest (h.chain_le hm) hm

/-! ## What the order depends on -/

/-- The ids of the nodes with the dependents recorded at them, in the order of insertion. -/
def shape (g : Graph) : List (String × List String) := g.nodes.map fun n => (n.id, n.after)

theorem dependents_of_shape (h : g'.shape = g.shape) : g'.dependents x = g.dependents x := by
  have hfind : ∀ g : Graph, (g.shape.find? fun p => p.1 == x) =
      (g.find? x).map fun n => (n.id, n.after) := by
    intro g
    rw [shape, List.find?_map, find?]
    rfl
  have heq := hfind g'
  rw [h, hfind g] at heq
  unfold dependents
  cases hx : g.find? x <;> cases hx' : g'.find? x <;> simp_all

theorem ids_of_shape (h : g'.shape = g.shape) : g'.ids = g.ids := by
  have hids : ∀ g : Graph, g.ids = g.shape.map (·.1) := by
    intro g
    simp [ids, shape]
  rw [hids, hids, h]

theorem WellFormed.waits_of_shape (hg : g.WellFormed) (hg' : g'.WellFormed)
    (h : g'.shape = g.shape) : g'.Waits = g.Waits := by
  funext x y
  rw [← propext hg'.mem_dependents, ← propext hg.mem_dependents, dependents_of_shape h]

open Classical in
theorem WellFormed.roots_eq (hg : g.WellFormed) :
    g.roots = g.ids.filter fun x => ∀ y, ¬ g.Waits x y := by
  rw [roots, ids, List.filter_map]
  congr 1
  refine List.filter_congr fun n hn => ?_
  rw [Bool.eq_iff_iff, List.isEmpty_iff, List.eq_nil_iff_forall_not_mem]
  simp [Waits, hg.find?_of_mem hn]

theorem FirstReady.of_shape (hg : g.WellFormed) (hg' : g'.WellFormed) (h : g'.shape = g.shape)
    (hx : g.FirstReady xs) : g'.FirstReady xs := by
  have hwaits := hg.waits_of_shape hg' h
  have hids := ids_of_shape h
  have hhas : ∀ x, g'.has x = g.has x := by
    intro x
    rw [Bool.eq_iff_iff, has_iff_mem_ids, has_iff_mem_ids, hids]
  have hroots : g'.roots = g.roots := by rw [hg'.roots_eq, hg.roots_eq, hids, hwaits]
  have hlast : g'.LastDep xs = g.LastDep xs := by unfold LastDep; rw [hwaits]
  refine ⟨hx.nodup, fun x => ?_, ?_, ?_, ?_, ?_, fun x y l => ?_⟩
  · rw [hhas]; exact hx.mem x
  · rw [hwaits]; exact hx.waits
  · rw [hroots]; exact hx.roots
  · rw [hroots, hlast]; exact hx.last
  · rw [hlast]; exact hx.later
  · rw [hlast, dependents_of_shape h]; exact hx.shared x y l

/-- **There is one order in which all ties are settled, and a graph without a cycle gets it.** Along
it the longest chains do not get shorter, and any graph with the same ids and the same dependents,
in the same order of insertion, gets the same. -/
theorem order_firstReady (hg : g.WellFormed) (hno : ¬ ∃ x, TransGen g.Waits x x) :
    ∃ xs, g.order = .ok xs ∧ g.FirstReady xs ∧ (∀ ys, g.FirstReady ys → ys = xs) ∧
      (∀ x ∈ xs, ∃ n, g.Longest x n) ∧
      (∀ x y m n, g.Longest x m → g.Longest y n → xs.idxOf x < xs.idxOf y → m ≤ n) ∧
      ∀ g' : Graph, g'.WellFormed → g'.shape = g.shape → g'.order = .ok xs := by
  have hok : ∀ g : Graph, g.WellFormed → (¬ ∃ x, TransGen g.Waits x x) →
      ∃ xs, g.order = .ok xs := by
    intro g hg hno
    rcases order_cases hg with ⟨xs, hxs, -⟩ | ⟨-, -, x, -, hx⟩
    · exact ⟨xs, hxs⟩
    · exact absurd ⟨x, hx⟩ hno
  obtain ⟨xs, hxs⟩ := hok g hg hno
  have hties := order_ties hg hxs
  refine ⟨xs, hxs, hties, fun ys hys => hys.unique hg hties,
    fun x hx => hties.exists_longest ((hties.mem x).mp hx), fun x y m n hx hy hlt => ?_,
    fun g' hg' hshape => ?_⟩
  · refine hy.2 m (hties.chain_of_le hg hx.1 ?_ hlt.le)
    obtain ⟨hy, -⟩ := hy
    cases hy with
    | one _ hhas => exact (hties.mem y).mpr hhas
    | more _ z n hw _ => exact (hties.mem y).mpr hw.has
  · obtain ⟨ys, hys⟩ := hok g' hg' (by rwa [hg.waits_of_shape hg' hshape])
    rw [hys, (order_ties hg' hys).unique hg' (hties.of_shape hg hg' hshape)]

/-- Two nodes that wait for nothing, and three that wait for them in different ways. -/
def layered : Graph :=
  (((((({} : Graph).insert ⟨"app", .setup, .null, none, [], []⟩).insert
    ⟨"lib", .setup, .null, none, [], []⟩).insert ⟨"docs", .setup, .null, none, [], []⟩).insert
    ⟨"core", .setup, .null, none, [], []⟩).insert ⟨"test", .setup, .null, none, [], []⟩)
    |>.linkAll "app" ["core", "lib"] |>.linkAll "test" ["app", "docs"] |>.link "docs" "lib"

theorem layered_wellFormed : layered.WellFormed := by
  refine WellFormed.link (WellFormed.linkAll (WellFormed.linkAll ?_ ?_ ?_) ?_ ?_) ?_ ?_
  · refine WellFormed.insert (WellFormed.insert (WellFormed.insert (WellFormed.insert
      (WellFormed.insert wellFormed_empty ?_ rfl rfl) ?_ rfl rfl) ?_ rfl rfl) ?_ rfl rfl) ?_ rfl rfl
    all_goals decide
  all_goals decide

/-- The documents only wait for the library, so they come before the application, which was added
first. -/
theorem order_firstReady_layered : layered.WellFormed ∧ (¬ ∃ x, TransGen layered.Waits x x) ∧
    layered.order = .ok ["lib", "core", "docs", "app", "test"] ∧
    layered.FirstReady ["lib", "core", "docs", "app", "test"] := by
  have hxs : layered.order = .ok ["lib", "core", "docs", "app", "test"] := by decide
  have hno : ¬ ∃ x, TransGen layered.Waits x x := by
    rw [← order_error_iff layered_wellFormed, hxs]
    rintro ⟨edges, he⟩
    cases he
  refine ⟨layered_wellFormed, hno, hxs, ?_⟩
  obtain ⟨ys, hys, hties, -⟩ := order_firstReady layered_wellFormed hno
  obtain rfl := Except.ok.inj (hxs.symm.trans hys)
  exact hties

end Graph

end StepLoom
