import StepLoom.Proofs.Data
import StepLoom.Proofs.Marks
import StepLoom.Proofs.Yaml.Settled

/-!
# The value of nodes

The nodes of a document of data are read as its value (`read_of_nodes`). Every node is met, since
each one but the first is a part of one in front of it, and every mapping gets a mark of its own
(`Fresh`), so that no mapping is taken for a shared one.
-/

namespace StepLoom

namespace Yaml

open Reader

namespace Nodes

variable {nodes : Nodes} {first : Nat} {a : Node} {ns ns' : List Node}

/-- The nodes have the numbers from `first` on. -/
def Spans (nodes : Nodes) (first : Nat) (ns : List Node) : Prop :=
  ∀ i a, ns[i]? = some a → nodes.Has (first + i) a

theorem Spans.head (h : nodes.Spans first (a :: ns)) : nodes.Has first a := h 0 a rfl

theorem Spans.tail (h : nodes.Spans first (a :: ns)) : nodes.Spans (first + 1) ns := by
  intro i b hb
  have hnext := h (i + 1) b (by simpa using hb)
  rwa [show first + 1 + i = first + (i + 1) by omega]

theorem Spans.left (h : nodes.Spans first (ns ++ ns')) : nodes.Spans first ns := by
  intro i b hb
  obtain ⟨hlt, -⟩ := List.getElem?_eq_some_iff.mp hb
  exact h i b (by rwa [List.getElem?_append_left hlt])

theorem Spans.right (h : nodes.Spans first (ns ++ ns')) : nodes.Spans (first + ns.length) ns' := by
  intro i b hb
  have hnext := h (ns.length + i) b (by
    rwa [List.getElem?_append_right (Nat.le_add_right ..), Nat.add_sub_cancel_left])
  rwa [Nat.add_assoc]

/-- The nodes behind a node and those after it. -/
theorem Spans.behind (h : nodes.Spans first (a :: ns ++ ns')) :
    nodes.Spans (first + 1 + ns.length) ns' :=
  h.tail.right

theorem spans_toArray (ns : List Node) : Spans ns.toArray 0 ns := by
  intro i a ha
  rw [Has, Nat.zero_add]
  exact (List.getElem?_toArray ..).trans ha

end Nodes

variable {nodes : Nodes} {first n : Nat} {v : Value} {items : List Value} {fields : Fields}
  {ns : List Node} {numbers : List Nat} {pairs : List (Nat × Nat)}

/-! ## The nodes are in order -/

theorem NodesOf.length_pos (h : NodesOf first v ns) : 0 < ns.length := by
  cases h <;> simp

/-- The numbers of items lie among those of their nodes. -/
theorem ItemsOf.bound (h : ItemsOf first items numbers ns) :
    ∀ k ∈ numbers, first ≤ k ∧ k < first + ns.length := by
  induction items generalizing first numbers ns with
  | nil =>
    cases h
    exact List.forall_mem_nil _
  | cons v rest ih =>
    cases h with
    | cons hv hrest =>
      have hpos := hv.length_pos
      rw [List.forall_mem_cons, List.length_append]
      refine ⟨⟨Nat.le_refl first, by omega⟩, fun k hk => ?_⟩
      have hbound := ih hrest k hk
      omega

theorem FieldsOf.bound (h : FieldsOf first fields pairs ns) (hspans : nodes.Spans first ns) :
    ∀ p ∈ pairs, nodes.IsLeaf p.1 ∧ first ≤ p.2 ∧ p.2 < first + ns.length := by
  induction fields generalizing first pairs ns with
  | nil =>
    cases h
    exact List.forall_mem_nil _
  | cons f rest ih =>
    cases h with
    | @cons _ tag text _ _ _ _ _ _ _ hv hrest =>
      have hpos := hv.length_pos
      rw [List.forall_mem_cons]
      refine ⟨⟨⟨tag, text, hspans.left.head⟩, by simp, by simp; omega⟩, fun p hp => ?_⟩
      obtain ⟨hleaf, hlow, hhigh⟩ := ih hrest hspans.behind p hp
      refine ⟨hleaf, by omega, ?_⟩
      rw [List.length_append, List.length_cons]
      omega

mutual

theorem NodesOf.fits : ∀ (v : Value) {first : Nat} {ns : List Node}, NodesOf first v ns →
    nodes.Spans first ns → first + ns.length ≤ nodes.size → ∀ a ∈ ns, nodes.Fits a
  | .scalar _, _, _, h, _, _ => by
    cases h with
    | scalar hs => simpa [Nodes.Fits] using ⟨_, hs⟩
  | .list items, _, _, h, hspans, hsize => by
    cases h with
    | list hitems =>
      rw [List.length_cons] at hsize
      refine List.forall_mem_cons.mpr ⟨⟨rfl, fun k hk => ?_⟩,
        ItemsOf.fits items hitems hspans.tail (by omega)⟩
      have hbound := hitems.bound k hk
      omega
  | .map _ fields, _, _, h, hspans, hsize => by
    cases h with
    | map hfields =>
      rw [List.length_cons] at hsize
      refine List.forall_mem_cons.mpr ⟨⟨rfl, fun p hp => ?_⟩,
        FieldsOf.fits fields hfields hspans.tail (by omega)⟩
      obtain ⟨hleaf, -, hhigh⟩ := hfields.bound hspans.tail p hp
      exact ⟨hleaf, by omega⟩
  | .pair .., _, _, h, _, _ | .set _, _, _, h, _, _ | .ring .., _, _, h, _, _ | .again _, _, _, h,
    _, _ => by
    cases h

theorem ItemsOf.fits : ∀ (items : List Value) {first : Nat} {numbers : List Nat} {ns : List Node},
    ItemsOf first items numbers ns → nodes.Spans first ns → first + ns.length ≤ nodes.size →
    ∀ a ∈ ns, nodes.Fits a
  | [], _, _, _, h, _, _ => by
    cases h
    exact List.forall_mem_nil _
  | v :: rest, _, _, _, h, hspans, hsize => by
    cases h with
    | cons hv hrest =>
      rw [List.length_append] at hsize
      exact List.forall_mem_append.mpr ⟨NodesOf.fits v hv hspans.left (by omega),
        ItemsOf.fits rest hrest hspans.right (by omega)⟩

theorem FieldsOf.fits : ∀ (fields : Fields) {first : Nat} {pairs : List (Nat × Nat)}
    {ns : List Node},
    FieldsOf first fields pairs ns → nodes.Spans first ns → first + ns.length ≤ nodes.size →
    ∀ a ∈ ns, nodes.Fits a
  | [], _, _, _, h, _, _ => by
    cases h
    exact List.forall_mem_nil _
  | (_, v) :: rest, _, _, _, h, hspans, hsize => by
    cases h with
    | cons hs hv hrest =>
      rw [List.length_append, List.length_cons] at hsize
      exact List.forall_mem_append.mpr ⟨List.forall_mem_cons.mpr ⟨⟨_, hs⟩,
        NodesOf.fits v hv hspans.left.tail (by omega)⟩, FieldsOf.fits rest hrest hspans.behind
        (by omega)⟩

end

theorem NodesOf.inOrder (h : NodesOf 0 v ns) : Nodes.InOrder ns.toArray := by
  intro n a ha
  refine NodesOf.fits v h (Nodes.spans_toArray ns) (by simp) a ?_
  rw [Nodes.Has] at ha
  exact List.mem_of_getElem? ((List.getElem?_toArray ..).symm.trans ha)

/-! ## Marks of their own -/

/-- The value up to marks. Its marks lie between two numbers, and none stands twice. -/
structure Fresh (low high : Nat) (w v : Value) : Prop where
  same : w.unshare = v.unshare
  within : w.Within fun m => low ≤ m ∧ m < high
  nodup : w.marks.Nodup

structure FreshItems (low high : Nat) (ws vs : List Value) : Prop where
  same : ws.map Value.unshare = vs.map Value.unshare
  within : ∀ m ∈ Value.marksOfItems ws, low ≤ m ∧ m < high
  nodup : (Value.marksOfItems ws).Nodup

structure FreshFields (low high : Nat) (ws vs : Fields) : Prop where
  same : (ws.map fun (k, v) => (k, v.unshare)) = vs.map fun (k, v) => (k, v.unshare)
  within : ∀ m ∈ Value.marksOfFields ws, low ≤ m ∧ m < high
  nodup : (Value.marksOfFields ws).Nodup

variable {low middle high mark : Nat} {w : Value} {ws vs : List Value} {gs : Fields} {key : Scalar}

theorem fresh_scalar (s : Scalar) : Fresh low high (.scalar s) (.scalar s) :=
  ⟨rfl, Value.within_scalar s, List.nodup_nil⟩

theorem freshItems_nil : FreshItems low high [] [] :=
  ⟨rfl, by simp [Value.marksOfItems], List.nodup_nil⟩

theorem freshFields_nil : FreshFields low high [] [] :=
  ⟨rfl, by simp [Value.marksOfFields], List.nodup_nil⟩

/-- Marks of two ranges do not meet. -/
theorem nodup_ranges {ms ms' : List Nat} (h : ms.Nodup) (h' : ms'.Nodup)
    (hlow : ∀ m ∈ ms, m < middle) (hhigh : ∀ m ∈ ms', middle ≤ m) : (ms ++ ms').Nodup := by
  refine List.nodup_append.mpr ⟨h, h', ?_⟩
  rintro m hm m' hm' rfl
  have h1 := hlow m hm
  have h2 := hhigh m hm'
  omega

/-- Marks of two ranges are marks of the whole range. -/
theorem within_ranges {ms ms' : List Nat} (h : ∀ m ∈ ms, low ≤ m ∧ m < middle)
    (h' : ∀ m ∈ ms', middle ≤ m ∧ m < high) (hlow : low ≤ middle) (hhigh : middle ≤ high) :
    ∀ m ∈ ms ++ ms', low ≤ m ∧ m < high := by
  refine List.forall_mem_append.mpr ⟨fun m hm => ?_, fun m hm => ?_⟩
  · have hbound := h m hm
    omega
  · have hbound := h' m hm
    omega

theorem FreshItems.cons (h : Fresh low middle w v) (h' : FreshItems middle high ws vs)
    (hlow : low ≤ middle) (hhigh : middle ≤ high) : FreshItems low high (w :: ws) (v :: vs) where
  same := by rw [List.map_cons, List.map_cons, h.same, h'.same]
  within := by
    rw [Value.marksOfItems]
    exact within_ranges h.within h'.within hlow hhigh
  nodup := nodup_ranges h.nodup h'.nodup (fun m hm => (h.within m hm).2) fun m hm =>
    (h'.within m hm).1

theorem FreshFields.cons (h : Fresh low middle w v) (h' : FreshFields middle high gs fields)
    (hlow : low ≤ middle) (hhigh : middle ≤ high) :
    FreshFields low high ((key, w) :: gs) ((key, v) :: fields) where
  same := by
    rw [List.map_cons, List.map_cons, h'.same]
    dsimp only
    rw [h.same]
  within := by
    rw [Value.marksOfFields]
    exact within_ranges h.within h'.within hlow hhigh
  nodup := nodup_ranges h.nodup h'.nodup (fun m hm => (h.within m hm).2) fun m hm =>
    (h'.within m hm).1

theorem FreshItems.list (h : FreshItems (low + 1) high ws vs) :
    Fresh low high (listWith low ws) (.list vs) := by
  have hnot : (Value.marksOfItems ws).contains low = false := by
    rw [Bool.eq_false_iff]
    intro hmem
    have hbound := h.within low (List.contains_iff_mem.mp hmem)
    omega
  rw [listWith, hnot, if_neg Bool.false_ne_true]
  refine ⟨?_, fun m hm => ?_, h.nodup⟩
  · rw [Value.unshare, Value.unshare, Value.remark, Value.remark, Value.remarkItems_eq,
      Value.remarkItems_eq]
    exact congrArg Value.list h.same
  · have hbound := h.within m hm
    omega

theorem FreshFields.map {m : Option Nat} (h : FreshFields (low + 1) high gs fields)
    (hlow : low < high) :
    Fresh low high (.map (some low) gs) (.map m fields) where
  same := by
    rw [Value.unshare, Value.unshare, Value.remark, Value.remark, Value.remarkFields_eq,
      Value.remarkFields_eq]
    rw [Option.bind_fun_none, Option.bind_fun_none]
    exact congrArg (Value.map none) h.same
  within := by
    refine Value.within_map.mpr ⟨fun k hk => ?_, fun f hf k hk => ?_⟩
    · obtain rfl := Option.some.inj hk
      omega
    · have hbound := h.within k (Value.mem_marksOfFields.mpr ⟨f, hf, hk⟩)
      omega
  nodup := by
    rw [Value.marks, Option.toList_some, List.singleton_append, List.nodup_cons]
    refine ⟨fun hmem => ?_, h.nodup⟩
    have hbound := h.within low hmem
    omega

/-- A value whose marks stand once each loses them. -/
theorem Fresh.pruneMarks (h : Fresh low high w v) : w.pruneMarks = v.unshare := by
  have hnone : (fun m => if 1 < w.marks.count m then some m else none) = fun _ => none := by
    funext m
    exact if_neg (Nat.not_lt.mpr (List.nodup_iff_count.mp h.nodup m))
  rw [Value.pruneMarks]
  simp only [hnone]
  exact h.same

/-! ## Reading -/

/-- Every node that has been met is settled, and its parts have been met. -/
def Finished (nodes : Nodes) (r : Reader) : Prop :=
  ∀ n < nodes.size, r.part n ≠ .unmet →
    r.part n = nodes.settled n ∧ ∀ k ∈ nodes.partsOf n, r.part k ≠ .unmet

variable {r : Reader}

/-- Keys that stand once do so whatever their values are. -/
theorem FreshFields.once (h : FreshFields low high gs fields) (honce : Fields.Once fields) :
    Fields.Once gs := by
  have hkeys : gs.map Prod.fst = fields.map Prod.fst := by
    have hsame := congrArg (List.map Prod.fst) h.same
    simpa [Function.comp_def] using hsame
  have hpairwise : (fields.map Prod.fst).Pairwise fun k l => l.sameKey k = false :=
    List.pairwise_map.mpr honce
  rw [← hkeys] at hpairwise
  exact List.pairwise_map.mp hpairwise

theorem Finished.settled {a : Node} (h : Finished nodes r) (ha : nodes.Has n a)
    (hmet : r.part n ≠ .unmet) :
    r.part n = nodes.settled n ∧ ∀ k ∈ nodes.partsOf n, r.part k ≠ .unmet := h n ha.lt hmet

theorem not_contains {around : List Nat} (h : ∀ k ∈ around, k < n) : around.contains n = false := by
  rw [Bool.eq_false_iff]
  intro hmem
  exact Nat.lt_irrefl n (h n (List.contains_iff_mem.mp hmem))

mutual

theorem NodesOf.valueOf (hr : Finished nodes r) : ∀ (v : Value) (fuel : Nat) (around : List Nat)
    {first : Nat} {ns : List Node}, NodesOf first v ns → nodes.Spans first ns →
    r.part first ≠ .unmet → v.isData →
    (∀ k ∈ around, k < first) → ns.length ≤ fuel →
    Fresh (r.first + first) (r.first + first + ns.length) (r.valueOf fuel around first) v
  | .scalar s, fuel, around, first, _, h, hspans, hmet, _, haround, hfuel => by
    cases h with
    | @scalar _ tag text _ hs =>
      obtain ⟨fuel, rfl⟩ : ∃ m, fuel = m + 1 := ⟨fuel - 1, by simp at hfuel; omega⟩
      obtain ⟨hpart, -⟩ := hr.settled hspans.head hmet
      rw [settled_leaf hspans.head, scalarAt_eq hspans.head hs] at hpart
      rw [Reader.valueOf, not_contains haround, if_neg Bool.false_ne_true, hpart]
      exact fresh_scalar s
  | .list items, fuel, around, first, _, h, hspans, hmet, hdata, haround, hfuel => by
    cases h with
    | @list _ _ numbers ns hitems =>
      obtain ⟨fuel, rfl⟩ : ∃ m, fuel = m + 1 := ⟨fuel - 1, by simp at hfuel; omega⟩
      rw [List.length_cons] at hfuel ⊢
      obtain ⟨hpart, hparts⟩ := hr.settled hspans.head hmet
      rw [Nodes.settled, hspans.head.node_eq] at hpart
      rw [Nodes.partsOf, hspans.head.node_eq] at hparts
      have hinner := ItemsOf.valueOf hr items fuel (first :: around) hitems hspans.tail hparts hdata
        (List.forall_mem_cons.mpr ⟨Nat.lt_succ_self first,
          fun k hk => Nat.lt_succ_of_lt (haround k hk)⟩) (by omega)
      rw [Reader.valueOf, not_contains haround, if_neg Bool.false_ne_true, hpart]
      refine FreshItems.list ?_
      rwa [show r.first + first + (ns.length + 1) = r.first + (first + 1) + ns.length by omega]
  | .map _ fields, fuel, around, first, _, h, hspans, hmet, hdata, haround, hfuel => by
    cases h with
    | @map _ _ _ pairs ns hfields =>
      obtain ⟨fuel, rfl⟩ : ∃ m, fuel = m + 1 := ⟨fuel - 1, by simp at hfuel; omega⟩
      rw [Value.isData, Bool.and_eq_true, decide_eq_true_eq] at hdata
      rw [List.length_cons] at hfuel ⊢
      obtain ⟨hpart, hparts⟩ := hr.settled hspans.head hmet
      rw [Nodes.settled, hspans.head.node_eq] at hpart
      rw [Nodes.partsOf, hspans.head.node_eq] at hparts
      have hinner := FieldsOf.valueOf hr fields fuel (first :: around) hfields hspans.tail
        (fun p hp => hparts p.2 (List.mem_flatMap.mpr ⟨p, hp, by simp⟩)) hdata.2
        (List.forall_mem_cons.mpr ⟨Nat.lt_succ_self first,
          fun k hk => Nat.lt_succ_of_lt (haround k hk)⟩) (by omega)
      rw [Reader.valueOf, not_contains haround, if_neg Bool.false_ne_true, hpart]
      dsimp only
      rw [List.map_map]
      change Fresh _ _ (.map (some (r.first + first)) (Fields.ofPairs (pairs.map fun (k, v) =>
        (nodes.scalarAt k, r.valueOf fuel (first :: around) v)))) _
      rw [Fields.Once.ofPairs (hinner.once hdata.1)]
      refine FreshFields.map ?_ (by omega)
      rwa [show r.first + first + (ns.length + 1) = r.first + (first + 1) + ns.length by omega]
  | .pair .., _, _, _, _, h, _, _, _, _, _ | .set _, _, _, _, _, h, _, _, _, _, _
  | .ring .., _, _, _, _, h, _, _, _, _, _ | .again _, _, _, _, _, h, _, _, _, _, _ => by
    cases h

theorem ItemsOf.valueOf (hr : Finished nodes r) : ∀ (items : List Value) (fuel : Nat)
    (around : List Nat) {first : Nat} {numbers : List Nat} {ns : List Node},
    ItemsOf first items numbers ns →
    nodes.Spans first ns → (∀ k ∈ numbers, r.part k ≠ .unmet) → Value.itemsAreData items →
    (∀ k ∈ around, k < first) → ns.length ≤ fuel →
    FreshItems (r.first + first) (r.first + first + ns.length)
    (numbers.map (r.valueOf fuel around)) items
  | [], _, _, _, _, _, h, _, _, _, _, _ => by
    cases h
    exact freshItems_nil
  | v :: rest, fuel, around, first, _, _, h, hspans, hmet, hdata, haround, hfuel => by
    cases h with
    | @cons _ _ _ numbers ns ns' hv hrest =>
      rw [Value.itemsAreData, Bool.and_eq_true] at hdata
      rw [List.forall_mem_cons] at hmet
      rw [List.length_append] at hfuel ⊢
      have hfirst := NodesOf.valueOf hr v fuel around hv hspans.left hmet.1 hdata.1 haround
        (by omega)
      have hothers := ItemsOf.valueOf hr rest fuel around hrest hspans.right hmet.2 hdata.2
        (fun k hk => Nat.lt_of_lt_of_le (haround k hk) (Nat.le_add_right ..)) (by omega)
      refine FreshItems.cons hfirst ?_ (by omega) (by omega)
      rwa [show r.first + first + (ns.length + ns'.length) =
        r.first + (first + ns.length) + ns'.length by omega,
        show r.first + first + ns.length = r.first + (first + ns.length) by omega]

theorem FieldsOf.valueOf (hr : Finished nodes r) : ∀ (fields : Fields) (fuel : Nat)
    (around : List Nat) {first : Nat} {pairs : List (Nat × Nat)}
    {ns : List Node}, FieldsOf first fields pairs ns →
    nodes.Spans first ns → (∀ p ∈ pairs, r.part p.2 ≠ .unmet) → Value.fieldsAreData fields →
    (∀ k ∈ around, k < first) → ns.length ≤ fuel →
    FreshFields (r.first + first) (r.first + first + ns.length)
      (pairs.map fun (k, v) => (nodes.scalarAt k, r.valueOf fuel around v)) fields
  | [], _, _, _, _, _, h, _, _, _, _, _ => by
    cases h
    exact freshFields_nil
  | (key, v) :: rest, fuel, around, first, _, _, h, hspans, hmet, hdata, haround, hfuel => by
    cases h with
    | @cons _ tag text _ _ _ pairs ns ns' hs hv hrest =>
      rw [Value.fieldsAreData, Bool.and_eq_true, Bool.and_eq_true] at hdata
      rw [List.forall_mem_cons] at hmet
      rw [List.length_append, List.length_cons] at hfuel ⊢
      have hfirst := NodesOf.valueOf hr v fuel around hv hspans.left.tail hmet.1 hdata.1.2
        (fun k hk => Nat.lt_succ_of_lt (haround k hk)) (by omega)
      have hothers := FieldsOf.valueOf hr rest fuel around hrest hspans.behind hmet.2 hdata.2
        (fun k hk => Nat.lt_of_lt_of_le (haround k hk) (by omega)) (by omega)
      have hwider : Fresh (r.first + first) (r.first + (first + 1) + ns.length)
          (r.valueOf fuel around (first + 1)) v :=
        ⟨hfirst.same, hfirst.within.mono fun m hm => ⟨by omega, hm.2⟩, hfirst.nodup⟩
      rw [List.map_cons]
      dsimp only
      rw [scalarAt_eq hspans.left.head hs]
      refine FreshFields.cons hwider ?_ (by omega) (by omega)
      rwa [show r.first + first + (ns.length + 1 + ns'.length) =
          r.first + (first + 1 + ns.length) + ns'.length by omega,
          show r.first + (first + 1) + ns.length = r.first + (first + 1 + ns.length) by omega]

end

/-- **The nodes of a document of data are read as its value**, without marks. -/
theorem run_nodes (h : NodesOf 0 v ns) (hdata : v.isData) (first : Nat) :
    ∃ r, (Reader.run 0).run (.start ⟨ns.toArray, some 0⟩ first) = .ok (v.unshare, r) := by
  have horder := h.inOrder
  have hsize : 0 < Array.size ns.toArray := by simpa using h.length_pos
  obtain ⟨r₁, hmeet, hr₁, -, hmet₁⟩ := run_meet horder (ready_start ns.toArray (some 0) first) hsize
  obtain ⟨r₂, done, hall, hr₂, hempty, hmet₂⟩ := lookIntoAll_settles horder hr₁
    (Nat.le_add_right (Array.size ns.toArray) _)
  have hfinished : Finished ns.toArray r₂ := fun n hn hmet => hr₂.settled hempty hn hmet
  have hvalue := NodesOf.valueOf hfinished v (Array.size ns.toArray + 1) [] h
    (Nodes.spans_toArray ns)
    (hmet₂ 0 hmet₁) hdata (List.forall_mem_nil _) (by simp)
  have hget : ∀ r : Reader, (get : Reader.Step Reader).run r = .ok (r, r) := fun _ => rfl
  refine ⟨r₂, ?_⟩
  rw [Reader.run, run_bind_ok hmeet, run_bind_ok (hget r₁), hr₁.nodes_eq, run_bind_ok hall,
    run_bind_ok (hget r₂), hvalue.pruneMarks]
  rfl

/-- **A text is read as a value** when its tokens are those of the value. -/
theorem read_of_tokens {text : String} {us marks : List Token}
    (hreadable : text.toList.all isReadable)
    (htokens : Tokens.ofText text.toList = ⟨us ++ (marks ++ [.streamEnd]), none⟩)
    (hmarks : marks = [.documentEnd] ∨ marks = []) (h : Composes false us v) (hdata : v.isData) :
    read .workflow text = .ok v.unshare := by
  obtain ⟨ns, hnodes, hdocument⟩ := nodes_of_tokens h marks hmarks
  obtain ⟨r, hrun⟩ := run_nodes hnodes hdata 0
  rw [← htokens] at hdocument
  rw [read, readFrom]
  simp only [hreadable, hdocument]
  change (((Reader.run 0).run (.start ⟨ns.toArray, some 0⟩ 0) >>= fun x => pure
    (x.1, 0 + ns.toArray.size)) >>=
    fun x => pure x.1) = _
  rw [hrun]
  rfl

end Yaml

end StepLoom
