import StepLoom.Proofs.Compile.Sources

/-!
# Step ids of compiled jobs

The steps of a compiled job have their ids from three sources. Authors write some, the registry
hands out those of path checks, and a step that bails without an id gets a default one. Neither the
registry nor the count of bails looks at what authors wrote.

Each id before bail conditions are resolved is borne by one node of the graph: the node of the step
that was written with it, or that of the path check whose patterns own it in the registry. So the
blocks have no id in common, and default ids only add to them.

**Theorem (`ids_distinct`).** If written ids are distinct and none of them is generated, all ids of
the compiled job are distinct.

**Theorem (`ids_meet`).** A written id may be given to a path check as well.
-/

namespace StepLoom

open StepLoom.Graph

/-! ## Ids -/

namespace Step

/-- The text of an id that is neither absent nor blank. -/
def idText (id : Option Value) : Option String :=
  (Value.given? id).bind fun v => v.text.toOption

/-- The id of a step. -/
def id? (step : Value) : Option String := idText (step.part "id")

theorem idText_str {s id : String} (h : idText (some (.str s)) = some id) : id = s := by
  obtain ⟨v, hv, h⟩ := Option.bind_eq_some_iff.mp h
  obtain rfl : Value.str s = v := Option.some.inj (Option.filter_eq_some_iff.mp hv).1
  exact (Option.some.inj h).symm

theorem idText_defaultId (n : Nat) :
    idText (some (.str (Bail.defaultId n))) = some (Bail.defaultId n) := by
  have hfull : (Value.str (Bail.defaultId n)).isBlank = false := by
    rw [Value.isBlank, Scalar.isBlank, Bail.defaultId]
    simp
  rw [idText, Value.given?, Option.filter_some_pos (by simp [hfull])]
  rfl

end Step

namespace Job

/-- Where a step was written: in the job, or under the name of a setup. -/
inductive Origin
  | step (i : Nat)
  | setup (name : String) (position : Nat)

/-- The node that the step is a part of. -/
def Origin.node : Origin → String
  | .step i => stepId i
  | .setup name _ => setupId name

/-- The ids that the steps of a job and of its setups were written with. -/
inductive Written (table job : Value) : Origin → String → Prop
  | step {i : Nat} {step : Value} {id : String} (hi : (steps job)[i]? = some step)
      (hid : Step.id? step = some id) : Written table job (.step i) id
  | setup {name definition item : Value} {text id : String} {items : List Value} {position : Nat}
      (hname : Used table job name) (htext : name.text = .ok text)
      (hfound : Setup.find? table name = .ok (some definition))
      (hitems : Setup.steps definition = .ok items) (hitem : items[position]? = some item)
      (hid : Step.idText (item.entry "id") = some id) :
      Written table job (.setup text position) id

/-- The ids that were written are distinct, and none of them is generated. -/
structure Distinguished (table job : Value) (r : Registry) : Prop where
  unique : ∀ o o' id, Written table job o id → Written table job o' id → o = o'
  unchecked : ∀ o x id, Written table job o id → ¬ Checked r job x id
  unnumbered : ∀ o n, ¬ Written table job o (Bail.defaultId n)

/-- The ids in the block of a node, before bail conditions are resolved. -/
def Bears (table job : Value) (r : Registry) (x id : String) : Prop :=
  (∃ o, Written table job o id ∧ o.node = x) ∨ Checked r job x id

variable {table job : Value} {r : Registry} {x y id : String}

/-- **An id stands in one block only.** -/
theorem Distinguished.node_unique (h : Distinguished table job r) (hx : Bears table job r x id)
    (hy : Bears table job r y id) : x = y := by
  rcases hx with ⟨o, ho, rfl⟩ | hx <;> rcases hy with ⟨o', ho', rfl⟩ | hy
  · rw [h.unique o o' id ho ho']
  · exact absurd hy (h.unchecked o y id ho)
  · exact absurd hx (h.unchecked o' x id ho')
  · obtain ⟨-, -, -, howner⟩ := hx
    obtain ⟨-, -, -, howner'⟩ := hy
    rw [← Check.nodeId_sortTexts, Option.some.inj (howner.symm.trans howner'),
      Check.nodeId_sortTexts]

end Job

open Job Value

variable {table job step v w definition : Value} {r : Registry} {name x : String}
  {c : Option String} {n : Nat} {b items steps out : List Value} {outs : List (String × String)}

theorem Registry.IsCandidate.toList_eq {id : String} (h : Registry.IsCandidate id) :
    ∃ cs, id.toList = "paths_".toList ++ cs := by
  obtain ⟨ps, k, rfl⟩ := h
  unfold Registry.candidate
  split_ifs
  · exact ⟨_, String.toList_append ..⟩
  · rw [String.toList_append, String.toList_append, Check.outputName, String.toList_append,
      List.append_assoc, List.append_assoc]
    exact ⟨_, rfl⟩

/-! ## Blocks -/

theorem filterMap_congr₂ {α β : Type} {f g : α → Option β} {xs ys : List α}
    (h : List.Forall₂ (fun a a' => g a' = f a) xs ys) : ys.filterMap g = xs.filterMap f := by
  induction h with
  | nil => rfl
  | cons hxy _ ih => rw [List.filterMap_cons, List.filterMap_cons, hxy, ih]

theorem Value.Same.id? {keys : List String} (h : Same keys v w) (hkeys : "id" ∉ keys) :
    Step.id? w = Step.id? v := by
  rw [Step.id?, h.part hkeys, Step.id?]

namespace Block

theorem id?_plain {fields : Fields} (h : step.fields? = some fields) :
    Step.id? (Step.plain step) = Step.id? step := by
  have hplain : Step.plain step = Step.plain (record fields) := by
    rw [Step.plain, h]
    rfl
  rw [hplain, (Step.plain_same ⟨fields, rfl⟩).id? (by simp), Step.id?, Step.id?, part, part, h]
  rfl

/-- Copies have the ids of the steps of a setup, and markers have none. -/
theorem Copied.ids (h : Copied name items b) :
    b.filterMap Step.id? = items.filterMap fun item => Step.idText (item.entry "id") := by
  cases h with
  | none => rfl
  | one hf _ =>
    refine filterMap_congr₂ (.cons ?_ .nil)
    rw [entry, asFields_of_fields? hf]
    exact congrArg Step.idText (Fields.get?_put_ne (by decide))
  | @many _ vs _ hc =>
    have hmarkers : (startMarker name :: vs ++ [finishMarker name]).filterMap Step.id? =
        vs.filterMap Step.id? := by
      rw [List.cons_append, List.filterMap_cons, List.filterMap_append]
      exact List.append_nil _
    rw [hmarkers]
    refine filterMap_congr₂ (hc.imp ?_)
    rintro item _ ⟨fields, hfields, rfl⟩
    rw [entry, hfields]
    rfl

theorem ids_of_ofSetup (hb : ofSetup name definition c = .ok b)
    (hitems : Setup.steps definition = .ok items) :
    b.filterMap Step.id? = items.filterMap fun item => Step.idText (item.entry "id") := by
  rw [ofSetup_eq] at hb
  obtain ⟨vs, hvs, hb⟩ := bind_eq_ok.mp hb
  obtain ⟨items', hitems', hcopied⟩ := copies_inv hvs
  obtain rfl := Except.ok.inj (hitems.symm.trans hitems')
  have hrecords := hcopied.ofSetup.isRecord
  rw [← hcopied.ids]
  refine filterMap_congr₂ (((List.forall₂_and_left _ _).mpr ⟨hrecords, mapM_ok hb⟩).imp ?_)
  exact fun v w ⟨hv, hguard⟩ => (guardWith_ok hguard hv).id? (by simp)

/-- **The block of a node has distinct ids**, and the node bears them. -/
theorem From.bears (h : From table job outs x b) (hd : Distinguished table job r)
    (houts : ∀ p ∈ outs, Checked r job p.1 p.2) :
    (b.filterMap Step.id?).Nodup ∧ ∀ id ∈ b.filterMap Step.id?, Bears table job r x id := by
  have hsingle : ∀ {v : Value} {x : String}, (∀ id, Step.id? v = some id → Bears table job r x id) →
      ([v].filterMap Step.id?).Nodup ∧ ∀ id ∈ [v].filterMap Step.id?, Bears table job r x id := by
    intro v x hv
    cases hid : Step.id? v with
    | none => simp [hid]
    | some id => simpa [hid] using hv id hid
  cases h with
  | @step i step v fields c hi hfields hguard =>
    refine hsingle fun id hid => Or.inl ⟨.step i, .step hi ?_, rfl⟩
    rw [← id?_plain hfields, ← hid]
    exact ((guardWith_ok hguard (isRecord_plain hfields)).id? (by simp)).symm
  | @setup name definition text c b hname htext hfound hb =>
    obtain ⟨items, hitems, -⟩ := ofSetup_ok hb
    have hwritten : ∀ {k : Nat} {item : Value} {id : String}, items[k]? = some item →
        Step.idText (item.entry "id") = some id → Written table job (.setup text k) id :=
      fun hk hid => .setup hname htext hfound hitems hk hid
    rw [ids_of_ofSetup hb hitems]
    refine ⟨List.pairwise_filterMap.mpr (List.pairwise_iff_getElem.mpr ?_), fun id hid => ?_⟩
    · rintro j k hj hk hlt id hid id' hid' rfl
      have ho := hd.unique _ _ _ (hwritten (List.getElem?_eq_getElem hj) hid)
        (hwritten (List.getElem?_eq_getElem hk) hid')
      injection ho with _ hjk
      omega
    · obtain ⟨item, hitem, hid⟩ := List.mem_filterMap.mp hid
      obtain ⟨k, hk⟩ := List.getElem?_of_mem hitem
      exact Or.inl ⟨.setup text k, hwritten hk hid, rfl⟩
  | @paths step v outId check c hstep hne hout hcheck hguard =>
    refine hsingle fun id hid => Or.inr ?_
    rw [Step.id?, id_of_check hcheck (guardWith_ok hguard ⟨_, rfl⟩)] at hid
    rw [Step.idText_str hid]
    exact houts _ hout

end Block

/-! ## Bail conditions -/

namespace Bail

theorem id?_gateAll {gate : String} (h : gateAll gate steps = .ok out)
    (hs : ∀ v ∈ steps, v.IsRecord) : out.filterMap Step.id? = steps.filterMap Step.id? :=
  filterMap_congr₂ ((gateAll_ok h hs).imp fun _ _ hgate => by
    rw [Step.id?, (gateStep_ok hgate.2 hgate.1).2.2, Step.id?])

/-- A step that bails keeps its id, or gets the default one if it has none. -/
theorem id?_split {gate : String} (h : split n v = .ok (w, gate)) :
    Step.id? w = Step.id? v ∨ Step.id? w = some (defaultId n) := by
  obtain ⟨fields, x, -, -, -, hfields, -, -, -, -, rfl, -⟩ := split_inv h
  have hw : Step.id? (record (Fields.erase "bail_if" (withId n fields))) =
      Step.idText (Fields.get? "id" (withId n fields)) :=
    congrArg Step.idText (Fields.get?_erase_ne (by decide))
  have hv : Step.id? v = Step.idText (Fields.get? "id" fields) := by
    rw [Step.id?, part, hfields]
    rfl
  rw [hw, hv, withId]
  split_ifs
  · exact Or.inl rfl
  · rw [Fields.get?_put_self]
    exact Or.inr (Step.idText_defaultId n)

theorem id?_dropped (h : v.IsRecord) : Step.id? (dropped v) = Step.id? v :=
  (dropped_same h).1.id? (by simp)

theorem defaultId_inj {m : Nat} : defaultId m = defaultId n ↔ m = n :=
  (String.append_right_inj _).trans Graph.toString_inj

/-- Default ids are never those of path checks. -/
theorem not_isCandidate_defaultId (m : Nat) : ¬ Registry.IsCandidate (defaultId m) := by
  intro h
  obtain ⟨cs, hcs⟩ := h.toList_eq
  simp [defaultId] at hcs

/-- A step in front of others, whose id it keeps, or a default one that comes before theirs. -/
theorem nodup_append {id id' : Option String} {ids ids' : List String} {k : Nat}
    (hids : (id.toList ++ ids).Nodup) (hfresh : ∀ m, defaultId m ∉ id.toList ++ ids)
    (hnodup : ids'.Nodup) (hsub : ∀ a ∈ ids', a ∈ ids ∨ ∃ m, k ≤ m ∧ a = defaultId m) (hn : n ≤ k)
    (hid : id' = id ∨ n < k ∧ id' = some (defaultId n)) : (id'.toList ++ ids').Nodup ∧
      ∀ a ∈ id'.toList ++ ids', a ∈ id.toList ++ ids ∨ ∃ m, n ≤ m ∧ a = defaultId m := by
  obtain ⟨-, -, hdisjoint⟩ := List.nodup_append.mp hids
  simp only [List.mem_append, not_or] at hfresh ⊢
  constructor
  · refine List.nodup_append.mpr ⟨by cases id' <;> simp, hnodup, ?_⟩
    rintro a ha b hb rfl
    rcases hid with rfl | ⟨hlt, rfl⟩
    · rcases hsub a hb with hb | ⟨m, -, rfl⟩
      · exact hdisjoint a ha a hb rfl
      · exact (hfresh m).1 ha
    · obtain rfl := List.mem_singleton.mp ha
      rcases hsub _ hb with hb | ⟨m, hm, heq⟩
      · exact (hfresh n).2 hb
      · have := defaultId_inj.mp heq
        omega
  · rintro a (ha | ha)
    · rcases hid with rfl | ⟨-, rfl⟩
      · exact Or.inl (Or.inl ha)
      · exact Or.inr ⟨n, Nat.le_refl n, List.mem_singleton.mp ha⟩
    · rcases hsub a ha with ha | ⟨m, hm, rfl⟩
      · exact Or.inl (Or.inr ha)
      · exact Or.inr ⟨m, hn.trans hm, rfl⟩

theorem filterMap_cons_toList {α β : Type} (f : α → Option β) (a : α) (as : List α) :
    (a :: as).filterMap f = (f a).toList ++ as.filterMap f := by
  rw [List.filterMap_eq_flatMap_toList, List.filterMap_eq_flatMap_toList, List.flatMap_cons]

/-- **Resolving bail conditions keeps ids distinct** if no id is a default one. -/
theorem Resolves.nodup (h : Resolves n steps out) (hs : ∀ v ∈ steps, v.IsRecord)
    (hids : (steps.filterMap Step.id?).Nodup)
    (hfresh : ∀ m, defaultId m ∉ steps.filterMap Step.id?) :
    (out.filterMap Step.id?).Nodup ∧ ∀ id ∈ out.filterMap Step.id?,
      id ∈ steps.filterMap Step.id? ∨ ∃ m, n ≤ m ∧ id = defaultId m := by
  induction h with
  | nil => simp
  | keep _ _ ih =>
    obtain ⟨-, hrest⟩ := List.forall_mem_cons.mp hs
    simp only [filterMap_cons_toList] at hids hfresh ⊢
    obtain ⟨hnodup, hsub⟩ := ih hrest (List.nodup_append.mp hids).2.1
      fun m hm => hfresh m (List.mem_append_right _ hm)
    exact nodup_append hids hfresh hnodup hsub (Nat.le_refl _) (Or.inl rfl)
  | bail _ hsplit hgate _ ih =>
    obtain ⟨-, hrest⟩ := List.forall_mem_cons.mp hs
    simp only [filterMap_cons_toList] at hids hfresh ⊢
    rw [← id?_gateAll hgate hrest] at hids hfresh ⊢
    obtain ⟨hnodup, hsub⟩ := ih (records_of_gateAll hgate hrest) (List.nodup_append.mp hids).2.1
      fun m hm => hfresh m (List.mem_append_right _ hm)
    refine nodup_append hids hfresh hnodup hsub (Nat.le_succ _) ?_
    exact (id?_split hsplit).imp_right fun h => ⟨Nat.lt_succ_self _, h⟩

end Bail

/-! ## Jobs -/

theorem nodup_flatten {xs : List String} {bs : List (List String)} {P : String → String → Prop}
    (h : List.Forall₂ (fun x b => b.Nodup ∧ ∀ id ∈ b, P x id) xs bs) (hxs : xs.Nodup)
    (hP : ∀ x y id, P x id → P y id → x = y) : bs.flatten.Nodup := by
  induction h with
  | nil => exact List.nodup_nil
  | @cons x b xs bs hxb hall ih =>
    obtain ⟨hx, hrest⟩ := List.nodup_cons.mp hxs
    refine List.nodup_append.mpr ⟨hxb.1, ih hrest, ?_⟩
    rintro id hid _ hid' rfl
    obtain ⟨b', hb', hid'⟩ := List.mem_flatten.mp hid'
    obtain ⟨y, hy, hyb⟩ := forall₂_exists_left hall hb'
    exact hx (hP x y id (hxb.2 id hid) (hyb.2 id hid') ▸ hy)

/-- **The ids of a compiled job are distinct** if those that were written are, and none of these is
generated. -/
theorem ids_distinct {job' : Value} {edits : List Edit} {r' : Registry} (halone : StandAlone job)
    (h : exec (Job.compile table job) r = (.ok (job', edits), r'))
    (hd : Distinguished table job r') : ((Job.steps job').filterMap Step.id?).Nodup := by
  obtain ⟨-, ids, outs, blocks, resolved, hc, houts⟩ := assembled_of_compile halone h
  have hbears : List.Forall₂ (fun x b => b.Nodup ∧ ∀ id ∈ b, Bears table job r' x id) ids
      (blocks.map (List.filterMap Step.id?)) :=
    List.forall₂_map_right_iff.mpr (hc.each.imp fun x b hfrom => hfrom.bears hd houts)
  have hblocks : (blocks.flatten.filterMap Step.id?).Nodup := by
    rw [List.filterMap_flatten]
    exact nodup_flatten hbears hc.nodup fun x y id => hd.node_unique
  have hfresh : ∀ m, Bail.defaultId m ∉ blocks.flatten.filterMap Step.id? := by
    intro m hm
    rw [List.filterMap_flatten] at hm
    obtain ⟨b, hb, hm⟩ := List.mem_flatten.mp hm
    obtain ⟨x, -, hxb⟩ := forall₂_exists_left hbears hb
    rcases hxb.2 _ hm with ⟨o, ho, -⟩ | ⟨-, -, hid, -⟩
    · exact hd.unnumbered o m ho
    · exact Bail.not_isCandidate_defaultId m hid
  have hresolved : ((resolved.map Bail.dropped).filterMap Step.id?).Nodup := by
    have hrecords := hc.bails.records hc.gated
    have hdropped : resolved.filterMap (Step.id? ∘ Bail.dropped) = resolved.filterMap Step.id? :=
      List.filterMap_congr fun v hv => Bail.id?_dropped (hrecords v hv)
    rw [List.filterMap_map, hdropped]
    exact (hc.bails.nodup hc.gated hblocks hfresh).1
  obtain ⟨-, fields, -, rfl, -, hsteps⟩ := hc.job
  rwa [Job.steps_record hsteps]

/-! ## A sample

The first step was written with an id. The second one needs a path check and bails without an id. -/

namespace Job

def namedJob (id : String) : Value := .record [("setup", .str "checkout"), ("steps", .list [
  .record [("id", .str id), ("run", .str "probe")],
  .record [("run", .str "build"), ("paths", .str "x"), ("bail_if", .str "outputs.done")],
  .record [("run", .str "last")]])]

theorem namedJob_standAlone (id : String) : StandAlone (namedJob id) := by
  refine ⟨standsAlone_record _, fun step hstep => ?_⟩
  have hsteps : step ∈ [_, _, _] := hstep
  simp only [List.mem_cons, List.not_mem_nil, or_false] at hsteps
  rcases hsteps with rfl | rfl | rfl <;> exact standsAlone_record _

theorem written_namedJob {s id : String} {o : Origin}
    (h : Written sampleTable (namedJob s) o id) : o = .step 0 ∧ id = s := by
  cases h with
  | @step i step id hi hid =>
    match i with
    | 0 =>
      obtain rfl := Option.some.inj hi
      exact ⟨rfl, Step.idText_str hid⟩
    | 1 | 2 =>
      obtain rfl := Option.some.inj hi
      cases hid
    | i + 3 => cases hi
  | @setup name definition item text id items position _ _ hfound hitems hitem hid =>
    obtain ⟨k, hk⟩ := mem_of_find? hfound
    simp only [List.mem_cons, Prod.mk.injEq, List.not_mem_nil, or_false] at hk
    rcases hk with ⟨-, rfl⟩ | ⟨-, rfl⟩ <;> obtain rfl := Except.ok.inj hitems
    all_goals
      obtain rfl := List.mem_singleton.mp (List.mem_of_getElem? hitem)
      cases hid

theorem distinguished_probe (r : Registry) : Distinguished sampleTable (namedJob "probe") r where
  unique o o' id h h' := by rw [(written_namedJob h).1, (written_namedJob h').1]
  unchecked o x id h := by
    rintro ⟨-, -, hid, -⟩
    obtain ⟨cs, hcs⟩ := hid.toList_eq
    simp [(written_namedJob h).2] at hcs
  unnumbered o n h := by
    have hlist := congrArg String.toList (written_namedJob h).2
    simp [Bail.defaultId] at hlist

end Job

/-- The written id, that of the path check and the default one. -/
theorem ids_distinct_sample : ∃ job' edits r',
    exec (Job.compile Job.sampleTable (Job.namedJob "probe")) {} = (.ok (job', edits), r') ∧
    StandAlone (Job.namedJob "probe") ∧
    Distinguished Job.sampleTable (Job.namedJob "probe") r' ∧
    (Job.steps job').filterMap Step.id? = ["probe", "paths_x", "bail_if_1"] ∧
    ((Job.steps job').filterMap Step.id?).Nodup := by
  have hids : (exec (Job.compile Job.sampleTable (Job.namedJob "probe")) {}).1.toOption.map
      (fun a => (Job.steps a.1).filterMap Step.id?) = some ["probe", "paths_x", "bail_if_1"] := by
    decide
  rcases h : exec (Job.compile Job.sampleTable (Job.namedJob "probe")) {} with
    ⟨e | ⟨job', edits⟩, r'⟩
  · rw [h] at hids
    cases hids
  · rw [h] at hids
    exact ⟨job', edits, r', rfl, Job.namedJob_standAlone _, Job.distinguished_probe r',
      Option.some.inj hids,
      ids_distinct (Job.namedJob_standAlone _) h (Job.distinguished_probe r')⟩

/-- **The only id that was written is given to a path check as well**, and gates that read the check
cannot tell the two steps apart. -/
theorem ids_meet : (∀ o o' id, Written Job.sampleTable (Job.namedJob "paths_x") o id →
      Written Job.sampleTable (Job.namedJob "paths_x") o' id → o = o') ∧
    ∃ job' edits r',
      exec (Job.compile Job.sampleTable (Job.namedJob "paths_x")) {} = (.ok (job', edits), r') ∧
      (Job.steps job').filterMap Step.id? = ["paths_x", "paths_x", "bail_if_1"] ∧
      ¬ ((Job.steps job').filterMap Step.id?).Nodup := by
  refine ⟨fun o o' id h h' => by rw [(Job.written_namedJob h).1, (Job.written_namedJob h').1], ?_⟩
  have hids : (exec (Job.compile Job.sampleTable (Job.namedJob "paths_x")) {}).1.toOption.map
      (fun a => (Job.steps a.1).filterMap Step.id?) = some ["paths_x", "paths_x", "bail_if_1"] := by
    decide
  rcases h : exec (Job.compile Job.sampleTable (Job.namedJob "paths_x")) {} with
    ⟨e | ⟨job', edits⟩, r'⟩
  · rw [h] at hids
    cases hids
  · rw [h] at hids
    have hids : (Job.steps job').filterMap Step.id? = ["paths_x", "paths_x", "bail_if_1"] :=
      Option.some.inj hids
    refine ⟨job', edits, r', rfl, hids, ?_⟩
    rw [hids]
    decide

end StepLoom
