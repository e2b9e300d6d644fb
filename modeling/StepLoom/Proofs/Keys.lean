import StepLoom.Compile.Workflow
import StepLoom.Proofs.Compile.Sources
import StepLoom.Proofs.Once
import StepLoom.Proofs.Sharing

/-!
# Keys that only concern the tool

Compiling consumes some keys: `setup` at the top of a document and in its jobs, and `bail_if` and
the extension keys in steps. A step of a job loses its extension keys when it becomes a node of the
graph. A step of a setup is copied as it is, and no one takes its extension keys out. Only its
`bail_if` is gone after bail conditions are resolved.

**Theorem (`keys_consumed`).** In a document whose jobs and steps stand alone, all of these keys are
consumed, apart from extension keys of steps of setups that a job uses.
-/

namespace StepLoom

open StepLoom.Graph

open Value Job

variable {table job job' step v w definition : Value} {fields : Fields} {name : String}
  {c : Option String} {n : Nat} {b steps out : List Value}

/-! ## Compiled steps -/

namespace Block

theorem holdsOnce_guardWith (h : v.HoldsOnce) (hw : Gate.guardWith c v = .ok w) : w.HoldsOnce := by
  obtain rfl | ⟨gate, fields, hfields, rfl⟩ := guardWith_cases hw
  · exact h
  · exact holdsOnce_record.mpr (h.spread hfields).put

theorem holdsOnce_marker (name : String) :
    (startMarker name).HoldsOnce ∧ (finishMarker name).HoldsOnce :=
  ⟨holdsOnce_texts [("name", _), ("run", _)] (by simp),
    holdsOnce_texts [("name", _), ("run", _)] (by simp)⟩

theorem holdsOnce_copies (hb : copies name definition = .ok b)
    (h : ∀ items, Setup.steps definition = .ok items → ∀ item ∈ items, item.HoldsOnce) :
    ∀ v ∈ b, v.HoldsOnce := by
  intro v hv
  obtain ⟨items, hitems, hcopied⟩ := copies_inv hb
  rcases hcopied.mem v hv with rfl | rfl | ⟨item, hitem, fields, hfields, rfl | ⟨label, rfl⟩⟩
  · exact (holdsOnce_marker name).1
  · exact (holdsOnce_marker name).2
  all_goals
    have honce := (h items hitems item hitem).asFields hfields
  · exact holdsOnce_record.mpr honce
  · exact holdsOnce_record.mpr honce.put

end Block

namespace Bail

theorem holdsOnce_gateAll {gate : String} (h : gateAll gate steps = .ok out)
    (hs : ∀ v ∈ steps, v.HoldsOnce) : ∀ w ∈ out, w.HoldsOnce := by
  induction steps generalizing out with
  | nil =>
    obtain rfl := Except.ok.inj h
    simp
  | cons v rest ih =>
    obtain ⟨w, hw, h⟩ := bind_eq_ok.mp h
    obtain ⟨more, hmore, h⟩ := bind_eq_ok.mp h
    obtain rfl := Except.ok.inj h
    obtain ⟨hv, hrest⟩ := List.forall_mem_cons.mp hs
    refine List.forall_mem_cons.mpr ⟨?_, ih hmore hrest⟩
    obtain ⟨existing, -, hw⟩ := bind_eq_ok.mp hw
    obtain ⟨gated, -, hw⟩ := bind_eq_ok.mp hw
    obtain ⟨fields, hfields, hw⟩ := bind_eq_ok.mp hw
    rw [← Except.ok.inj hw, holdsOnce_record]
    exact (hv.spread hfields).put

theorem holdsOnce_split {gate : String} (h : split n v = .ok (w, gate)) (hv : v.HoldsOnce) :
    w.HoldsOnce := by
  obtain ⟨fields, -, -, -, -, hfields, -, -, -, -, rfl, -⟩ := split_inv h
  refine holdsOnce_record.mpr (Fields.Once.erase ?_)
  unfold withId
  split_ifs
  · exact hv fields hfields
  · exact (hv fields hfields).put

theorem Resolves.holdsOnce (h : Resolves n steps out) (hs : ∀ v ∈ steps, v.HoldsOnce) :
    ∀ w ∈ out, w.HoldsOnce := by
  induction h with
  | nil => simp
  | keep _ _ ih =>
    obtain ⟨hv, hrest⟩ := List.forall_mem_cons.mp hs
    exact List.forall_mem_cons.mpr ⟨hv, ih hrest⟩
  | bail _ hsplit hgate _ ih =>
    obtain ⟨hv, hrest⟩ := List.forall_mem_cons.mp hs
    exact List.forall_mem_cons.mpr ⟨holdsOnce_split hsplit hv, ih (holdsOnce_gateAll hgate hrest)⟩

end Bail

/-! ## Keys that are left -/

/-- The mapping has none of the extension keys, apart from those of steps of setups. -/
def Consumed (table job v : Value) : Prop :=
  ∀ a, Scalar.str a ∈ extensionKeys → v.part (.str a) ≠ none →
    ∃ step, SetupStep table job step ∧ step.entry (.str a) ≠ none

/-- The keys that compiling writes to. -/
def ownKeys : List String := ["name", "run", "id", "if", "bail_if"]

theorem not_mem_of_extensionKey {a : String} {keys : List String}
    (ha : Scalar.str a ∈ extensionKeys) (hkeys : keys ⊆ ownKeys) : a ∉ keys := by
  intro hmem
  have hown := hkeys hmem
  simp only [extensionKeys, List.mem_cons, Scalar.str.injEq, List.not_mem_nil, or_false] at ha
  rcases ha with rfl | rfl | rfl | rfl | rfl <;> revert hown <;> decide

namespace Block

theorem part_of_ofSetup {items : List Value} {a : String} (h : OfSetup name items b)
    (ha : Scalar.str a ∈ extensionKeys) : ∀ v ∈ b, v.part (.str a) = none ∨
      ∃ item ∈ items, v.part (.str a) = item.entry (.str a) := by
  have hcopy : ∀ {keys : List String} {step v : Value}, keys ⊆ ownKeys → CopyOf keys step v →
      v.part (.str a) = step.entry (.str a) := by
    intro keys step v hkeys ⟨fields, hfields, hsame⟩
    rw [hsame.part (not_mem_of_extensionKey ha hkeys), entry, hfields]
    rfl
  have hmarker : ∀ {u v : Value}, u = startMarker name ∨ u = finishMarker name → Same ["if"] u v →
      v.part (.str a) = none := by
    intro u v hu hsame
    rw [hsame.part (not_mem_of_extensionKey ha (by simp [ownKeys]))]
    rcases hu with rfl | rfl <;>
      exact get?_texts [("name", _), ("run", _)] (not_mem_of_extensionKey ha (by simp [ownKeys]))
  cases h with
  | none => simp
  | one hc _ _ =>
    simp only [List.mem_singleton, forall_eq, exists_eq_left]
    exact Or.inr (hcopy (by simp [ownKeys]) hc)
  | many _ hf hc hl =>
    intro v hv
    rcases List.mem_append.mp hv with hv | hv
    · rcases List.mem_cons.mp hv with rfl | hv
      · exact Or.inl (hmarker (Or.inl rfl) hf)
      · obtain ⟨item, hitem, hof⟩ := forall₂_exists_left hc hv
        exact Or.inr ⟨item, hitem, hcopy (by simp [ownKeys]) hof⟩
    · obtain rfl := List.mem_singleton.mp hv
      exact Or.inl (hmarker (Or.inr rfl) hl)

theorem From.consumed {outs : List (String × String)} {x : String} (h : From table job outs x b)
    (honce : ∀ step ∈ Job.steps job, step.HoldsOnce) : ∀ v ∈ b, Consumed table job v := by
  intro v hv a ha hpart
  have hif : a ∉ ["if"] := not_mem_of_extensionKey ha (by simp [ownKeys])
  cases h with
  | step hi hfields hguard =>
    obtain rfl := List.mem_singleton.mp hv
    refine absurd ?_ hpart
    have hfs := honce _ (List.mem_of_getElem? hi) _ hfields
    rw [(guardWith_ok hguard (isRecord_plain hfields)).part hif, Step.plain, hfields]
    have hkeys : extensionKeys = ["setup", "paths", "local", "local_env_flag",
      "local_cache_directory"].map .str := rfl
    rw [hkeys] at ha ⊢
    obtain ⟨k, hk, heq⟩ := List.mem_map.mp ha
    exact hfs.erase.get?_eraseAll (Scalar.str.inj heq ▸ hk)
  | setup hname htext hfound hb =>
    obtain ⟨items, hitems, hof⟩ := ofSetup_ok hb
    rcases part_of_ofSetup hof ha v hv with hnone | ⟨item, hitem, hentry⟩
    · exact absurd hnone hpart
    · exact ⟨item, ⟨_, _, items, hname, hfound, hitems, hitem⟩, hentry ▸ hpart⟩
  | paths hstep hne hout hcheck hguard =>
    obtain rfl := List.mem_singleton.mp hv
    refine absurd ?_ hpart
    obtain ⟨found, -, hcheck⟩ := bind_eq_ok.mp hcheck
    obtain rfl := Except.ok.inj hcheck
    rw [(guardWith_ok hguard ⟨_, rfl⟩).part hif]
    exact get?_texts [("id", _), ("name", _), ("run", _)]
      (not_mem_of_extensionKey ha (by simp [ownKeys]))

theorem From.holdsOnce {outs : List (String × String)} {x : String} (h : From table job outs x b)
    (hsteps : ∀ step ∈ Job.steps job, step.HoldsOnce)
    (hsetups : ∀ step, SetupStep table job step → step.HoldsOnce) : ∀ v ∈ b, v.HoldsOnce := by
  cases h with
  | @step i step v fields c hi hfields hguard =>
    have hplain : (Step.plain step).HoldsOnce := by
      rw [Step.plain, hfields]
      exact holdsOnce_record.mpr ((hsteps _ (List.mem_of_getElem? hi) _ hfields).erase.eraseAll _)
    simpa using holdsOnce_guardWith hplain hguard
  | setup hname htext hfound hb =>
    rw [ofSetup_eq] at hb
    obtain ⟨vs, hvs, hb⟩ := bind_eq_ok.mp hb
    intro v hv
    obtain ⟨w, hw, hguard⟩ := forall₂_exists_left (mapM_ok hb) hv
    have hcopies := holdsOnce_copies hvs fun items hitems item hitem =>
      hsetups item ⟨_, _, items, hname, hfound, hitems, hitem⟩
    exact holdsOnce_guardWith (hcopies w hw) hguard
  | @paths step v outId check c hstep hne hout hcheck hguard =>
    obtain ⟨found, -, hcheck⟩ := bind_eq_ok.mp hcheck
    have hfields : (record check).HoldsOnce := by
      rw [← Except.ok.inj hcheck]
      exact holdsOnce_texts [("id", _), ("name", _), ("run", _)] (by simp)
    simpa using holdsOnce_guardWith hfields hguard

end Block

/-! ## Jobs -/

/-- The job and its steps hold each key once, and so do the steps of the setups that it uses. -/
structure Job.KeysOnce (table job : Value) : Prop where
  itself : job.HoldsOnce
  steps : ∀ step ∈ Job.steps job, step.HoldsOnce
  setups : ∀ step, SetupStep table job step → step.HoldsOnce

/-- A mapping without `setup`, with a list of steps that have no `bail_if` and none of the extension
keys, apart from those of steps of setups. -/
def Job.Bare (table job job' : Value) : Prop :=
  ∃ fields vs, job' = .record fields ∧ Fields.get? "setup" fields = none ∧
    Fields.get? "steps" fields = some (.list vs) ∧
    ∀ v ∈ vs, v.IsRecord ∧ v.part "bail_if" = none ∧ Consumed table job v

/-- **A compiled job is bare.** -/
theorem Job.bare_of_compile {r r' : Registry} {edits : List Edit} (halone : StandAlone job)
    (honce : Job.KeysOnce table job)
    (h : exec (Job.compile table job) r = (.ok (job', edits), r')) :
    edits = [] ∧ Job.Bare table job job' := by
  obtain ⟨rfl, ids, outs, blocks, resolved, hc, -⟩ := assembled_of_compile halone h
  obtain ⟨fields, fields', hfields, rfl, hsetup, hsteps⟩ := hc.job
  refine ⟨rfl, fields', _, rfl, ?_, hsteps, fun v hv => ?_⟩
  · rw [hsetup]
    exact (honce.itself fields hfields).get?_erase
  obtain ⟨w, hw, rfl⟩ := List.mem_map.mp hv
  have hfrom : ∀ u ∈ blocks.flatten, u.HoldsOnce ∧ Consumed table job u := by
    intro u hu
    obtain ⟨b, hb, hub⟩ := List.mem_flatten.mp hu
    obtain ⟨x, -, hof⟩ := forall₂_exists_left hc.each hb
    exact ⟨hof.holdsOnce honce.steps honce.setups u hub, hof.consumed honce.steps u hub⟩
  have hwonce := hc.bails.holdsOnce (fun u hu => (hfrom u hu).1) w hw
  obtain ⟨fs, rfl⟩ := hc.bails.records hc.gated w hw
  refine ⟨⟨_, rfl⟩, (hwonce fs rfl).get?_erase, fun a ha hpart => ?_⟩
  obtain ⟨u, hu, hkept⟩ := forall₂_exists_left (hc.bails.kept hc.gated) hw
  rw [hkept.1.part (not_mem_of_extensionKey ha (by simp [ownKeys]))] at hpart
  exact (hfrom u hu).2 a ha hpart

theorem Fields.get?_plugFields {m : Nat} {key : Scalar} :
    Fields.get? key (plugFields m w fields) = (Fields.get? key fields).map (plug m w) := by
  induction fields with
  | nil => rfl
  | cons f rest ih =>
    obtain ⟨k, v⟩ := f
    rw [plugFields, Fields.get?, Fields.get?]
    split_ifs
    · rfl
    · exact ih

theorem Value.plugItems_eq {m : Nat} {vs : List Value} : plugItems m w vs = vs.map (plug m w) := by
  induction vs with
  | nil => rfl
  | cons v rest ih => rw [plugItems, List.map_cons, ih]

/-- References to something around a job do not add keys to it. -/
theorem Job.Bare.plug {m : Nat} (h : Job.Bare table job job') :
    Job.Bare table job (Value.plug m w job') := by
  obtain ⟨fields, vs, rfl, hsetup, hsteps, hvs⟩ := h
  refine ⟨plugFields m w fields, vs.map (Value.plug m w), ?_, ?_, ?_, fun u hu => ?_⟩
  · rw [Value.plug, if_neg (by simp)]
  · rw [Fields.get?_plugFields, hsetup]
    rfl
  · rw [Fields.get?_plugFields, hsteps, Option.map_some, Value.plug, plugItems_eq]
  · obtain ⟨v, hv, rfl⟩ := List.mem_map.mp hu
    obtain ⟨⟨fs, rfl⟩, hbail, hconsumed⟩ := hvs v hv
    have hplug : Value.plug m w (record fs) = record (plugFields m w fs) := by
      rw [Value.plug, if_neg (by simp)]
    have hpart : ∀ key, (Value.plug m w (record fs)).part key =
        ((record fs).part key).map (Value.plug m w) := by
      intro key
      rw [hplug]
      exact Fields.get?_plugFields
    refine ⟨⟨_, hplug⟩, ?_, fun a ha hne => ?_⟩
    · rw [hpart, hbail]
      rfl
    · refine hconsumed a ha fun hnone => hne ?_
      rw [hpart, hnone]
      rfl

theorem Job.Bare.part_setup (h : Job.Bare table job job') : job'.part "setup" = none := by
  obtain ⟨fields, vs, rfl, hsetup, -⟩ := h
  exact hsetup

theorem Job.Bare.of_mem_steps (h : Job.Bare table job job') :
    ∀ v ∈ Job.steps job', v.part "bail_if" = none ∧ Consumed table job v := by
  obtain ⟨fields, vs, rfl, -, hsteps, hvs⟩ := h
  rw [Job.steps_record hsteps]
  exact fun v hv => (hvs v hv).2

/-! ## Documents -/

namespace Workflow

/-- A document that holds `setup` once at its top, with jobs that hold their keys once. -/
structure KeysOnce (doc : Value) : Prop where
  itself : doc.HoldsOnce
  jobs : ∀ f ∈ Workflow.jobs doc, Job.KeysOnce (Workflow.setups doc) f.2

variable {doc doc' : Value} {js : Fields}

theorem leads_bare (halone : ∀ f ∈ js, Job.StandAlone f.2)
    (honce : ∀ f ∈ js, Job.KeysOnce table f.2) :
    Leads (fun _ => True) (fun a _ => a.2 = [] ∧
      List.Forall₂ (fun f g => g.1 = f.1 ∧ Job.Bare table f.2 g.2) js a.1)
      (compileJobs table js []) := by
  induction js with
  | nil => exact leads_pure fun _ _ => ⟨rfl, .nil⟩
  | cons f rest ih =>
    obtain ⟨id, job⟩ := f
    obtain ⟨hjob, hrest⟩ := List.forall_mem_cons.mp halone
    obtain ⟨hkeys, hmore⟩ := List.forall_mem_cons.mp honce
    have hcompile : Leads (fun _ => True) (fun a _ => (a.2 = [] ∧ Job.Bare table job a.1) ∧ True)
        (Job.compile table job) := by
      intro r _
      unfold Ensures
      rcases h : exec (Job.compile table job) r with ⟨e | a, r'⟩
      · trivial
      · exact ⟨Job.bare_of_compile hjob hkeys h, trivial⟩
    refine hcompile.bind fun (job', edits) => .assuming fun ⟨hedits, hbare⟩ => ?_
    obtain rfl : edits = [] := hedits
    refine (ih hrest hmore).bind fun (rest', more) => leads_pure fun r ⟨hnone, hall⟩ => ?_
    obtain rfl : more = [] := hnone
    exact ⟨rfl, .cons ⟨rfl, hbare⟩ hall⟩

/-- The jobs of a document are those that were put in, up to what they refer to. -/
theorem jobs_put_map (m : Option Nat) (js fields : Fields) :
    jobs (.record (Fields.put "jobs" (.map m js) fields)) = js ∨
      ∃ n w, jobs (.record (Fields.put "jobs" (.map m js) fields)) = plugFields n w js := by
  have hpart : (record (Fields.put "jobs" (.map m js) fields)).part "jobs" = some (.map m js) :=
    Fields.get?_put_self
  rw [jobs, hpart]
  cases js with
  | nil => exact Or.inl rfl
  | cons f rest =>
    cases m with
    | none => exact Or.inl rfl
    | some n => exact Or.inr ⟨n, _, rfl⟩

theorem jobs_put_forall₂ {R : Scalar × Value → Scalar × Value → Prop} {compiled : Fields}
    (h : List.Forall₂ R js compiled) (hplug : ∀ f k v n w, R f (k, v) → R f (k, plug n w v))
    (m : Option Nat) (fields : Fields) :
    List.Forall₂ R js (jobs (.record (Fields.put "jobs" (.map m compiled) fields))) := by
  rcases jobs_put_map m compiled fields with heq | ⟨n, w, heq⟩
  · rwa [heq]
  · rw [heq]
    clear heq
    induction h with
    | nil => exact .nil
    | cons hfg _ ih => exact .cons (hplug _ _ _ n w hfg) ih

/-- What compiling makes of a document: no `setup`, and each job bare. -/
def Bare (doc doc' : Value) : Prop :=
  doc'.part "setup" = none ∧
    List.Forall₂ (fun f g => g.1 = f.1 ∧ Job.Bare (setups doc) f.2 g.2) (jobs doc) (jobs doc')

theorem leads_compileIn_bare (halone : StandAlone doc) (honce : KeysOnce doc) :
    Leads (fun _ => True) (fun doc' _ => Bare doc doc') (compileIn doc) := by
  refine leads_liftM.bind fun taken => .assuming fun htake => ?_
  obtain ⟨setup, fields⟩ := taken
  have hsetup : setups doc = Workflow.table setup := by rw [setups, Value.part_of_take htake]
  have hpart : doc.part "jobs" = Fields.get? "jobs" fields :=
    Value.part_of_take_ne htake (by decide)
  obtain ⟨fs, hfs, -, rfl⟩ := Value.exists_fields_of_take htake
  have hgone : Fields.get? "setup" (Fields.erase "setup" fs) = none :=
    (honce.itself fs hfs).get?_erase
  dsimp only
  cases hsource : Value.given? (Fields.get? "jobs" (Fields.erase "setup" fs)) with
  | none =>
    have hnone : jobs (.record (Fields.erase "setup" fs)) = [] := by
      rw [jobs, show (Value.record (Fields.erase "setup" fs)).part "jobs" =
        Fields.get? "jobs" (Fields.erase "setup" fs) from rfl, hsource]
    refine leads_pure fun _ _ => ⟨hgone, ?_⟩
    rw [hnone, jobs, hpart, hsource]
    exact .nil
  | some source =>
    refine leads_liftM.bind fun js => .assuming fun hjs => ?_
    have hjobs := jobs_eq htake hsource hjs
    have hall : ∀ f ∈ js, Job.StandAlone f.2 := fun f hf =>
      ⟨halone.jobs f.1 f.2 (hjobs ▸ hf), halone.steps f.1 f.2 (hjobs ▸ hf)⟩
    have hkeys : ∀ f ∈ js, Job.KeysOnce (setups doc) f.2 := fun f hf => honce.jobs f (hjobs ▸ hf)
    rw [← hsetup]
    refine (leads_bare hall hkeys).bind fun out => leads_pure fun _ hout => ?_
    obtain ⟨compiled, edits⟩ := out
    obtain ⟨hedits, hbare⟩ := hout
    obtain rfl : edits = [] := hedits
    refine ⟨?_, ?_⟩
    · change Fields.get? "setup" (Fields.put "jobs" _ (Fields.applyAll [] _)) = none
      rw [Fields.get?_put_ne (by decide),
        show ∀ fields, Fields.applyAll [] fields = fields from List.map_id]
      exact hgone
    · rw [hjobs]
      exact jobs_put_forall₂ hbare (fun _ _ _ _ _ h => ⟨h.1, h.2.plug⟩) _ _

end Workflow

/-- **Keys that only concern the tool** are gone from a compiled document, apart from the extension
keys of the steps of setups, which are copied. -/
theorem keys_consumed {doc doc' : Value} (halone : Workflow.StandAlone doc)
    (honce : Workflow.KeysOnce doc) (h : Workflow.compile doc = .ok doc') :
    doc'.part "setup" = none ∧
    List.Forall₂ (fun f g => g.1 = f.1 ∧ g.2.part "setup" = none ∧
        ∀ v ∈ Job.steps g.2, v.part "bail_if" = none ∧ Consumed (Workflow.setups doc) f.2 v)
      (Workflow.jobs doc) (Workflow.jobs doc') := by
  have hensures := Workflow.leads_compileIn_bare halone honce {} trivial
  rw [Workflow.compile] at h
  obtain ⟨hsetup, hjobs⟩ := hensures.of_ok (Prod.ext h rfl)
  refine ⟨hsetup, hjobs.imp fun f g ⟨hkey, hbare⟩ => ⟨hkey, ?_, ?_⟩⟩
  · exact hbare.part_setup
  · exact hbare.of_mem_steps

/-! ## A sample

A step of a setup and a step of a job have the key `local`. -/

namespace Workflow

def keyedSetups : Fields := [("tools", .list [.record [("run", .str "make"),
  ("bail_if", .str "outputs.done"), ("local", .bool false)]])]

def keyedJob : Value := .record [("steps", .list [.record [("run", .str "build"),
  ("setup", .str "tools"), ("local", .bool true)]])]

def keyedDoc : Value :=
  .record [("setup", .record keyedSetups), ("jobs", .record [("code", keyedJob)])]

theorem keyedDoc_standAlone : StandAlone keyedDoc := by
  have hjobs : jobs keyedDoc = [(.str "code", keyedJob)] := rfl
  refine ⟨fun id job hmem => ?_, fun id job hmem step hstep => ?_⟩
  all_goals
    rw [hjobs, List.mem_singleton] at hmem
    obtain ⟨-, rfl⟩ := Prod.mk.inj hmem
  · exact standsAlone_record _
  · obtain rfl : step = _ := List.mem_singleton.mp hstep
    exact standsAlone_record _

theorem keyedDoc_keysOnce : KeysOnce keyedDoc := by
  refine ⟨holdsOnce_record.mpr (by decide), fun f hf => ?_⟩
  obtain rfl : f = (.str "code", keyedJob) := List.mem_singleton.mp hf
  refine ⟨holdsOnce_record.mpr (by decide), fun step hstep => ?_, fun step hstep => ?_⟩
  · obtain rfl : step = _ := List.mem_singleton.mp hstep
    exact holdsOnce_record.mpr (by decide)
  · obtain ⟨name, definition, items, -, hfound, hitems, hmem⟩ := hstep
    have hfound : Setup.find? (.record keyedSetups) name = .ok (some definition) := hfound
    obtain ⟨k, hk⟩ := mem_of_find? hfound
    obtain ⟨-, rfl⟩ := Prod.mk.inj (List.mem_singleton.mp hk)
    obtain rfl := Except.ok.inj hitems
    obtain rfl : step = _ := List.mem_singleton.mp hmem
    exact holdsOnce_record.mpr (by decide)

/-- Which steps of a document's jobs have a key. -/
def having (key : Scalar) (doc : Value) : List (List Bool) :=
  (jobs doc).map fun f => (Job.steps f.2).map fun v => (v.part key).isSome

end Workflow

/-- Both steps lose their `setup` and `bail_if`. -/
theorem keys_consumed_sample : Workflow.StandAlone Workflow.keyedDoc ∧
    Workflow.KeysOnce Workflow.keyedDoc ∧
    ∃ doc', Workflow.compile Workflow.keyedDoc = .ok doc' ∧
      Workflow.having "run" doc' = [[true, true]] ∧ doc'.part "setup" = none ∧
      List.Forall₂ (fun f g => g.1 = f.1 ∧ g.2.part "setup" = none ∧
          ∀ v ∈ Job.steps g.2, v.part "bail_if" = none ∧
            Consumed (Workflow.setups Workflow.keyedDoc) f.2 v)
        (Workflow.jobs Workflow.keyedDoc) (Workflow.jobs doc') := by
  have hrun : (Workflow.compile Workflow.keyedDoc).toOption.map (Workflow.having "run") =
      some [[true, true]] := by decide
  cases hok : Workflow.compile Workflow.keyedDoc with
  | error e =>
    rw [hok] at hrun
    cases hrun
  | ok doc' =>
    rw [hok] at hrun
    exact ⟨Workflow.keyedDoc_standAlone, Workflow.keyedDoc_keysOnce, doc', rfl,
      Option.some.inj hrun,
      keys_consumed Workflow.keyedDoc_standAlone Workflow.keyedDoc_keysOnce hok⟩

/-- **The copied step of a setup keeps an extension key**; the step of the job does not. -/
theorem keys_kept : Scalar.str "local" ∈ Graph.extensionKeys ∧
    (Workflow.compile Workflow.keyedDoc).toOption.map (Workflow.having "local") =
      some [[true, false]] := by
  refine ⟨by decide, ?_⟩
  decide

end StepLoom
