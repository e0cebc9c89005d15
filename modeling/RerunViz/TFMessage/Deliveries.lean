import RerunViz.Converter.TFMessage

set_option autoImplicit false

/-!
# One message after the other

The graph outlives the messages.  A transform that would close a cycle is skipped, and a
stamp that is not accepted ends the callback halfway: by then the edge has been entered and
its old data erased, the new data is not there, and nothing is logged.  `Edges` is what all
of this amounts to, in terms of frames alone; the callback does exactly that, in every
sequence of messages (`deliveries_refine`).
-/

namespace RerunViz.TFMessage

open TFGraph Forest

variable {Time : Type} {rosTime : Stamp → Except Exception Time}

/-! ## What is known about the frames -/

/-- Which frame hangs from which, and the transform in force of each child.  It is missing
where the last stamp was not accepted. -/
structure Edges where
  parent : String → Option String
  transforms : TransformMap
  acyclic : Acyclic parent
  backed : ∀ c p tf, transforms.lookup c = some (p, tf) → parent c = some p

namespace Edges

def empty : Edges where
  parent := fun _ => none
  transforms := ∅
  acyclic := acyclic_empty
  backed := by simp

section Enter

variable (t : Edges) (tf : TransformStamped)
  (h : Acyclic (attach t.parent tf.childFrameId tf.header.frameId))

/-- The child hangs from its new parent, with its transform. -/
def withTransform : Edges where
  parent := attach t.parent tf.childFrameId tf.header.frameId
  transforms := t.transforms.insert tf.childFrameId (tf.header.frameId, tf)
  acyclic := h
  backed := by
    intro c p tf' hc
    rw [attach_apply]
    rcases TransformMap.lookup_insert_eq_some_iff.mp hc with ⟨rfl, heq⟩ | ⟨hne, hold⟩
    · rw [if_pos rfl, (Prod.mk.inj heq).1]
    · rw [if_neg hne, t.backed c p tf' hold]

/-- The child hangs from its new parent, and its transform is lost. -/
def withoutTransform : Edges where
  parent := attach t.parent tf.childFrameId tf.header.frameId
  transforms := t.transforms.erase tf.childFrameId
  acyclic := h
  backed := by
    intro c p tf' hc
    obtain ⟨hne, hold⟩ := TransformMap.lookup_erase_eq_some_iff.mp hc
    rw [attach_apply, if_neg hne, t.backed c p tf' hold]

end Enter

open Classical in
/-- Enter a transform, if this closes no cycle. -/
noncomputable def enter (rosTime : Stamp → Except Exception Time) (t : Edges)
    (tf : TransformStamped) : Except Exception Bool × Edges :=
  if h : Acyclic (attach t.parent tf.childFrameId tf.header.frameId) then
    match rosTime tf.header.stamp with
    | .error e => (.error e, t.withoutTransform tf h)
    | .ok _ => (.ok true, t.withTransform tf h)
  else (.ok false, t)

/-- A transform is skipped, or its edge is entered, with or without its data. -/
theorem enter_cases (rosTime : Stamp → Except Exception Time) (t : Edges)
    (tf : TransformStamped) :
    t.enter rosTime tf = (.ok false, t) ∨
      (∃ h e, t.enter rosTime tf = (.error e, t.withoutTransform tf h)) ∨
      ∃ h, t.enter rosTime tf = (.ok true, t.withTransform tf h) := by
  unfold enter
  split
  · rename_i hac
    cases rosTime tf.header.stamp with
    | error e => exact Or.inr (Or.inl ⟨hac, e, rfl⟩)
    | ok time => exact Or.inr (Or.inr ⟨hac, rfl⟩)
  · exact Or.inl rfl

/-- What a message comes to: the edges, the transforms that were skipped, and the exception
that has ended it. -/
structure Worked where
  edges : Edges
  warned : List TransformStamped
  ended : Except Exception Unit

/-- Enter the transforms of a message, up to the first stamp that is not accepted. -/
noncomputable def work (rosTime : Stamp → Except Exception Time) :
    Edges → List TransformStamped → Worked
  | t, [] => ⟨t, [], .ok ()⟩
  | t, tf :: rest =>
      match t.enter rosTime tf with
      | (.error e, t') => ⟨t', [], .error e⟩
      | (.ok false, t') =>
          { work rosTime t' rest with warned := tf :: (work rosTime t' rest).warned }
      | (.ok true, t') => work rosTime t' rest

end Edges

/-! ## The graph shows the edges -/

/-- The three maps of the graph show the edges, whose parents hold no arrow. -/
structure Shows (g : TFGraph Time) (t : Edges) : Prop where
  mirror : Mirror g
  parent_eq : g.getParent = t.parent
  arrow_free : ∀ c p, t.parent c = some p → ¬ HasArrow p
  data : KeepsData g.transforms t.transforms

theorem shows_empty : Shows (TFGraph.empty : TFGraph Time) Edges.empty where
  mirror := mirror_empty
  parent_eq := rfl
  arrow_free := nofun
  data := .empty

theorem erase_of_lookup_eq_none {β : String → Type} {s : AList β} {key : String}
    (h : s.lookup key = none) : s.erase key = s := by
  have hnot : key ∉ s.entries.keys := AList.lookup_eq_none.mp h
  exact AList.ext (List.kerase_of_notMem_keys hnot)

section OneTransform

variable {g : TFGraph Time} {t : Edges} {tf : TransformStamped}

/-- The structural edits erase the data of the child. -/
theorem Shows.data_relate (h : Shows g t) (parent child : String) :
    KeepsData (g.relate parent child).transforms (t.transforms.erase child) := by
  rw [transforms_relate]
  cases hlookup : t.transforms.lookup child with
  | some entry =>
      obtain ⟨p, tf⟩ := entry
      have hparent : g.getParent child = some p := by
        rw [h.parent_eq]
        exact t.backed child p tf hlookup
      rw [hparent]
      exact h.data.erase hlookup
  | none =>
      rw [TransformMap.erase_of_lookup_eq_none hlookup]
      cases hparent : g.getParent child with
      | none => exact h.data
      | some oldParent =>
          -- the edge lost its data before: its key belongs to no other edge
          have habsent : g.transforms.lookup (makeTransformKey oldParent child) = none := by
            cases hkey : g.transforms.lookup (makeTransformKey oldParent child) with
            | none => rfl
            | some data =>
                rw [h.parent_eq] at hparent
                have harrow := h.arrow_free child oldParent hparent
                rw [h.data.lookup_eq_some_iff harrow hkey] at hlookup
                cases hlookup
          simp only [erase_of_lookup_eq_none habsent]
          exact h.data

theorem Shows.parent_relate (h : Shows g t) (parent child : String) :
    (g.relate parent child).getParent = attach t.parent child parent := by
  rw [getParent_relate, h.parent_eq]

theorem Shows.arrow_free_attach (h : Shows g t) {parent child : String}
    (harrow : ¬ HasArrow parent) (c p : String) (hup : attach t.parent child parent c = some p) :
    ¬ HasArrow p := by
  rcases up_attach_iff.mp hup with ⟨_, rfl⟩ | ⟨_, hold⟩
  · exact harrow
  · exact h.arrow_free c p hold

/-- The check for cycles, made on the lists of children, is right. -/
theorem Shows.wouldCreateCycle_iff (h : Shows g t) (parent child : String) :
    g.wouldCreateCycle parent child = true ↔ ¬ Acyclic (attach t.parent child parent) := by
  rw [h.mirror.wouldCreateCycle_iff, h.parent_eq, not_acyclic_attach_iff t.acyclic]

/-- One addition is the entering of one transform. -/
theorem Shows.addTransform (h : Shows g t) (harrow : ¬ HasArrow tf.header.frameId) :
    (g.addTransform rosTime tf).1 = (t.enter rosTime tf).1 ∧
      Shows (g.addTransform rosTime tf).2 (t.enter rosTime tf).2 := by
  have hcheck := h.wouldCreateCycle_iff tf.header.frameId tf.childFrameId
  unfold Edges.enter
  rcases addTransform_cases rosTime g tf with
    ⟨hcyc, heq⟩ | ⟨hcyc, e, htime, heq⟩ | ⟨hcyc, time, htime, heq⟩
  · rw [heq, dif_neg (hcheck.mp hcyc)]
    exact ⟨rfl, h⟩
  · have hac := not_not.mp (mt hcheck.mpr (Bool.eq_false_iff.mp hcyc))
    rw [heq, dif_pos hac, htime]
    exact ⟨rfl, h.mirror.relate _ _, h.parent_relate _ _, h.arrow_free_attach harrow,
      h.data_relate _ _⟩
  · have hac := not_not.mp (mt hcheck.mpr (Bool.eq_false_iff.mp hcyc))
    rw [heq, dif_pos hac, htime]
    have hdata := (h.data_relate tf.header.frameId tf.childFrameId).insert tf time
      (Finmap.lookup_erase _ _) harrow
    rw [TransformMap.insert_erase] at hdata
    exact ⟨rfl, (h.mirror.relate _ _).of_maps_eq rfl rfl, h.parent_relate _ _,
      h.arrow_free_attach harrow, hdata⟩

end OneTransform

/-! ## One message -/

/-- What the loop leaves behind, against what the message comes to. -/
structure ComesTo (r : Processed Time) (w : Edges.Worked) : Prop where
  graph : Shows r.graph w.edges
  warned : r.warned = w.warned
  ended : r.ended = w.ended

theorem Shows.processTransforms {g : TFGraph Time} {t : Edges} (h : Shows g t)
    {tfs : List TransformStamped} (harrow : ∀ tf ∈ tfs, ¬ HasArrow tf.header.frameId) :
    ComesTo (processTransforms rosTime g tfs) (t.work rosTime tfs) := by
  induction tfs generalizing g t with
  | nil => exact ⟨h, rfl, rfl⟩
  | cons tf rest ih =>
      obtain ⟨houtcome, hafter⟩ :=
        @Shows.addTransform _ rosTime _ _ _ h (harrow tf List.mem_cons_self)
      have hrest := ih hafter fun tf' hmem => harrow tf' (List.mem_cons_of_mem tf hmem)
      unfold TFMessage.processTransforms Edges.work
      generalize g.addTransform rosTime tf = left, t.enter rosTime tf = right at *
      obtain ⟨outcome, g'⟩ := left
      obtain ⟨outcome', t'⟩ := right
      obtain rfl : outcome = outcome' := houtcome
      cases outcome with
      | error e => exact ⟨hafter, rfl, rfl⟩
      | ok added =>
          cases added with
          | false => exact ⟨hrest.graph, congrArg (tf :: ·) hrest.warned, hrest.ended⟩
          | true => exact hrest

/-! ## What is logged -/

/-- The record for a transform in force: under the entities of all frames from the root down to
the child, with the transform. -/
def Edges.RecordOf (t : Edges) (c : String) (record : Record Transform3D) : Prop :=
  ∃ p tf path, t.transforms.lookup c = some (p, tf) ∧ EntityPath t.parent c path ∧
    record = ⟨path, loggedTransform tf.transform⟩

/-- One record for every transform in force and no others. -/
def LogsAll (t : Edges) (records : List (Record Transform3D)) : Prop :=
  ∃ children : List String, children.Nodup ∧
    (∀ c, c ∈ children ↔ ∃ p tf, t.transforms.lookup c = some (p, tf)) ∧
    List.Forall₂ t.RecordOf children records

theorem exists_mem_of_forall₂ {α β : Type} {r : α → β → Prop} {l : List α} {l' : List β}
    (h : List.Forall₂ r l l') :
    (∀ a ∈ l, ∃ b ∈ l', r a b) ∧ ∀ b ∈ l', ∃ a ∈ l, r a b := by
  induction h with
  | nil => exact ⟨nofun, nofun⟩
  | @cons a b l l' hab _ ih =>
      obtain ⟨hleft, hright⟩ := ih
      constructor
      · intro x hx
        rcases List.mem_cons.mp hx with rfl | hmem
        · exact ⟨b, List.mem_cons_self, hab⟩
        · exact (hleft x hmem).imp fun _ hy => ⟨List.mem_cons_of_mem b hy.1, hy.2⟩
      · intro y hy
        rcases List.mem_cons.mp hy with rfl | hmem
        · exact ⟨a, List.mem_cons_self, hab⟩
        · exact (hright y hmem).imp fun _ hx => ⟨List.mem_cons_of_mem a hx.1, hx.2⟩

/-- What is logged, and where. -/
theorem LogsAll.mem_iff {t : Edges} {records : List (Record Transform3D)} (h : LogsAll t records)
    (record : Record Transform3D) : record ∈ records ↔
      ∃ c p tf path, t.transforms.lookup c = some (p, tf) ∧ EntityPath t.parent c path ∧
        record = ⟨path, loggedTransform tf.transform⟩ := by
  obtain ⟨children, _, hchildren, hall⟩ := h
  obtain ⟨hleft, hright⟩ := exists_mem_of_forall₂ hall
  constructor
  · intro hmem
    obtain ⟨c, _, hc⟩ := hright record hmem
    exact ⟨c, hc⟩
  · rintro ⟨c, p, tf, path, hc, hpath, rfl⟩
    obtain ⟨record, hmem, p', tf', path', hc', hpath', rfl⟩ :=
      hleft c ((hchildren c).mpr ⟨p, tf, hc⟩)
    rw [hc, Option.some.injEq, Prod.mk.injEq] at hc'
    obtain ⟨rfl, rfl⟩ := hc'
    rwa [hpath.unique hpath']

section Logging

variable {g : TFGraph Time} {t : Edges}

theorem Shows.exists_rootPath (h : Shows g t) (frame : String) :
    ∃ l, g.getPathToRoot frame = some l ∧ RootPath t.parent frame l := by
  rw [← h.parent_eq]
  exact exists_getPathToRoot (h.parent_eq ▸ t.acyclic) frame

/-- The record of one entry. -/
theorem Shows.logTransformToRerun (h : Shows g t) (p c : String) (data : TransformData Time) :
    ∃ path, EntityPath t.parent c path ∧
      g.logTransformToRerun p c data =
        some ⟨path, loggedTransform data.transform.transform⟩ := by
  obtain ⟨l, hl, hroot⟩ := h.exists_rootPath c
  exact ⟨_, entityPath_of_rootPath hroot, by rw [TFGraph.logTransformToRerun, hl]⟩

/-- The loop over entries makes one record for each. -/
theorem Shows.logEntries (h : Shows g t)
    {entries : List (Sigma fun _ : String => TransformData Time)}
    (hstored : ∀ e ∈ entries, ∃ p c, e.1 = makeTransformKey p c ∧
      t.transforms.lookup c = some (p, e.2.transform)) :
    ∃ records, g.logEntries entries = some records ∧
      List.Forall₂ t.RecordOf (entries.map fun e => loggedChild e.1) records := by
  induction entries with
  | nil => exact ⟨[], rfl, .nil⟩
  | cons e entries ih =>
      obtain ⟨key, data⟩ := e
      obtain ⟨p, c, rfl, hc⟩ := hstored ⟨key, data⟩ List.mem_cons_self
      obtain ⟨records, hrecords, hrest⟩ := ih fun e he => hstored e (List.mem_cons_of_mem _ he)
      obtain ⟨path, hpath, hrecord⟩ := h.logTransformToRerun p c data
      refine ⟨⟨path, loggedTransform data.transform.transform⟩ :: records, ?_, ?_⟩
      · rw [TFGraph.logEntries, splitTransformKey_makeTransformKey (h.data.arrow_free c p _ hc)]
        simp only [hrecord, hrecords, Option.map_some]
      · rw [List.map_cons, h.data.loggedChild_eq rfl hc]
        exact .cons ⟨p, data.transform, path, hc, hpath, rfl⟩ hrest

/-- Whatever the order of iteration, every transform in force is logged. -/
theorem Shows.logToRerun (h : Shows g t) (stream : RecordingStream)
    {entries : List (Sigma fun _ : String => TransformData Time)}
    (horder : entries.Perm g.transforms.entries) :
    ∃ records, g.logToRerun entries (some stream) = some records ∧ LogsAll t records := by
  obtain ⟨records, hrecords, hall⟩ :=
    h.logEntries fun e he => h.data.edge_of_entry horder he
  exact ⟨records, hrecords, _, h.data.nodup_loggedChild horder,
    h.data.mem_loggedChild_iff horder, hall⟩

end Logging

/-! ## Messages in sequence -/

section Messages

variable (rosTime : Stamp → Except Exception Time)
  (order : TFGraph Time → List (Sigma fun _ : String => TransformData Time))
  (stream : RecordingStream)

/-- The graph of the object after a list of messages. -/
def delivered (msgs : List Tf2Msgs.TFMessage) : TFGraph Time :=
  Run.run (fun g msg => (topicCallback rosTime order (some stream) g msg).graph)
    TFGraph.empty msgs

/-- What a list of messages comes to. -/
noncomputable def tracked (msgs : List Tf2Msgs.TFMessage) : Edges :=
  Run.run (fun t msg => (t.work rosTime msg.transforms).edges) Edges.empty msgs

end Messages

section Deliveries

variable {order : TFGraph Time → List (Sigma fun _ : String => TransformData Time)}
  {stream : RecordingStream}

theorem delivered_concat (msgs : List Tf2Msgs.TFMessage) (msg : Tf2Msgs.TFMessage) :
    delivered rosTime order stream (msgs ++ [msg]) =
      (topicCallback rosTime order (some stream) (delivered rosTime order stream msgs)
        msg).graph := by
  rw [delivered, Run.run_append, Run.run_singleton]
  rfl

theorem tracked_concat (msgs : List Tf2Msgs.TFMessage) (msg : Tf2Msgs.TFMessage) :
    tracked rosTime (msgs ++ [msg]) =
      ((tracked rosTime msgs).work rosTime msg.transforms).edges := by
  rw [tracked, Run.run_append, Run.run_singleton]
  rfl

/-- No parent frame of a message holds an arrow. -/
def ArrowFree (msg : Tf2Msgs.TFMessage) : Prop :=
  ∀ tf ∈ msg.transforms, ¬ HasArrow tf.header.frameId

theorem Shows.topicCallback {g : TFGraph Time} {t : Edges} (h : Shows g t)
    {msg : Tf2Msgs.TFMessage} (harrow : ArrowFree msg) :
    ComesTo (topicCallback rosTime order (some stream) g msg).toProcessed
      (t.work rosTime msg.transforms) := by
  rw [topicCallback_toProcessed]
  exact h.processTransforms harrow

theorem shows_delivered {msgs : List Tf2Msgs.TFMessage} (harrow : ∀ msg ∈ msgs, ArrowFree msg) :
    Shows (delivered rosTime order stream msgs) (tracked rosTime msgs) := by
  induction msgs using List.reverseRecOn with
  | nil => exact shows_empty
  | append_singleton msgs msg ih =>
      rw [delivered_concat, tracked_concat]
      have hbefore := ih fun msg' hmem => harrow msg' (List.mem_append_left _ hmem)
      exact (hbefore.topicCallback (harrow msg (by simp))).graph

/-- A callback that returns has logged every transform in force, and one that an exception
has ended has logged nothing. -/
theorem Shows.records {g : TFGraph Time} {t : Edges} (h : Shows g t)
    (horder : ∀ g : TFGraph Time, (order g).Perm g.transforms.entries)
    {msg : Tf2Msgs.TFMessage} (harrow : ArrowFree msg) :
    ∃ records, (TFMessage.topicCallback rosTime order (some stream) g msg).records = some records ∧
      ((t.work rosTime msg.transforms).ended = .ok () →
        LogsAll (t.work rosTime msg.transforms).edges records) ∧
      ∀ e, (t.work rosTime msg.transforms).ended = .error e → records = [] := by
  have hcomes := @Shows.processTransforms _ rosTime _ _ h _ harrow
  rw [← hcomes.ended]
  unfold TFMessage.topicCallback
  dsimp only
  split
  · rename_i e hended
    rw [hended]
    exact ⟨[], rfl, nofun, fun _ _ => rfl⟩
  · rename_i hended
    rw [hended]
    obtain ⟨records, hrecords, hlogs⟩ := hcomes.graph.logToRerun stream (horder _)
    exact ⟨records, hrecords, fun _ => hlogs, nofun⟩

/-- In every sequence of messages, none with an arrow in a parent: the graph of the object shows
what the messages come to, and the next callback warns about the transforms that close a
cycle at their turn, ends by the first stamp that is not accepted, and logs all transforms
in force if there is none. -/
theorem deliveries_refine (rosTime : Stamp → Except Exception Time)
    (order : TFGraph Time → List (Sigma fun _ : String => TransformData Time))
    (horder : ∀ g : TFGraph Time, (order g).Perm g.transforms.entries)
    (stream : RecordingStream) (msgs : List Tf2Msgs.TFMessage) (msg : Tf2Msgs.TFMessage)
    (harrow : ∀ msg' ∈ msgs ++ [msg], ArrowFree msg') :
    Shows (delivered rosTime order stream msgs) (tracked rosTime msgs) ∧
      ComesTo (topicCallback rosTime order (some stream) (delivered rosTime order stream msgs)
        msg).toProcessed ((tracked rosTime msgs).work rosTime msg.transforms) ∧
      ∃ records,
        (topicCallback rosTime order (some stream) (delivered rosTime order stream msgs)
          msg).records = some records ∧
        (((tracked rosTime msgs).work rosTime msg.transforms).ended = .ok () →
          LogsAll ((tracked rosTime msgs).work rosTime msg.transforms).edges records) ∧
        ∀ e, ((tracked rosTime msgs).work rosTime msg.transforms).ended = .error e →
          records = [] := by
  have hshows : Shows (delivered rosTime order stream msgs) (tracked rosTime msgs) :=
    shows_delivered fun msg' hmem => harrow msg' (List.mem_append_left _ hmem)
  have hlast : ArrowFree msg := harrow msg (by simp)
  exact ⟨hshows, hshows.topicCallback hlast, hshows.records horder hlast⟩

/-- A transform that closes a cycle does not keep the others from being logged. -/
theorem deliveries_refine_cycle :
    ∃ records, (topicCallback rosTimeNanoseconds (fun g => g.transforms.entries) (some ⟨0⟩)
        (delivered rosTimeNanoseconds (fun g => g.transforms.entries) ⟨0⟩
          [⟨[createTransform "odom" "base" 1 0 0]⟩])
        ⟨[createTransform "base" "odom" 0 0 1]⟩).records = some records ∧
      LogsAll ((tracked rosTimeNanoseconds [⟨[createTransform "odom" "base" 1 0 0]⟩]).work
        rosTimeNanoseconds [createTransform "base" "odom" 0 0 1]).edges records := by
  have harrow : ∀ msg ∈ [(⟨[createTransform "odom" "base" 1 0 0]⟩ : Tf2Msgs.TFMessage)] ++
      [⟨[createTransform "base" "odom" 0 0 1]⟩], ArrowFree msg := by
    unfold ArrowFree
    decide
  obtain ⟨_, hcomes, records, hrecords, hlogs, _⟩ := deliveries_refine rosTimeNanoseconds
    (fun g => g.transforms.entries) (fun _ => List.Perm.refl _) ⟨0⟩ _ _ harrow
  refine ⟨records, hrecords, hlogs ?_⟩
  rw [← hcomes.ended]
  decide

end Deliveries

end RerunViz.TFMessage
