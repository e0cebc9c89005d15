import RerunViz.Rerun
import RerunViz.TFGraph.EdgeData

set_option autoImplicit false

/-!
# Logging the graph

`logToRerun` does not walk the tree.  It iterates over the string-keyed data, reads each
key back, and recomputes the path to the root from `parents_`, without regard to the
parent it has read.  On graphs that refine an abstract map the three agree: every frame
with a parent is logged once, under the entity of its parent.  A stamp that makes the
constructor of the data throw leaves a frame with a parent and nothing to log for it, and
nothing else does (`logToRerun_records_iff`).
-/

namespace RerunViz.TFGraph

open Forest

variable {Time : Type} {rosTime : Stamp → Except Exception Time}

/-! ## The code -/

/-- The path of an entity, from the frames between it and its root, root first. -/
def entityPathOf (frames : List String) : String :=
  frames.foldl (fun fullPath frame => fullPath ++ ("/" ++ frame)) "TF"

/-- The transform as `logTransformToRerun` hands it over. -/
def loggedTransform (tf : Transform) : Transform3D :=
  Transform3D.fromTranslation (Vec3D.ofVector3 tf.translation)
    |>.withRelation .parentFromChild
    |>.withAxisLength 0x3DCCCCCD
    |>.withQuaternion (Rotation.fromXyzw tf.rotation)

/-- `TFGraph::logTransformToRerun`; the parent it is passed is not used.  `none` would be
a walk to the root that does not return. -/
def logTransformToRerun (g : TFGraph Time) (_parent child : String)
    (data : TransformData Time) : Option (Record Transform3D) :=
  match g.getPathToRoot child with
  | none => none
  | some pathToChild =>
      some ⟨entityPathOf pathToChild.reverse, loggedTransform data.transform.transform⟩

/-- The loop of `TFGraph::logToRerun` over the entries of `transforms_`. -/
def logEntries (g : TFGraph Time) :
    List (Sigma fun _ : String => TransformData Time) → Option (List (Record Transform3D))
  | [] => some []
  | ⟨key, data⟩ :: entries =>
      match splitTransformKey key with
      | none => logEntries g entries
      | some (parent, child) =>
          match g.logTransformToRerun parent child data with
          | none => none
          | some record => (logEntries g entries).map (record :: ·)

/-- `TFGraph::logToRerun`: the records it hands to the stream, when the iteration over
`transforms_` gives the entries in the given order. -/
def logToRerun (g : TFGraph Time) (entries : List (Sigma fun _ : String => TransformData Time))
    (stream : Option RecordingStream) : Option (List (Record Transform3D)) :=
  match stream with
  | none => some []
  | some _ => g.logEntries entries

/-! ## Entity paths -/

/-- The entity path of a frame: under `TF` for a root, and under its parent's otherwise. -/
inductive EntityPath (parent : String → Option String) : String → String → Prop
  | root {f : String} (h : parent f = none) : EntityPath parent f ("TF/" ++ f)
  | step {f p path : String} (h : parent f = some p) (rest : EntityPath parent p path) :
      EntityPath parent f (path ++ "/" ++ f)

/-- A frame has one entity path at most. -/
theorem EntityPath.unique {parent : String → Option String} {f path path' : String}
    (h : EntityPath parent f path) (h' : EntityPath parent f path') : path = path' := by
  induction h generalizing path' with
  | root hroot =>
      cases h' with
      | root _ => rfl
      | step hup _ => rw [hroot] at hup; cases hup
  | step hup _ ih =>
      cases h' with
      | root hroot => rw [hroot] at hup; cases hup
      | step hup' rest' =>
          obtain rfl := Option.some.inj (hup.symm.trans hup')
          rw [ih rest']

theorem entityPathOf_concat (frames : List String) (frame : String) :
    entityPathOf (frames ++ [frame]) = entityPathOf frames ++ "/" ++ frame := by
  simp [entityPathOf, String.append_assoc]

/-- The path built from the walk to the root is the entity path. -/
theorem entityPath_of_rootPath {parent : String → Option String} {f : String}
    {l : List String} (h : RootPath parent f l) :
    EntityPath parent f (entityPathOf l.reverse) := by
  induction h with
  | @root f hroot =>
      have hpath : entityPathOf [f].reverse = "TF/" ++ f := by
        rw [List.reverse_singleton, entityPathOf, List.foldl_cons, List.foldl_nil,
          ← String.append_assoc]
        rfl
      rw [hpath]
      exact .root hroot
  | @step f p l hup _ ih =>
      rw [List.reverse_cons, entityPathOf_concat]
      exact .step hup ih

/-! ## What is logged -/

/-- The record of a frame with a parent: its entity stands directly under that of the
parent, and it carries the transform of the last accepted message for the frame. -/
structure RecordFor (rosTime : Stamp → Except Exception Time) (tfs : List TransformStamped)
    (c : String) (record : Record Transform3D) : Prop where
  entity : ∃ p path, (added rosTime tfs).getParent c = some p ∧
    EntityPath (added rosTime tfs).getParent p path ∧
    record.entityPath = path ++ "/" ++ c
  transform : ∃ tf, lastAccepted rosTime tfs c = some tf ∧
    record.archetype.translation = some (Vec3D.ofVector3 tf.transform.translation) ∧
    record.archetype.quaternion = some (Rotation.fromXyzw tf.transform.rotation) ∧
    record.archetype.relation = some .parentFromChild

/-- A stream receives one record for every frame that has a parent and no other, in whatever
order `transforms_` is iterated. -/
def LogsEach (rosTime : Stamp → Except Exception Time) (tfs : List TransformStamped) : Prop :=
  ∀ (stream : RecordingStream) (entries : List (Sigma fun _ : String => TransformData Time)),
    entries.Perm (added rosTime tfs).transforms.entries →
      ∃ (records : List (Record Transform3D)) (frames : List String),
        (added rosTime tfs).logToRerun entries (some stream) = some records ∧
        frames.Nodup ∧ (∀ c, c ∈ frames ↔ ∃ p, (added rosTime tfs).getParent c = some p) ∧
        List.Forall₂ (RecordFor rosTime tfs) frames records

/-- A message that passes the cycle check has a stamp that the time constructor accepts. -/
def Timed (rosTime : Stamp → Except Exception Time) (g : TFGraph Time)
    (tf : TransformStamped) : Prop :=
  g.wouldCreateCycle tf.header.frameId tf.childFrameId = false →
    (rosTime tf.header.stamp).isOk = true

instance (g : TFGraph Time) (tf : TransformStamped) : Decidable (Timed rosTime g tf) :=
  inferInstanceAs (Decidable (_ → _))

theorem isOk_addTransform_of_timed {g : TFGraph Time} {tf : TransformStamped}
    (h : Timed rosTime g tf) : (g.addTransform rosTime tf).1.isOk = true := by
  rcases addTransform_cases rosTime g tf with
    ⟨_, heq⟩ | ⟨hcyc, e, htime, _⟩ | ⟨_, time, _, heq⟩
  · rw [heq]
    rfl
  · have hok := h hcyc
    rw [htime] at hok
    cases hok
  · rw [heq]
    rfl

theorem refines_added_of_timed {tfs : List TransformStamped}
    (htimed : Run.Meets (add rosTime) (Timed rosTime) empty tfs)
    (harrow : ∀ tf ∈ tfs, ¬ HasArrow tf.header.frameId) :
    Refines (added rosTime tfs) (addedMap rosTime tfs) := by
  induction tfs using List.reverseRecOn with
  | nil => exact refines_empty
  | append_singleton tfs tf ih =>
      rw [Run.meets_concat] at htimed
      rw [added_concat, addedMap_concat]
      have hprev := ih htimed.1 (fun tf' hmem => harrow tf' (List.mem_append_left _ hmem))
      have hregular : (Call.addTransform tf).Regular rosTime (added rosTime tfs) :=
        ⟨trivial, isOk_addTransform_of_timed htimed.2⟩
      exact hprev.exec hregular (fun _ => harrow tf (by simp))

/-- The frame that is read back from a key. -/
def loggedChild (key : String) : String := ((splitTransformKey key).map Prod.snd).getD ""

theorem loggedChild_makeTransformKey {p c : String} (hp : ¬ HasArrow p) :
    loggedChild (makeTransformKey p c) = c := by
  rw [loggedChild, splitTransformKey_makeTransformKey hp]
  rfl

/-- The record made for an entry is that of the child of its key. -/
theorem recordFor_entry {tfs : List TransformStamped}
    (hrefines : Refines (added rosTime tfs) (addedMap rosTime tfs)) {p c : String}
    {data : TransformData Time} (hc : (addedMap rosTime tfs).lookup c = some (p, data.transform)) :
    ∃ record, (added rosTime tfs).logTransformToRerun p c data = some record ∧
      RecordFor rosTime tfs c record := by
  have hac := acyclic_added rosTime tfs
  have hparent : (added rosTime tfs).getParent c = some p := by
    rw [hrefines.parent_eq, TransformMap.parent_eq_some_iff]
    exact ⟨_, hc⟩
  obtain ⟨l, hl, hroot⟩ := exists_getPathToRoot hac p
  have hpath : (added rosTime tfs).getPathToRoot c = some (c :: l) :=
    getPathToRoot_eq_some_iff.mpr (.step hparent hroot)
  rw [lookup_addedMap, Option.map_eq_some_iff] at hc
  obtain ⟨tf, hlast, heq⟩ := hc
  refine ⟨_, by rw [logTransformToRerun, hpath], ⟨p, _, hparent, entityPath_of_rootPath hroot, ?_⟩,
    tf, hlast, ?_, ?_, rfl⟩
  · rw [List.reverse_cons, entityPathOf_concat]
  · rw [(Prod.mk.inj heq).2]
    rfl
  · rw [(Prod.mk.inj heq).2]
    rfl

/-- Entries that belong to edges are logged one by one. -/
theorem logEntries_spec {tfs : List TransformStamped}
    (hrefines : Refines (added rosTime tfs) (addedMap rosTime tfs)) :
    ∀ entries : List (Sigma fun _ : String => TransformData Time),
      (∀ e ∈ entries, ∃ p c, e.1 = makeTransformKey p c ∧
        (addedMap rosTime tfs).lookup c = some (p, e.2.transform)) →
      ∃ records, (added rosTime tfs).logEntries entries = some records ∧
        List.Forall₂ (RecordFor rosTime tfs) (entries.map fun e => loggedChild e.1) records := by
  intro entries
  induction entries with
  | nil => exact fun _ => ⟨[], rfl, .nil⟩
  | cons e entries ih =>
      intro hedges
      obtain ⟨key, data⟩ := e
      obtain ⟨p, c, rfl, hc⟩ := hedges ⟨key, data⟩ List.mem_cons_self
      obtain ⟨records, hrecords, hrest⟩ := ih fun e he => hedges e (List.mem_cons_of_mem _ he)
      obtain ⟨record, hrecord, hfor⟩ := recordFor_entry hrefines hc
      have hp : ¬ HasArrow p := hrefines.data.arrow_free c p _ hc
      refine ⟨record :: records, ?_, ?_⟩
      · rw [logEntries, splitTransformKey_makeTransformKey hp]
        simp only [hrecord, hrecords, Option.map_some]
      · rw [List.map_cons, loggedChild_makeTransformKey hp]
        exact .cons hfor hrest

/-! ## One record for each frame with a parent -/

section Entries

variable {g : TFGraph Time} {m : TransformMap}
  {entries : List (Sigma fun _ : String => TransformData Time)}

/-- Every entry of `transforms_` belongs to an edge. -/
theorem KeepsData.edge_of_entry (h : KeepsData g.transforms m)
    (horder : entries.Perm g.transforms.entries)
    {e : Sigma fun _ : String => TransformData Time} (he : e ∈ entries) :
    ∃ p c, e.1 = makeTransformKey p c ∧ m.lookup c = some (p, e.2.transform) :=
  h.stored e.1 e.2 (AList.mem_lookup_iff.mpr (horder.mem_iff.mp he))

theorem KeepsData.loggedChild_eq (h : KeepsData g.transforms m) {key p c : String}
    {tf : TransformStamped} (hkey : key = makeTransformKey p c) (hc : m.lookup c = some (p, tf)) :
    loggedChild key = c := by
  rw [hkey, loggedChild_makeTransformKey (h.arrow_free c p tf hc)]

/-- Different entries are logged for different frames. -/
theorem KeepsData.nodup_loggedChild (h : KeepsData g.transforms m)
    (horder : entries.Perm g.transforms.entries) :
    (entries.map fun e => loggedChild e.1).Nodup := by
  have hkeys : (entries.map Sigma.fst).Nodup :=
    (horder.map Sigma.fst).nodup_iff.mpr g.transforms.keys_nodup
  have hmap : (entries.map fun e => loggedChild e.1) =
      (entries.map Sigma.fst).map loggedChild := by
    rw [List.map_map]
    rfl
  rw [hmap]
  refine List.Nodup.map_on ?_ hkeys
  intro key hmem key' hmem' heq
  obtain ⟨e, he, rfl⟩ := List.mem_map.mp hmem
  obtain ⟨e', he', rfl⟩ := List.mem_map.mp hmem'
  obtain ⟨p, c, hkey, hc⟩ := h.edge_of_entry horder he
  obtain ⟨p', c', hkey', hc'⟩ := h.edge_of_entry horder he'
  rw [h.loggedChild_eq hkey hc, h.loggedChild_eq hkey' hc'] at heq
  subst heq
  rw [hc, Option.some.injEq, Prod.mk.injEq] at hc'
  rw [hkey, hkey', hc'.1]

/-- The frames that are logged are those with data. -/
theorem KeepsData.mem_loggedChild_iff (h : KeepsData g.transforms m)
    (horder : entries.Perm g.transforms.entries) (c : String) :
    (c ∈ entries.map fun e => loggedChild e.1) ↔ ∃ p tf, m.lookup c = some (p, tf) := by
  rw [List.mem_map]
  constructor
  · rintro ⟨e, he, rfl⟩
    obtain ⟨p, c, hkey, hc⟩ := h.edge_of_entry horder he
    exact ⟨p, e.2.transform, by rw [h.loggedChild_eq hkey hc, hc]⟩
  · rintro ⟨p, tf, hc⟩
    obtain ⟨data, hdata, _⟩ := h.kept c p tf hc
    exact ⟨⟨makeTransformKey p c, data⟩, horder.mem_iff.mpr (AList.mem_lookup_iff.mp hdata),
      h.loggedChild_eq rfl hc⟩

/-- The frames that are logged are those with a parent. -/
theorem Refines.mem_loggedChild_iff (h : Refines g m)
    (horder : entries.Perm g.transforms.entries) (c : String) :
    (c ∈ entries.map fun e => loggedChild e.1) ↔ ∃ p, g.getParent c = some p := by
  simp only [h.parent_eq, TransformMap.parent_eq_some_iff]
  exact h.data.mem_loggedChild_iff horder c

end Entries

theorem logsEach_of_timed {tfs : List TransformStamped}
    (htimed : Run.Meets (add rosTime) (Timed rosTime) empty tfs)
    (harrow : ∀ tf ∈ tfs, ¬ HasArrow tf.header.frameId) : LogsEach rosTime tfs := by
  intro stream entries horder
  have hrefines := refines_added_of_timed htimed harrow
  obtain ⟨records, hrecords, hfor⟩ :=
    logEntries_spec hrefines entries fun e he => hrefines.data.edge_of_entry horder he
  exact ⟨records, _, hrecords, hrefines.data.nodup_loggedChild horder,
    hrefines.mem_loggedChild_iff horder, hfor⟩

/-! ## A stamp that is not accepted -/

/-- No more is logged than is stored. -/
theorem length_logEntries_le {g : TFGraph Time}
    {entries : List (Sigma fun _ : String => TransformData Time)}
    {records : List (Record Transform3D)} (h : g.logEntries entries = some records) :
    records.length ≤ entries.length := by
  induction entries generalizing records with
  | nil =>
      obtain rfl := Option.some.inj h
      exact Nat.le_refl 0
  | cons e entries ih =>
      rw [logEntries] at h
      split at h
      · exact (ih h).trans (Nat.le_succ _)
      · split at h
        · cases h
        · obtain ⟨rest, hrest, rfl⟩ := Option.map_eq_some_iff.mp h
          exact Nat.succ_le_succ (ih hrest)

/-- The relationship alone leaves nothing stored for the child. -/
theorem Refines.entries_relate {g : TFGraph Time} {m : TransformMap} (h : Refines g m)
    (p c : String) :
    (g.relate p c).transforms.entries.Sublist g.transforms.entries ∧
      c ∉ (g.relate p c).transforms.entries.map fun e => loggedChild e.1 := by
  rw [TFGraph.transforms_relate]
  cases hparent : g.getParent c with
  | none =>
      refine ⟨List.Sublist.refl _, ?_⟩
      rw [h.mem_loggedChild_iff (List.Perm.refl _), hparent]
      nofun
  | some oldParent =>
      have hsublist : (g.transforms.erase (makeTransformKey oldParent c)).entries.Sublist
          g.transforms.entries := List.kerase_sublist _ _
      refine ⟨hsublist, fun hmem => ?_⟩
      obtain ⟨e, he, hchild⟩ := List.mem_map.mp hmem
      obtain ⟨p', c', hkey, hc'⟩ := h.data.edge_of_entry (List.Perm.refl _) (hsublist.subset he)
      obtain rfl : c' = c := (h.data.loggedChild_eq hkey hc').symm.trans hchild
      rw [h.parent_eq, TransformMap.parent_eq_some_iff] at hparent
      obtain ⟨tf, hc⟩ := hparent
      obtain ⟨rfl, _⟩ := Prod.mk.inj (Option.some.inj (hc'.symm.trans hc))
      -- the only entry for the child is the one that was erased
      have hfound := AList.mem_lookup_iff.mpr he
      rw [hkey, Option.mem_def, AList.lookup_erase] at hfound
      cases hfound

/-- A message that passes the cycle check, and whose stamp is not accepted, leaves one more
frame with a parent than there are transforms to log. -/
theorem timed_of_logsEach {tfs : List TransformStamped} {tf : TransformStamped}
    (hrefines : Refines (added rosTime tfs) (addedMap rosTime tfs))
    (hafter : LogsEach rosTime (tfs ++ [tf])) : Timed rosTime (added rosTime tfs) tf := by
  intro hcyc
  by_contra hnot
  obtain ⟨hsublist, hchild⟩ := hrefines.entries_relate tf.header.frameId tf.childFrameId
  rcases addTransform_cases rosTime (added rosTime tfs) tf with
    ⟨hcyc', _⟩ | ⟨_, e, _, heq⟩ | ⟨_, time, htime, _⟩
  · rw [hcyc] at hcyc'
    cases hcyc'
  · obtain ⟨records, frames, hrecords, _, hframes, hfor⟩ := hafter ⟨0⟩ _ (List.Perm.refl _)
    rw [added_concat, TFGraph.add, heq] at hrecords hframes
    have hstored : records.length ≤ ((added rosTime tfs).relate tf.header.frameId
        tf.childFrameId).transforms.entries.length := length_logEntries_le hrecords
    have hnodup : (tf.childFrameId :: ((added rosTime tfs).relate tf.header.frameId
        tf.childFrameId).transforms.entries.map fun e => loggedChild e.1).Nodup :=
      List.nodup_cons.mpr ⟨hchild,
        (hrefines.data.nodup_loggedChild (List.Perm.refl _)).sublist (hsublist.map _)⟩
    have hsub : (tf.childFrameId :: ((added rosTime tfs).relate tf.header.frameId
        tf.childFrameId).transforms.entries.map fun e => loggedChild e.1) ⊆ frames := by
      intro c hc
      rw [hframes, getParent_relate]
      rcases List.mem_cons.mp hc with rfl | hold
      · exact ⟨_, attach_self _ _⟩
      · obtain ⟨p, hp⟩ := (hrefines.mem_loggedChild_iff (List.Perm.refl _) c).mp
          ((hsublist.map _).subset hold)
        exact ⟨p, up_attach_iff.mpr (Or.inr ⟨fun hsame => hchild (hsame ▸ hold), hp⟩)⟩
    have hmore := (List.subperm_of_subset hnodup hsub).length_le
    rw [List.length_cons, List.length_map, hfor.length_eq] at hmore
    omega
  · exact hnot (by rw [htime]; rfl)

/-- Along a list of additions, none with an arrow in its parent, a stream receives one record
for every frame that has a parent and no other, if and only if every addition that passes the
cycle check has an accepted stamp. -/
theorem logToRerun_records_iff (rosTime : Stamp → Except Exception Time)
    (tfs : List TransformStamped) (harrow : ∀ tf ∈ tfs, ¬ HasArrow tf.header.frameId) :
    (∀ before, before <+: tfs → LogsEach rosTime before) ↔
      Run.Meets (add rosTime) (Timed rosTime) empty tfs := by
  constructor
  · intro hlogs
    induction tfs using List.reverseRecOn with
    | nil => exact Run.meets_nil _
    | append_singleton tfs tf ih =>
        have hgrown : tfs <+: tfs ++ [tf] := List.prefix_append tfs [tf]
        have harrow' : ∀ tf' ∈ tfs, ¬ HasArrow tf'.header.frameId :=
          fun tf' hmem => harrow tf' (List.mem_append_left _ hmem)
        have hbefore := ih harrow' fun before hbefore => hlogs before (hbefore.trans hgrown)
        rw [Run.meets_concat]
        exact ⟨hbefore, timed_of_logsEach (refines_added_of_timed hbefore harrow')
          (hlogs _ (List.prefix_refl _))⟩
  · rintro htimed before ⟨rest, rfl⟩
    exact logsEach_of_timed ((Run.meets_append _ _ _).mp htimed).1
      fun tf hmem => harrow tf (List.mem_append_left _ hmem)

/-- A frame that was moved is logged under its new parent. -/
theorem logToRerun_records_iff_moved :
    LogsEach rosTimeNanoseconds
      [createTransform "base" "link1" 1 0 0, createTransform "link1" "link2" 0 1 0,
        createTransform "odom" "link1" 0 0 1] :=
  (logToRerun_records_iff rosTimeNanoseconds
    [createTransform "base" "link1" 1 0 0, createTransform "link1" "link2" 0 1 0,
      createTransform "odom" "link1" 0 0 1] (by decide)).mpr (by decide) _ (List.prefix_refl _)

/-- A message from before the epoch enters its edge and no data. -/
theorem not_logsEach_negative :
    ¬ HasArrow "base" ∧ ¬ LogsEach rosTimeNanoseconds
      [⟨⟨⟨-1, 0⟩, "base"⟩, "link1", ⟨⟨1, 2, 3⟩, ⟨0, 0, 0, 1⟩⟩⟩] := by
  refine ⟨by decide, fun h => ?_⟩
  obtain ⟨records, frames, hrecords, _, hframes, hfor⟩ := h ⟨0⟩ [] (by decide)
  obtain rfl : records = [] := (Option.some.inj hrecords).symm
  obtain rfl := List.forall₂_nil_right_iff.mp hfor
  exact absurd ((hframes "link1").mpr ⟨"base", by decide⟩) List.not_mem_nil

end RerunViz.TFGraph
