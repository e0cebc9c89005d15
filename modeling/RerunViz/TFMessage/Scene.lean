import Mathlib.Algebra.FreeMonoid.Basic
import RerunViz.TFGraph.Poses
import RerunViz.TFMessage.Deliveries
import RerunViz.Utils.Namespace

set_option autoImplicit false

/-!
# What the recording shows

A viewer places an entity by all the transforms on the way to it, and takes the last one that
was logged for each entity.  Callbacks log frames by frames, in the order of a hash map, and
frames move.  After every callback that returns, the recording as a whole nevertheless shows
each frame where the graph has it: where the transforms of the frame and of its ancestors
take it (`recording_shows_frames`).

Of the viewer it is only used that a slash and a name without special characters lead to one
more part of a path (`Splits`), and what a transform means is any element of a monoid.
-/

namespace RerunViz.TFMessage

open TFGraph Forest

variable {Time M : Type} [Monoid M] {rosTime : Stamp → Except Exception Time}
  {order : TFGraph Time → List (Sigma fun _ : String => TransformData Time)}
  {stream : RecordingStream} {parts : String → List String} {names : Set String}
  {interpret : Transform3D → M}

/-- The parts of a path, as far as the names are concerned: a slash and a name are one part
more. -/
structure Splits (parts : String → List String) (names : Set String) : Prop where
  concat : ∀ path, ∀ name ∈ names, parts (path ++ "/" ++ name) = parts path ++ [name]
  arrow_free : ∀ name ∈ names, ¬ HasArrow name

/-- Both frames of every transform of the message are among the names. -/
def NamedIn (names : Set String) (msg : Tf2Msgs.TFMessage) : Prop :=
  ∀ tf ∈ msg.transforms, tf.childFrameId ∈ names ∧ tf.header.frameId ∈ names

theorem NamedIn.arrowFree {msg : Tf2Msgs.TFMessage} (h : NamedIn names msg)
    (hsplits : Splits parts names) : ArrowFree msg :=
  fun tf htf => hsplits.arrow_free _ (h tf htf).2

/-- What is logged for a transform keeps its translation and its rotation, in single precision,
and says that they lead from the child to the parent. -/
structure Keeps (tf : Transform) (logged : Transform3D) : Prop where
  translation : logged.translation = some ⟨staticCastFloat tf.translation.x,
    staticCastFloat tf.translation.y, staticCastFloat tf.translation.z⟩
  quaternion : logged.quaternion = some ⟨staticCastFloat tf.rotation.x,
    staticCastFloat tf.rotation.y, staticCastFloat tf.rotation.z, staticCastFloat tf.rotation.w⟩
  relation : logged.relation = some .parentFromChild

theorem keeps_loggedTransform (tf : Transform) : Keeps tf (loggedTransform tf) := ⟨rfl, rfl, rfl⟩

/-- All that the callbacks for a list of messages have logged. -/
def recording (rosTime : Stamp → Except Exception Time)
    (order : TFGraph Time → List (Sigma fun _ : String => TransformData Time))
    (stream : RecordingStream) (msgs : List Tf2Msgs.TFMessage) : List (Record Transform3D) :=
  Run.history (fun g msg => (topicCallback rosTime order (some stream) g msg).graph)
    (fun g msg => (topicCallback rosTime order (some stream) g msg).records.getD [])
    TFGraph.empty msgs

/-- What the viewer finds at an entity: the last transform that was logged there. -/
def placed (parts : String → List String) (interpret : Transform3D → M)
    (log : List (Record Transform3D)) (entity : List String) : M :=
  match Scene.latest (log.map fun record => (parts record.entityPath, record.archetype)) entity with
  | none => 1
  | some transform => interpret transform

/-! ## The names of the edges -/

/-- Both frames of every edge are among the names. -/
def Edges.Named (names : Set String) (t : Edges) : Prop :=
  ∀ c p, t.parent c = some p → c ∈ names ∧ p ∈ names

theorem named_attach {t : Edges} (h : t.Named names) {tf : TransformStamped}
    (htf : tf.childFrameId ∈ names ∧ tf.header.frameId ∈ names) (c p : String)
    (hup : attach t.parent tf.childFrameId tf.header.frameId c = some p) :
    c ∈ names ∧ p ∈ names := by
  rcases up_attach_iff.mp hup with ⟨rfl, rfl⟩ | ⟨_, hold⟩
  · exact htf
  · exact h c p hold

theorem Edges.Named.enter {t : Edges} (h : t.Named names) {tf : TransformStamped}
    (htf : tf.childFrameId ∈ names ∧ tf.header.frameId ∈ names) :
    (t.enter rosTime tf).2.Named names := by
  rcases t.enter_cases rosTime tf with heq | ⟨_, _, heq⟩ | ⟨_, heq⟩
  · rw [heq]
    exact h
  · rw [heq]
    exact named_attach h htf
  · rw [heq]
    exact named_attach h htf

theorem Edges.Named.work {t : Edges} (h : t.Named names) {tfs : List TransformStamped}
    (htfs : ∀ tf ∈ tfs, tf.childFrameId ∈ names ∧ tf.header.frameId ∈ names) :
    (t.work rosTime tfs).edges.Named names := by
  induction tfs generalizing t with
  | nil => exact h
  | cons tf rest ih =>
      have hfirst : (t.enter rosTime tf).2.Named names := h.enter (htfs tf List.mem_cons_self)
      have hrest := ih hfirst fun tf' hmem => htfs tf' (List.mem_cons_of_mem tf hmem)
      unfold Edges.work
      split
      · rename_i heq
        rw [heq] at hfirst
        exact hfirst
      · rename_i heq
        rw [heq] at hrest
        exact hrest
      · rename_i heq
        rw [heq] at hrest
        exact hrest

theorem named_tracked {msgs : List Tf2Msgs.TFMessage} (hnamed : ∀ msg ∈ msgs, NamedIn names msg) :
    (tracked rosTime msgs).Named names := by
  induction msgs using List.reverseRecOn with
  | nil => exact nofun
  | append_singleton msgs msg ih =>
      rw [tracked_concat]
      exact (ih fun msg' hmem => hnamed msg' (List.mem_append_left _ hmem)).work
        (hnamed msg (by simp))

/-! ## The parts of entity paths -/

section Paths

variable {t : Edges} {f path : String}

/-- The path of a frame ends in its name, at least one part below `TF`. -/
theorem parts_entityPath (hsplits : Splits parts names) (hnamed : t.Named names)
    (hf : f ∈ names) (hpath : EntityPath t.parent f path) :
    ∃ above, parts path = above ++ [f] ∧ (parts "TF").length ≤ above.length := by
  induction hpath with
  | root _ => exact ⟨parts "TF", hsplits.concat "TF" _ hf, Nat.le_refl _⟩
  | step hup _ ih =>
      obtain ⟨above, heq, hle⟩ := ih (hnamed _ _ hup).2
      refine ⟨_, hsplits.concat _ _ hf, ?_⟩
      rw [heq, List.length_append]
      exact Nat.le_add_right_of_le hle

/-- A frame that is logged lies below the entity of its parent. -/
theorem length_parts_logged (hsplits : Splits parts names) (hnamed : t.Named names) {p : String}
    (hup : t.parent f = some p) (hpath : EntityPath t.parent f path) :
    (parts "TF").length + 2 ≤ (parts path).length := by
  obtain ⟨hf, hp⟩ := hnamed f p hup
  cases hpath with
  | root hroot =>
      rw [hup] at hroot
      cases hroot
  | step hup' rest =>
      obtain rfl := Option.some.inj (hup.symm.trans hup')
      obtain ⟨above, heq, hle⟩ := parts_entityPath hsplits hnamed hp rest
      rw [hsplits.concat _ _ hf, heq, List.length_append, List.length_append,
        List.length_singleton, List.length_singleton]
      exact Nat.add_le_add_right (Nat.add_le_add_right hle 1) 1

end Paths

/-! ## The recording -/

theorem recording_concat (msgs : List Tf2Msgs.TFMessage) (msg : Tf2Msgs.TFMessage) :
    recording rosTime order stream (msgs ++ [msg]) =
      recording rosTime order stream msgs ++
        (topicCallback rosTime order (some stream) (delivered rosTime order stream msgs)
          msg).records.getD [] :=
  Run.history_concat _ _ _ _

section Recording

variable (hsplits : Splits parts names)
  (horder : ∀ g : TFGraph Time, (order g).Perm g.transforms.entries)
include hsplits horder

/-- What the callback for the last message adds to the recording. -/
theorem exists_records {msgs : List Tf2Msgs.TFMessage} {msg : Tf2Msgs.TFMessage}
    (hnamed : ∀ msg' ∈ msgs ++ [msg], NamedIn names msg') :
    ∃ records, recording rosTime order stream (msgs ++ [msg]) =
        recording rosTime order stream msgs ++ records ∧
      (((tracked rosTime msgs).work rosTime msg.transforms).ended = .ok () →
        LogsAll (tracked rosTime (msgs ++ [msg])) records) ∧
      ∀ e, ((tracked rosTime msgs).work rosTime msg.transforms).ended = .error e →
        records = [] := by
  have hshows : Shows (delivered rosTime order stream msgs) (tracked rosTime msgs) :=
    shows_delivered fun msg' hmem =>
      (hnamed msg' (List.mem_append_left _ hmem)).arrowFree hsplits
  obtain ⟨records, heq, hok, herror⟩ := @Shows.records _ rosTime _ stream _ _ hshows horder msg
    ((hnamed msg (by simp)).arrowFree hsplits)
  rw [tracked_concat]
  exact ⟨records, by rw [recording_concat, heq, Option.getD_some], hok, herror⟩

/-- Nothing is ever logged for a root or above. -/
theorem length_parts_recording {msgs : List Tf2Msgs.TFMessage}
    (hnamed : ∀ msg ∈ msgs, NamedIn names msg) {record : Record Transform3D}
    (hmem : record ∈ recording rosTime order stream msgs) :
    (parts "TF").length + 2 ≤ (parts record.entityPath).length := by
  induction msgs using List.reverseRecOn with
  | nil => cases hmem
  | append_singleton msgs msg ih =>
      obtain ⟨records, heq, hok, herror⟩ := @exists_records _ rosTime order stream _ _ hsplits
        horder msgs msg hnamed
      rw [heq] at hmem
      rcases List.mem_append.mp hmem with hold | hnew
      · exact ih (fun msg' hmem' => hnamed msg' (List.mem_append_left _ hmem')) hold
      · match hended : ((tracked rosTime msgs).work rosTime msg.transforms).ended with
        | .error e =>
            rw [herror e hended] at hnew
            cases hnew
        | .ok () =>
            obtain ⟨c, p, tf, path, hc, hpath, rfl⟩ := ((hok hended).mem_iff record).mp hnew
            exact length_parts_logged hsplits (named_tracked hnamed)
              ((tracked rosTime (msgs ++ [msg])).backed c p tf hc) hpath

end Recording

/-! ## What is placed where -/

section Placed

variable {t : Edges} {log records : List (Record Transform3D)}

/-- After a pass that has logged all transforms in force, each is the last one at the entity of
its child, whatever was logged before. -/
theorem placed_of_logsAll (hsplits : Splits parts names) (hnamed : t.Named names)
    (hlogs : LogsAll t records) {c p path : String} {tf : TransformStamped}
    (hc : t.transforms.lookup c = some (p, tf)) (hpath : EntityPath t.parent c path) :
    placed parts interpret (log ++ records) (parts path) =
      interpret (loggedTransform tf.transform) := by
  have hlatest : Scene.latest (records.map fun record =>
      (parts record.entityPath, record.archetype)) (parts path) =
        some (loggedTransform tf.transform) := by
    apply Scene.latest_eq_some
    · exact List.mem_map.mpr ⟨⟨path, loggedTransform tf.transform⟩,
        (hlogs.mem_iff _).mpr ⟨c, p, tf, path, hc, hpath, rfl⟩, rfl⟩
    · intro transform hmem
      obtain ⟨record, hrecord, heq⟩ := List.mem_map.mp hmem
      obtain ⟨c', p', tf', path', hc', hpath', rfl⟩ := (hlogs.mem_iff record).mp hrecord
      obtain ⟨hparts, rfl⟩ := Prod.mk.inj heq
      -- the last part of a path is the frame
      obtain ⟨above, habove, _⟩ :=
        parts_entityPath hsplits hnamed (hnamed c p (t.backed c p tf hc)).1 hpath
      obtain ⟨above', habove', _⟩ :=
        parts_entityPath hsplits hnamed (hnamed c' p' (t.backed c' p' tf' hc')).1 hpath'
      have hlast : above' ++ [c'] = above ++ [c] := by rw [← habove, ← habove', ← hparts]
      obtain rfl : c' = c := List.singleton_inj.mp (List.append_inj_right' hlast rfl)
      rw [hc] at hc'
      rw [(Prod.mk.inj (Option.some.inj hc')).2]
  rw [placed, List.map_append, Scene.latest_append, hlatest]
  rfl

/-- Nothing is placed at the entity of a root or above. -/
theorem placed_eq_one {above entity : List String} (hstart : entity <+: above)
    (habove : ∀ record ∈ log, above.length < (parts record.entityPath).length) :
    placed parts interpret log entity = 1 := by
  have hnone : Scene.latest (log.map fun record =>
      (parts record.entityPath, record.archetype)) entity = none := by
    rw [Scene.latest_eq_none_iff]
    intro transform hmem
    obtain ⟨record, hrecord, heq⟩ := List.mem_map.mp hmem
    have hlonger := habove record hrecord
    have hle := hstart.length_le
    rw [(Prod.mk.inj heq).1] at hlonger
    omega
  rw [placed, hnone]

/-- The pose of every frame, when all transforms in force have been logged last. -/
theorem pose_eq_framePose {g : TFGraph Time} (hsplits : Splits parts names)
    (hnamed : t.Named names) (hshows : Shows g t) (hlogs : LogsAll t records)
    (hbelow : ∀ record ∈ log ++ records,
      (parts "TF").length + 2 ≤ (parts record.entityPath).length)
    {f : String} {m : M} (hf : f ∈ names)
    (hpose : FramePose g (interpret ∘ loggedTransform) f m) {path : String}
    (hpath : EntityPath t.parent f path) :
    Scene.pose (placed parts interpret (log ++ records)) (parts path) = m := by
  induction hpose generalizing path with
  | @root f hroot =>
      rw [hshows.parent_eq] at hroot
      obtain rfl := hpath.unique (.root hroot)
      have hparts : parts ("TF/" ++ f) = parts "TF" ++ [f] := hsplits.concat "TF" f hf
      refine Scene.pose_eq_one fun entity hstart => placed_eq_one hstart fun record hmem => ?_
      have hlength := hbelow record hmem
      rw [hparts, List.length_append, List.length_singleton]
      omega
  | @step f p m data hup hdata _ ih =>
      rw [hshows.parent_eq] at hup
      obtain ⟨_, hp⟩ := hnamed f p hup
      cases hpath with
      | root hroot =>
          rw [hup] at hroot
          cases hroot
      | @step _ p' above hup' habove =>
          obtain rfl := Option.some.inj (hup.symm.trans hup')
          have hc : t.transforms.lookup f = some (p, data.transform) :=
            hshows.data.lookup_eq_some_iff (hshows.arrow_free f p hup) hdata
          have hplaced : placed parts interpret (log ++ records) (parts (above ++ "/" ++ f)) =
              interpret (loggedTransform data.transform.transform) :=
            placed_of_logsAll hsplits hnamed hlogs hc (.step hup habove)
          rw [hsplits.concat above f hf] at hplaced ⊢
          rw [Scene.pose_concat, ih hp habove, hplaced]
          rfl

end Placed

/-- In every sequence of messages over plain names: when the callback for the last one returns,
the recording of all of them shows every frame where the graph has it, at the entity path of
the frame, as far as the graph has data for the edges on the way.  Entities that frames have
left, and records of former passes, do not matter.  What stands for a transform in the
recording has its translation and its rotation. -/
theorem recording_shows_frames (rosTime : Stamp → Except Exception Time)
    (order : TFGraph Time → List (Sigma fun _ : String => TransformData Time))
    (horder : ∀ g : TFGraph Time, (order g).Perm g.transforms.entries)
    (stream : RecordingStream) (parts : String → List String) (names : Set String)
    (hsplits : Splits parts names) (interpret : Transform3D → M)
    (msgs : List Tf2Msgs.TFMessage) (msg : Tf2Msgs.TFMessage)
    (hnamed : ∀ msg' ∈ msgs ++ [msg], NamedIn names msg')
    (hreturns : (topicCallback rosTime order (some stream)
      (delivered rosTime order stream msgs) msg).ended = .ok ())
    (f : String) (hf : f ∈ names) (m : M)
    (hpose : FramePose (delivered rosTime order stream (msgs ++ [msg]))
      (interpret ∘ loggedTransform) f m) :
    (∃ path, EntityPath (delivered rosTime order stream (msgs ++ [msg])).getParent f path ∧
      Scene.pose (placed parts interpret (recording rosTime order stream (msgs ++ [msg])))
        (parts path) = m) ∧
      ∀ tf, Keeps tf (loggedTransform tf) := by
  have harrow : ∀ msg' ∈ msgs ++ [msg], ArrowFree msg' := fun msg' hmem =>
    (hnamed msg' hmem).arrowFree hsplits
  have hbefore : Shows (delivered rosTime order stream msgs) (tracked rosTime msgs) :=
    shows_delivered fun msg' hmem => harrow msg' (List.mem_append_left _ hmem)
  have hshows : Shows (delivered rosTime order stream (msgs ++ [msg]))
      (tracked rosTime (msgs ++ [msg])) := shows_delivered harrow
  rw [(hbefore.topicCallback (harrow msg (by simp))).ended] at hreturns
  obtain ⟨records, heq, hok, _⟩ := @exists_records _ rosTime order stream _ _ hsplits horder
    msgs msg hnamed
  have hbelow : ∀ record ∈ recording rosTime order stream (msgs ++ [msg]),
      (parts "TF").length + 2 ≤ (parts record.entityPath).length := fun record hmem =>
    length_parts_recording hsplits horder hnamed hmem
  obtain ⟨l, _, hroot⟩ := hshows.exists_rootPath f
  have hpath := entityPath_of_rootPath hroot
  rw [heq] at hbelow ⊢
  rw [hshows.parent_eq]
  exact ⟨⟨_, hpath, pose_eq_framePose hsplits (named_tracked hnamed) hshows (hok hreturns) hbelow
    hf hpose hpath⟩, keeps_loggedTransform⟩

/-! ## Plain names -/

/-- Names without slash and arrow. -/
def plainNames : Set String := {name | '/' ∉ name.toList ∧ ¬ HasArrow name}

theorem splits_slashParts : Splits slashParts plainNames where
  concat := fun path _ hname => slashParts_concat path hname.1
  arrow_free := fun _ hname => hname.2

/-- `base` hangs from `odom`, and has been logged there. -/
def mounted : Tf2Msgs.TFMessage :=
  ⟨[createTransform "odom" "base" 1 0 0, createTransform "base" "laser" 0 1 0]⟩

/-- `base` moves to `map`. -/
def remounted : Tf2Msgs.TFMessage := ⟨[createTransform "map" "base" 0 0 1]⟩

/-- The graph after both. -/
def remountedGraph : TFGraph Int :=
  delivered rosTimeNanoseconds (fun g => g.transforms.entries) ⟨0⟩ ([mounted] ++ [remounted])

theorem framePose_remounted :
    FramePose remountedGraph (FreeMonoid.of ∘ loggedTransform) "laser"
      (1 * FreeMonoid.of (loggedTransform (createTransform "map" "base" 0 0 1).transform) *
        FreeMonoid.of (loggedTransform (createTransform "base" "laser" 0 1 0).transform)) := by
  have hlaser : remountedGraph.getTransform "base" "laser" =
      some ⟨createTransform "base" "laser" 0 1 0, 123000456789⟩ := by decide
  have hbase : remountedGraph.getTransform "map" "base" =
      some ⟨createTransform "map" "base" 0 0 1, 123000456789⟩ := by decide
  have hup : remountedGraph.getParent "base" = some "map" := by decide
  have hup' : remountedGraph.getParent "laser" = some "base" := by decide
  have hroot : FramePose remountedGraph (FreeMonoid.of ∘ loggedTransform) "map" 1 :=
    .root (by decide)
  have hpose := (hroot.step hup hbase).step hup' hlaser
  exact hpose

/-- After the move the laser is shown below `map`. -/
theorem recording_shows_frames_remounted :
    ∃ path, EntityPath remountedGraph.getParent "laser" path ∧
      Scene.pose (placed slashParts FreeMonoid.of (recording rosTimeNanoseconds
        (fun g => g.transforms.entries) ⟨0⟩ ([mounted] ++ [remounted]))) (slashParts path) =
        1 * FreeMonoid.of (loggedTransform (createTransform "map" "base" 0 0 1).transform) *
          FreeMonoid.of (loggedTransform (createTransform "base" "laser" 0 1 0).transform) := by
  have hnamed : ∀ msg ∈ [mounted] ++ [remounted], NamedIn plainNames msg := by
    unfold NamedIn plainNames
    decide
  exact (recording_shows_frames rosTimeNanoseconds (fun g => g.transforms.entries)
    (fun _ => List.Perm.refl _) ⟨0⟩ slashParts plainNames splits_slashParts FreeMonoid.of
    [mounted] remounted hnamed (by decide) "laser"
    (by
      unfold plainNames
      decide) _
    framePose_remounted).1

end RerunViz.TFMessage
