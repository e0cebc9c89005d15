import RerunViz.TFMessage.Order

set_option autoImplicit false

/-!
# Delivering a message twice

A transform that the first delivery enters is entered again by the second without effect.
One that the first rejects may pass the second time, because the edge that was in its way
has been replaced later in the same message.  So the second delivery changes nothing
exactly when everything the first has rejected would still be rejected
(`redelivery_iff`).
-/

namespace RerunViz.TFMessage

open TFGraph Forest Relation

variable {Time : Type} {rosTime : Stamp → Except Exception Time}

/-- A graph whose adjacency maps are mirror images, and whose parents form a forest. -/
structure MirroredForest (g : TFGraph Time) : Prop where
  mirror : Mirror g
  acyclic : Acyclic g.getParent

theorem mirroredForest_added (rosTime : Stamp → Except Exception Time)
    (tfs : List TransformStamped) : MirroredForest (added rosTime tfs) :=
  ⟨mirror_added rosTime tfs, acyclic_added rosTime tfs⟩

theorem MirroredForest.add {g : TFGraph Time} (h : MirroredForest g) (tf : TransformStamped) :
    MirroredForest (g.add rosTime tf) where
  mirror := h.mirror.addTransform tf
  acyclic := by
    cases hcyc : g.wouldCreateCycle tf.header.frameId tf.childFrameId with
    | true =>
        rw [add_of_cycle hcyc]
        exact h.acyclic
    | false =>
        rw [getParent_add hcyc]
        refine acyclic_attach h.acyclic ?_
        rw [← h.mirror.wouldCreateCycle_iff, hcyc]
        exact Bool.false_ne_true

/-- The cycle check of a mirrored graph depends on the parents only. -/
theorem wouldCreateCycle_congr {g g' : TFGraph Time} (h : Mirror g) (h' : Mirror g')
    (heq : g.getParent = g'.getParent) (parent child : String) :
    g.wouldCreateCycle parent child = g'.wouldCreateCycle parent child := by
  rw [Bool.eq_iff_iff, h.wouldCreateCycle_iff, h'.wouldCreateCycle_iff, heq]

/-- An edge that the graph has passes the check. -/
theorem MirroredForest.passes_same {g : TFGraph Time} (h : MirroredForest g) {c p : String}
    (hup : g.getParent c = some p) : g.wouldCreateCycle p c = false := by
  rw [Bool.eq_false_iff, Ne, h.mirror.wouldCreateCycle_iff]
  intro hreach
  exact h.acyclic _ (TransGen.head' hup hreach)

/-- Entering an edge again changes no parent. -/
theorem MirroredForest.getParent_add_same {g : TFGraph Time} (h : MirroredForest g)
    {tf : TransformStamped} (hup : g.getParent tf.childFrameId = some tf.header.frameId) :
    (g.add rosTime tf).getParent = g.getParent := by
  rw [getParent_add (h.passes_same hup), attach, ← hup, Function.update_eq_self]

/-! ## One pass of the loop -/

theorem mirroredForest_processTransforms {g : TFGraph Time} (h : MirroredForest g)
    (tfs : List TransformStamped) :
    MirroredForest (processTransforms rosTime g tfs).graph := by
  induction tfs generalizing g with
  | nil => exact h
  | cons tf rest ih =>
      rcases processTransforms_cons rosTime g tf rest with
        ⟨_, heq⟩ | ⟨_, e, _, heq⟩ | ⟨_, _, heq⟩
      · rw [heq]
        exact ih h
      · rw [heq]
        exact h.add tf
      · rw [heq]
        exact ih (h.add tf)

/-- A frame that is no child of the message keeps its parent. -/
theorem getParent_processTransforms_of_notMem {g : TFGraph Time} {tfs : List TransformStamped}
    {c : String} (hc : c ∉ tfs.map TransformStamped.childFrameId) :
    (processTransforms rosTime g tfs).graph.getParent c = g.getParent c := by
  induction tfs generalizing g with
  | nil => rfl
  | cons tf rest ih =>
      rw [List.map_cons, List.mem_cons, not_or] at hc
      rcases processTransforms_cons rosTime g tf rest with
        ⟨_, heq⟩ | ⟨hcyc, e, _, heq⟩ | ⟨hcyc, _, heq⟩
      · rw [heq]
        exact ih hc.2
      · rw [heq, getParent_add hcyc, attach_apply, if_neg hc.1]
      · rw [heq, ih hc.2, getParent_add hcyc, attach_apply, if_neg hc.1]

/-- The edge of a transform that passes the check is there at the end of the loop. -/
theorem getParent_processTransforms_cons {g : TFGraph Time} {tf : TransformStamped}
    {rest : List TransformStamped}
    (hcyc : g.wouldCreateCycle tf.header.frameId tf.childFrameId = false)
    (hnot : tf.childFrameId ∉ rest.map TransformStamped.childFrameId) :
    (processTransforms rosTime g (tf :: rest)).graph.getParent tf.childFrameId =
      some tf.header.frameId := by
  rcases processTransforms_cons rosTime g tf rest with
    ⟨htrue, _⟩ | ⟨_, e, _, heq⟩ | ⟨_, _, heq⟩
  · rw [hcyc] at htrue
    cases htrue
  · rw [heq, getParent_add hcyc, attach_self]
  · rw [heq, getParent_processTransforms_of_notMem hnot, getParent_add hcyc, attach_self]

/-- The edge of a transform that was rejected is not there at the end of the loop. -/
theorem getParent_of_warned {g : TFGraph Time} (h : MirroredForest g)
    {tfs : List TransformStamped} (hchildren : DistinctChildren tfs) :
    ∀ tf ∈ (processTransforms rosTime g tfs).warned,
      (processTransforms rosTime g tfs).graph.getParent tf.childFrameId ≠
        some tf.header.frameId := by
  induction tfs generalizing g with
  | nil => simp [processTransforms]
  | cons first rest ih =>
      obtain ⟨hnot, hrest⟩ := List.nodup_cons.mp hchildren
      rcases processTransforms_cons rosTime g first rest with
        ⟨hcyc, heq⟩ | ⟨_, e, _, heq⟩ | ⟨_, _, heq⟩
      · rw [heq]
        intro tf hmem
        rcases List.mem_cons.mp hmem with rfl | hlater
        · intro hup
          have hold : g.getParent tf.childFrameId = some tf.header.frameId :=
            (getParent_processTransforms_of_notMem hnot).symm.trans hup
          rw [h.passes_same hold] at hcyc
          cases hcyc
        · exact ih h hrest tf hlater
      · rw [heq]
        simp
      · rw [heq]
        exact ih (h.add first) hrest

/-! ## The second pass -/

/-- `h` has the edges that a pass over `g` has entered, one by one. -/
def Agrees (rosTime : Stamp → Except Exception Time) (g h : TFGraph Time)
    (tfs : List TransformStamped) : Prop :=
  ∀ tf ∈ tfs, h.getParent tf.childFrameId =
    (processTransforms rosTime g tfs).graph.getParent tf.childFrameId

/-- When everything the first pass has rejected is rejected by `h`, a pass over `h` changes
no parent. -/
theorem getParent_second_pass {g h : TFGraph Time} (hh : MirroredForest h)
    {tfs : List TransformStamped} (hchildren : DistinctChildren tfs)
    (hagrees : Agrees rosTime g h tfs)
    (hwarned : ∀ tf ∈ (processTransforms rosTime g tfs).warned,
      h.wouldCreateCycle tf.header.frameId tf.childFrameId = true) :
    (processTransforms rosTime h tfs).graph.getParent = h.getParent := by
  induction tfs generalizing g h with
  | nil => rfl
  | cons tf rest ih =>
      obtain ⟨hnot, hrest⟩ := List.nodup_cons.mp hchildren
      have hfirst := hagrees tf List.mem_cons_self
      have hlater : ∀ tf' ∈ rest, h.getParent tf'.childFrameId =
          (processTransforms rosTime g (tf :: rest)).graph.getParent tf'.childFrameId :=
        fun tf' hmem => hagrees tf' (List.mem_cons_of_mem tf hmem)
      rcases processTransforms_cons rosTime g tf rest with
        ⟨_, heq⟩ | ⟨hcyc, e, htime, heq⟩ | ⟨hcyc, hok, heq⟩
      · -- rejected by both
        rw [heq] at hwarned hlater
        rw [processTransforms_reject (hwarned tf List.mem_cons_self)]
        exact ih hh hrest hlater fun tf' hmem => hwarned tf' (List.mem_cons_of_mem tf hmem)
      · -- entered by both, and the stamp ends both passes
        rw [getParent_processTransforms_cons hcyc hnot] at hfirst
        rw [processTransforms_throw (hh.passes_same hfirst) htime, hh.getParent_add_same hfirst]
      · -- entered by both
        rw [getParent_processTransforms_cons hcyc hnot] at hfirst
        have hsame : (h.add rosTime tf).getParent = h.getParent := hh.getParent_add_same hfirst
        rw [heq] at hwarned hlater
        have hagrees' : Agrees rosTime (g.add rosTime tf) (h.add rosTime tf) rest := by
          intro tf' hmem
          rw [hsame]
          exact hlater tf' hmem
        rw [processTransforms_enter (hh.passes_same hfirst) hok,
          ih (hh.add tf) hrest hagrees' ?_, hsame]
        intro tf' hmem
        rw [wouldCreateCycle_congr (hh.add tf).mirror hh.mirror hsame]
        exact hwarned tf' hmem

/-- When a pass over `h` changes no parent, and `h` lacks the edges that the first pass has
rejected, it rejects them all. -/
theorem rejects_of_second_pass {g h : TFGraph Time} (hh : MirroredForest h)
    {tfs : List TransformStamped} (hchildren : DistinctChildren tfs)
    (hagrees : Agrees rosTime g h tfs)
    (hlacks : ∀ tf ∈ (processTransforms rosTime g tfs).warned,
      h.getParent tf.childFrameId ≠ some tf.header.frameId)
    (hsame : (processTransforms rosTime h tfs).graph.getParent = h.getParent) :
    ∀ tf ∈ (processTransforms rosTime g tfs).warned,
      h.wouldCreateCycle tf.header.frameId tf.childFrameId = true := by
  induction tfs generalizing g h with
  | nil => simp [processTransforms]
  | cons first rest ih =>
      obtain ⟨hnot, hrest⟩ := List.nodup_cons.mp hchildren
      have hfirst := hagrees first List.mem_cons_self
      have hlater : ∀ tf ∈ rest, h.getParent tf.childFrameId =
          (processTransforms rosTime g (first :: rest)).graph.getParent tf.childFrameId :=
        fun tf hmem => hagrees tf (List.mem_cons_of_mem first hmem)
      rcases processTransforms_cons rosTime g first rest with
        ⟨_, heq⟩ | ⟨_, e, _, heq⟩ | ⟨hcyc, hok, heq⟩
      · rw [heq] at hlacks hlater ⊢
        cases hcyc : h.wouldCreateCycle first.header.frameId first.childFrameId with
        | false =>
            have hentered : (processTransforms rosTime h (first :: rest)).graph.getParent
                first.childFrameId = some first.header.frameId :=
              getParent_processTransforms_cons hcyc hnot
            rw [hsame] at hentered
            exact absurd hentered (hlacks first List.mem_cons_self)
        | true =>
            rw [processTransforms_reject hcyc] at hsame
            have hall := ih hh hrest hlater
              (fun tf hmem => hlacks tf (List.mem_cons_of_mem first hmem)) hsame
            intro tf hmem
            rcases List.mem_cons.mp hmem with rfl | hmem
            · exact hcyc
            · exact hall tf hmem
      · rw [heq]
        simp
      · rw [getParent_processTransforms_cons hcyc hnot] at hfirst
        have hkept : (h.add rosTime first).getParent = h.getParent :=
          hh.getParent_add_same hfirst
        rw [heq] at hlacks hlater ⊢
        rw [processTransforms_enter (hh.passes_same hfirst) hok, ← hkept] at hsame
        rw [← hkept] at hlacks hlater
        intro tf hmem
        rw [← wouldCreateCycle_congr (hh.add first).mirror hh.mirror hkept]
        exact ih (hh.add first) hrest hlater hlacks hsame tf hmem

/-! ## Two deliveries -/

/-- On every graph that additions lead to: delivering a message with distinct children a
second time leaves every parent and every set of children as they are if and only if every
transform that the first delivery has rejected closes a cycle in the graph it leaves. -/
theorem redelivery_iff (rosTime : Stamp → Except Exception Time)
    (order : TFGraph Time → List (Sigma fun _ : String => TransformData Time))
    (stream : RecordingStream) (tfs : List TransformStamped) (msg : Tf2Msgs.TFMessage)
    (hchildren : DistinctChildren msg.transforms) :
    ((∀ f, (topicCallback rosTime order (some stream)
        (topicCallback rosTime order (some stream) (added rosTime tfs) msg).graph
          msg).graph.getParent f =
        (topicCallback rosTime order (some stream) (added rosTime tfs) msg).graph.getParent f) ∧
      ∀ f c, c ∈ (topicCallback rosTime order (some stream)
        (topicCallback rosTime order (some stream) (added rosTime tfs) msg).graph
          msg).graph.getChildren f ↔
        c ∈ (topicCallback rosTime order (some stream) (added rosTime tfs)
          msg).graph.getChildren f) ↔
      ∀ tf ∈ (topicCallback rosTime order (some stream) (added rosTime tfs) msg).warned,
        (topicCallback rosTime order (some stream) (added rosTime tfs)
          msg).graph.wouldCreateCycle tf.header.frameId tf.childFrameId = true := by
  simp only [topicCallback_toProcessed]
  have hg := mirroredForest_added rosTime tfs
  have honce : MirroredForest
      (processTransforms rosTime (added rosTime tfs) msg.transforms).graph :=
    mirroredForest_processTransforms hg msg.transforms
  have htwice : MirroredForest (processTransforms rosTime
      (processTransforms rosTime (added rosTime tfs) msg.transforms).graph
      msg.transforms).graph := mirroredForest_processTransforms honce msg.transforms
  have hagrees : Agrees rosTime (added rosTime tfs)
      (processTransforms rosTime (added rosTime tfs) msg.transforms).graph msg.transforms :=
    fun _ _ => rfl
  constructor
  · rintro ⟨hparents, _⟩
    exact rejects_of_second_pass honce hchildren hagrees (getParent_of_warned hg hchildren)
      (funext hparents)
  · intro hwarned
    have hsame := getParent_second_pass honce hchildren hagrees hwarned
    refine ⟨fun f => congrFun hsame f, fun f c => ?_⟩
    rw [htwice.mirror.listed_iff, honce.mirror.listed_iff, hsame]

/-- A message whose second transform closes a cycle, in the graph at the end as well:
redelivering it changes nothing. -/
theorem redelivery_iff_subtree :
    (topicCallback rosTimeNanoseconds (fun g => g.transforms.entries) (some ⟨0⟩)
      (topicCallback rosTimeNanoseconds (fun g => g.transforms.entries) (some ⟨0⟩)
        (added rosTimeNanoseconds [createTransform "base" "link1" 1 0 0])
        ⟨[createTransform "link1" "link2" 0 1 0, createTransform "link2" "base" 0 0 1]⟩).graph
      ⟨[createTransform "link1" "link2" 0 1 0,
        createTransform "link2" "base" 0 0 1]⟩).graph.getParent "base" =
    (topicCallback rosTimeNanoseconds (fun g => g.transforms.entries) (some ⟨0⟩)
      (added rosTimeNanoseconds [createTransform "base" "link1" 1 0 0])
      ⟨[createTransform "link1" "link2" 0 1 0,
        createTransform "link2" "base" 0 0 1]⟩).graph.getParent "base" :=
  ((redelivery_iff rosTimeNanoseconds (fun g => g.transforms.entries) ⟨0⟩
    [createTransform "base" "link1" 1 0 0]
    ⟨[createTransform "link1" "link2" 0 1 0, createTransform "link2" "base" 0 0 1]⟩
    (by decide)).mpr (by decide)).1 "base"

/-- Over `a -> b -> c`, a message that puts `a` under `c` and moves `b` to `x` has its first
transform rejected by the first delivery and entered by the second. -/
theorem redelivery_changes_parent :
    (topicCallback rosTimeNanoseconds (fun g => g.transforms.entries) (some ⟨0⟩)
      (topicCallback rosTimeNanoseconds (fun g => g.transforms.entries) (some ⟨0⟩)
        (added rosTimeNanoseconds [createTransform "a" "b" 1 0 0, createTransform "b" "c" 0 1 0])
        ⟨[createTransform "c" "a" 0 0 1, createTransform "x" "b" 1 1 0]⟩).graph
      ⟨[createTransform "c" "a" 0 0 1, createTransform "x" "b" 1 1 0]⟩).graph.getParent "a" ≠
    (topicCallback rosTimeNanoseconds (fun g => g.transforms.entries) (some ⟨0⟩)
      (added rosTimeNanoseconds [createTransform "a" "b" 1 0 0, createTransform "b" "c" 0 1 0])
      ⟨[createTransform "c" "a" 0 0 1, createTransform "x" "b" 1 1 0]⟩).graph.getParent "a" := by
  decide

end RerunViz.TFMessage
