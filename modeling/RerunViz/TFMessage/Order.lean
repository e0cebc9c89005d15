import RerunViz.Converter.TFMessage
import RerunViz.TFGraph.Frames

set_option autoImplicit false

/-!
# The order of the transforms of a message

Transforms are entered one by one, and each is checked against what the ones before have
left.  When the edges of the graph and of the message together have no cycle, no check can
fire, and transforms with different children do not meet in the graph: every order enters
all of them and leads to the same edges, as long as no stamp makes the constructor of the
data throw (`topicCallback_order_iff`).
-/

namespace RerunViz.TFMessage

open TFGraph Forest Relation

variable {Time : Type} {rosTime : Stamp → Except Exception Time}

/-- One of the transforms is an edge from `p` to `c`. -/
def Names (tfs : List TransformStamped) (c p : String) : Prop :=
  ∃ tf ∈ tfs, tf.childFrameId = c ∧ tf.header.frameId = p

/-- No two transforms have the same child. -/
def DistinctChildren (tfs : List TransformStamped) : Prop :=
  (tfs.map TransformStamped.childFrameId).Nodup

instance (tfs : List TransformStamped) : Decidable (DistinctChildren tfs) :=
  inferInstanceAs (Decidable (List.Nodup _))

/-- The loop has entered every transform over the edges of the graph. -/
structure EntersAll (g : TFGraph Time) (tfs : List TransformStamped) (r : Processed Time) :
    Prop where
  warned : r.warned = []
  ended : r.ended = .ok ()
  mirror : Mirror r.graph
  parent_iff : ∀ c p, r.graph.getParent c = some p ↔
    Names tfs c p ∨ (c ∉ tfs.map TransformStamped.childFrameId ∧ g.getParent c = some p)
  key_iff : ∀ f, f ∈ r.graph.children ↔
    f ∈ g.children ∨ f ∈ tfs.map fun tf => tf.header.frameId

/-! ## One transform -/

/-- A transform that closes no cycle with the edges of the graph passes the check. -/
theorem wouldCreateCycle_eq_false {g : TFGraph Time} (hmirror : Mirror g)
    {tf : TransformStamped} {r : String → String → Prop} (hr : ∀ x, ¬ TransGen r x x)
    (hold : ∀ c p, g.getParent c = some p → r c p) (hnew : r tf.childFrameId tf.header.frameId) :
    g.wouldCreateCycle tf.header.frameId tf.childFrameId = false := by
  rw [Bool.eq_false_iff, Ne, hmirror.wouldCreateCycle_iff]
  intro hreach
  exact hr _ (TransGen.head' hnew (ReflTransGen.mono hold _ _ hreach))

theorem names_cons_iff {tf : TransformStamped} {rest : List TransformStamped} {c p : String} :
    Names (tf :: rest) c p ↔
      (tf.childFrameId = c ∧ tf.header.frameId = p) ∨ Names rest c p := by
  simp [Names]

/-- Entering the first transform, and then all others, enters all. -/
theorem EntersAll.cons {g : TFGraph Time} (hmirror : Mirror g) {tf : TransformStamped}
    {rest : List TransformStamped} {r : Processed Time}
    (hcyc : g.wouldCreateCycle tf.header.frameId tf.childFrameId = false)
    (hnot : tf.childFrameId ∉ rest.map TransformStamped.childFrameId)
    (h : EntersAll (g.add rosTime tf) rest r) : EntersAll g (tf :: rest) r where
  warned := h.warned
  ended := h.ended
  mirror := h.mirror
  parent_iff := by
    intro c p
    rw [h.parent_iff, getParent_add_eq_some_iff hcyc, names_cons_iff, List.map_cons,
      List.mem_cons, not_or]
    constructor
    · rintro (hnames | ⟨hc, ⟨rfl, rfl⟩ | ⟨hne, hup⟩⟩)
      · exact Or.inl (Or.inr hnames)
      · exact Or.inl (Or.inl ⟨rfl, rfl⟩)
      · exact Or.inr ⟨⟨hne, hc⟩, hup⟩
    · rintro ((⟨rfl, rfl⟩ | hnames) | ⟨⟨hne, hc⟩, hup⟩)
      · exact Or.inr ⟨hnot, Or.inl ⟨rfl, rfl⟩⟩
      · exact Or.inl hnames
      · exact Or.inr ⟨hc, Or.inr ⟨hne, hup⟩⟩
  key_iff := by
    intro f
    rw [h.key_iff, children_add hcyc, hmirror.mem_children_relate, List.map_cons,
      List.mem_cons, or_assoc]

/-! ## The loop -/

/-- Over a mirrored graph, with no cycle in the edges of both and all stamps accepted, the
loop enters every transform. -/
theorem entersAll_processTransforms {g : TFGraph Time} (hmirror : Mirror g)
    {tfs : List TransformStamped} (hchildren : DistinctChildren tfs)
    (hstamps : ∀ tf ∈ tfs, (rosTime tf.header.stamp).isOk = true)
    (hacyclic : ∀ x, ¬ TransGen (fun c p => g.getParent c = some p ∨ Names tfs c p) x x) :
    EntersAll g tfs (processTransforms rosTime g tfs) := by
  induction tfs generalizing g with
  | nil =>
      exact ⟨rfl, rfl, hmirror, by simp [processTransforms, Names], by simp [processTransforms]⟩
  | cons tf rest ih =>
      obtain ⟨hnot, hrest⟩ := List.nodup_cons.mp hchildren
      have hcyc : g.wouldCreateCycle tf.header.frameId tf.childFrameId = false :=
        wouldCreateCycle_eq_false hmirror hacyclic (fun _ _ hup => Or.inl hup)
          (Or.inr (names_cons_iff.mpr (Or.inl ⟨rfl, rfl⟩)))
      rw [processTransforms_enter hcyc (hstamps tf List.mem_cons_self)]
      refine EntersAll.cons hmirror hcyc hnot (ih (hmirror.addTransform tf) hrest
        (fun tf' hmem => hstamps tf' (List.mem_cons_of_mem tf hmem)) ?_)
      -- the edges of the new graph and of the rest are among those of before
      intro x hx
      refine hacyclic x (TransGen.mono ?_ x x hx)
      intro c p hcp
      rw [names_cons_iff]
      rcases hcp with hup | hnames
      · rcases (getParent_add_eq_some_iff hcyc).mp hup with ⟨rfl, rfl⟩ | ⟨_, hold⟩
        · exact Or.inr (Or.inl ⟨rfl, rfl⟩)
        · exact Or.inl hold
      · exact Or.inr (Or.inr hnames)

/-! ## Two orders -/

theorem names_perm {tfs tfs' : List TransformStamped} (hperm : tfs.Perm tfs') (c p : String) :
    Names tfs c p ↔ Names tfs' c p := by
  unfold Names
  simp only [hperm.mem_iff]

section TwoOrders

variable {g : TFGraph Time} {tfs tfs' : List TransformStamped} {r r' : Processed Time}

theorem EntersAll.getParent_eq (h : EntersAll g tfs r) (h' : EntersAll g tfs' r')
    (hperm : tfs.Perm tfs') (f : String) : r.graph.getParent f = r'.graph.getParent f := by
  apply Option.ext
  intro p
  rw [h.parent_iff, h'.parent_iff, names_perm hperm, (hperm.map _).mem_iff]

theorem EntersAll.mem_getChildren_iff (h : EntersAll g tfs r) (h' : EntersAll g tfs' r')
    (hperm : tfs.Perm tfs') (f c : String) :
    c ∈ r.graph.getChildren f ↔ c ∈ r'.graph.getChildren f := by
  rw [h.mirror.listed_iff, h'.mirror.listed_iff, h.getParent_eq h' hperm]

theorem EntersAll.getAllFrames_eq (h : EntersAll g tfs r) (h' : EntersAll g tfs' r')
    (hperm : tfs.Perm tfs') : r.graph.getAllFrames = r'.graph.getAllFrames := by
  ext f
  rw [mem_getAllFrames_iff, mem_getAllFrames_iff, h.key_iff, h'.key_iff,
    (hperm.map _).mem_iff]
  simp only [h.mem_getChildren_iff h' hperm]

end TwoOrders

/-- A loop that has warned about nothing and has not been ended by an exception has met accepted
stamps only. -/
theorem isOk_of_processTransforms {g : TFGraph Time} {tfs : List TransformStamped}
    (hwarned : (processTransforms rosTime g tfs).warned = [])
    (hended : (processTransforms rosTime g tfs).ended = .ok ()) :
    ∀ tf ∈ tfs, (rosTime tf.header.stamp).isOk = true := by
  induction tfs generalizing g with
  | nil => exact fun _ hmem => absurd hmem List.not_mem_nil
  | cons tf rest ih =>
      rcases processTransforms_cons rosTime g tf rest with
        ⟨_, heq⟩ | ⟨_, e, _, heq⟩ | ⟨_, hok, heq⟩
      · rw [heq] at hwarned
        cases hwarned
      · rw [heq] at hended
        cases hended
      · rw [heq] at hwarned hended
        exact List.forall_mem_cons.mpr ⟨hok, ih hwarned hended⟩

section AnyOrder

variable (rosTime : Stamp → Except Exception Time)
  (order : TFGraph Time → List (Sigma fun _ : String => TransformData Time))
  (stream : RecordingStream)

/-- In every order of the transforms the callback accepts all of them, which makes them the edges
of their children and leaves all other edges as they were; and any two orders lead to the
same parents, the same children and the same frames. -/
structure AnyOrder (g : TFGraph Time) (tfs : List TransformStamped) : Prop where
  accepts : ∀ l, l.Perm tfs →
    (topicCallback rosTime order (some stream) g ⟨l⟩).warned = [] ∧
      (topicCallback rosTime order (some stream) g ⟨l⟩).ended = .ok ()
  enters : ∀ l, l.Perm tfs → ∀ c p,
    (topicCallback rosTime order (some stream) g ⟨l⟩).graph.getParent c = some p ↔
      Names tfs c p ∨ (c ∉ tfs.map TransformStamped.childFrameId ∧ g.getParent c = some p)
  getParent_eq : ∀ l l', l.Perm tfs → l'.Perm tfs → ∀ f,
    (topicCallback rosTime order (some stream) g ⟨l⟩).graph.getParent f =
      (topicCallback rosTime order (some stream) g ⟨l'⟩).graph.getParent f
  mem_getChildren_iff : ∀ l l', l.Perm tfs → l'.Perm tfs → ∀ f c,
    c ∈ (topicCallback rosTime order (some stream) g ⟨l⟩).graph.getChildren f ↔
      c ∈ (topicCallback rosTime order (some stream) g ⟨l'⟩).graph.getChildren f
  getAllFrames_eq : ∀ l l', l.Perm tfs → l'.Perm tfs →
    (topicCallback rosTime order (some stream) g ⟨l⟩).graph.getAllFrames =
      (topicCallback rosTime order (some stream) g ⟨l'⟩).graph.getAllFrames

end AnyOrder

/-- When every order enters all transforms, the orders agree. -/
theorem anyOrder_of_entersAll
    {order : TFGraph Time → List (Sigma fun _ : String => TransformData Time)}
    {stream : RecordingStream} {g : TFGraph Time} {tfs : List TransformStamped}
    (h : ∀ l, l.Perm tfs → EntersAll g l (processTransforms rosTime g l)) :
    AnyOrder rosTime order stream g tfs := by
  constructor
  case accepts =>
    intro l hl
    rw [topicCallback_toProcessed]
    exact ⟨(h l hl).warned, (h l hl).ended⟩
  case enters =>
    intro l hl c p
    rw [topicCallback_toProcessed, (h l hl).parent_iff, names_perm hl, (hl.map _).mem_iff]
  case getParent_eq =>
    intro l l' hl hl' f
    rw [topicCallback_toProcessed, topicCallback_toProcessed]
    exact (h l hl).getParent_eq (h l' hl') (hl.trans hl'.symm) f
  case mem_getChildren_iff =>
    intro l l' hl hl' f c
    rw [topicCallback_toProcessed, topicCallback_toProcessed]
    exact (h l hl).mem_getChildren_iff (h l' hl') (hl.trans hl'.symm) f c
  case getAllFrames_eq =>
    intro l l' hl hl'
    rw [topicCallback_toProcessed, topicCallback_toProcessed]
    exact (h l hl).getAllFrames_eq (h l' hl') (hl.trans hl'.symm)

/-- On every graph that additions lead to, when the edges of the graph and of a message have no
cycle and the children of the message are distinct: every order of the transforms enters all
of them and leads to the same graph, if and only if all their stamps are accepted. -/
theorem topicCallback_order_iff (rosTime : Stamp → Except Exception Time)
    (order : TFGraph Time → List (Sigma fun _ : String => TransformData Time))
    (stream : RecordingStream) (tfs : List TransformStamped) (msg : Tf2Msgs.TFMessage)
    (hchildren : DistinctChildren msg.transforms)
    (hacyclic : ∀ x, ¬ TransGen (fun c p => (added rosTime tfs).getParent c = some p ∨
      Names msg.transforms c p) x x) :
    AnyOrder rosTime order stream (added rosTime tfs) msg.transforms ↔
      ∀ tf ∈ msg.transforms, (rosTime tf.header.stamp).isOk = true := by
  constructor
  · intro h
    obtain ⟨hwarned, hended⟩ := h.accepts msg.transforms (List.Perm.refl _)
    rw [topicCallback_toProcessed] at hwarned hended
    exact isOk_of_processTransforms hwarned hended
  · intro hstamps
    refine anyOrder_of_entersAll fun l hl => ?_
    refine entersAll_processTransforms (mirror_added rosTime tfs)
      ((hl.map _).nodup_iff.mpr hchildren) (fun tf hmem => hstamps tf (hl.mem_iff.mp hmem)) ?_
    simpa only [names_perm hl] using hacyclic

/-- A chain, and a move of its first link, have no cycle. -/
theorem acyclic_swapped (x : String) :
    ¬ TransGen (fun c p =>
      (added rosTimeNanoseconds [createTransform "base" "link1" 1 0 0]).getParent c = some p ∨
        Names [createTransform "link1" "link2" 0 1 0, createTransform "odom" "link1" 0 0 1] c p)
      x x := by
  refine not_transGen_self_of_lt
    (fun f => if f = "link2" then 0 else if f = "link1" then 1 else 2) ?_ x
  rintro c p (hup | ⟨tf, hmem, rfl, rfl⟩)
  · have hentry : (⟨c, p⟩ : Sigma fun _ : String => String) ∈ [⟨"link1", "base"⟩] :=
      AList.mem_lookup_iff.mp hup
    obtain ⟨rfl, rfl⟩ : c = "link1" ∧ p = "base" := by simpa using hentry
    decide
  · rcases List.mem_pair.mp hmem with rfl | rfl <;> decide

/-- A chain and a move of its first link, in every order. -/
theorem topicCallback_order_iff_swapped :
    AnyOrder rosTimeNanoseconds (fun g => g.transforms.entries) ⟨0⟩
      (added rosTimeNanoseconds [createTransform "base" "link1" 1 0 0])
      [createTransform "link1" "link2" 0 1 0, createTransform "odom" "link1" 0 0 1] :=
  (topicCallback_order_iff rosTimeNanoseconds (fun g => g.transforms.entries) ⟨0⟩
    [createTransform "base" "link1" 1 0 0]
    ⟨[createTransform "link1" "link2" 0 1 0, createTransform "odom" "link1" 0 0 1]⟩
    (by decide) acyclic_swapped).mpr (by decide)

/-- A transform with a stamp that is not accepted. -/
def negativeStamp : TransformStamped :=
  ⟨⟨⟨-1, 0⟩, "base"⟩, "link1", ⟨⟨1, 2, 3⟩, ⟨0, 0, 0, 1⟩⟩⟩

/-- A transform from before the epoch is not accepted, though it closes no cycle. -/
theorem not_anyOrder_negative :
    DistinctChildren [negativeStamp] ∧
      (∀ x, ¬ TransGen (fun c p => (added rosTimeNanoseconds []).getParent c = some p ∨
        Names [negativeStamp] c p) x x) ∧
      ¬ AnyOrder rosTimeNanoseconds (fun g => g.transforms.entries) ⟨0⟩
        (added rosTimeNanoseconds []) [negativeStamp] := by
  refine ⟨by decide, not_transGen_self_of_lt (fun f => if f = "link1" then 0 else 1) ?_, ?_⟩
  · rintro c p (hup | ⟨tf, hmem, rfl, rfl⟩)
    · cases hup
    · obtain rfl := List.mem_singleton.mp hmem
      decide
  · intro h
    have hended := (h.accepts _ (List.Perm.refl _)).2
    revert hended
    decide

end RerunViz.TFMessage
