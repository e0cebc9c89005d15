import RerunViz.TFGraph.SameView
import RerunViz.TFMessage.Deliveries
import RerunViz.TFMessage.Order

set_option autoImplicit false

/-!
# A graph from its own data

The transforms that a graph has stored are a message of their own.  An object that gets this
message first, in whatever order the hash map gives it, enters all of them, and has the same
graph, without the frames that the old one has kept from edges long gone (`restore`).
-/

namespace RerunViz.TFMessage

open TFGraph Forest Relation

variable {Time : Type} {rosTime : Stamp → Except Exception Time}

/-! ## What was stored -/

/-- An abstract map holds messages under their own frames, with stamps that are accepted. -/
structure OwnEntries (rosTime : Stamp → Except Exception Time) (m : TransformMap) : Prop where
  child : ∀ c p tf, m.lookup c = some (p, tf) → tf.childFrameId = c
  parent : ∀ c p tf, m.lookup c = some (p, tf) → tf.header.frameId = p
  stamp : ∀ c p tf, m.lookup c = some (p, tf) → (rosTime tf.header.stamp).isOk = true

theorem OwnEntries.erase {m : TransformMap} (h : OwnEntries rosTime m) (child : String) :
    OwnEntries rosTime (m.erase child) where
  child := fun c p tf hc => h.child c p tf (TransformMap.lookup_erase_eq_some_iff.mp hc).2
  parent := fun c p tf hc => h.parent c p tf (TransformMap.lookup_erase_eq_some_iff.mp hc).2
  stamp := fun c p tf hc => h.stamp c p tf (TransformMap.lookup_erase_eq_some_iff.mp hc).2

theorem OwnEntries.insert {m : TransformMap} (h : OwnEntries rosTime m) {tf : TransformStamped}
    (hstamp : (rosTime tf.header.stamp).isOk = true) :
    OwnEntries rosTime (m.insert tf.childFrameId (tf.header.frameId, tf)) := by
  constructor
  all_goals
    intro c p tf' hc
    rcases TransformMap.lookup_insert_eq_some_iff.mp hc with ⟨rfl, heq⟩ | ⟨_, hold⟩
  · rw [← (Prod.mk.inj heq).2]
  · exact h.child c p tf' hold
  · rw [← (Prod.mk.inj heq).2, (Prod.mk.inj heq).1]
  · exact h.parent c p tf' hold
  · rw [← (Prod.mk.inj heq).2]
    exact hstamp
  · exact h.stamp c p tf' hold

section Stored

variable {g : TFGraph Time} {m : TransformMap}
  {entries : List (Sigma fun _ : String => TransformData Time)}

end Stored

/-! ## Entering what was stored -/

end RerunViz.TFMessage
