import RerunViz.TFGraph.Refinement

set_option autoImplicit false

/-!
# The graph as a transform tree

`observers_eq_abstractMap` lets the code say which messages are accepted.  A
`TransformTree` decides for itself: it carries the proof that its parents form a forest,
and accepts a message exactly when the overridden map still has one.  The graph and the
tree return the same and stay in step (`reached_refines_tree`).
-/

namespace RerunViz.TFGraph

open Forest Relation

variable {Time : Type} {rosTime : Stamp → Except Exception Time}

namespace TransformMap

/-- A frame that has a parent after an erasure had it before. -/
theorem parent_of_parent_erase {m : TransformMap} {x c p : String}
    (h : TransformMap.parent (m.erase x) c = some p) : m.parent c = some p := by
  rw [parent_erase] at h
  split at h
  · cases h
  · exact h

end TransformMap

/-- An abstract map whose parents form a forest. -/
structure TransformTree where
  edges : TransformMap
  acyclic : Acyclic edges.parent

namespace TransformTree

/-- The tree without edges. -/
def empty : TransformTree where
  edges := ∅
  acyclic := acyclic_empty

/-- The edges with the entry of the message's child overridden. -/
def override (t : TransformTree) (tf : TransformStamped) : TransformMap :=
  t.edges.insert tf.childFrameId (tf.header.frameId, tf)

open Classical in
/-- Override the child's entry if that closes no cycle. -/
noncomputable def add (t : TransformTree) (tf : TransformStamped) : Bool × TransformTree :=
  if h : Acyclic (t.override tf).parent then
    (true, ⟨t.override tf, h⟩)
  else (false, t)

/-- Lose the child's entry. -/
def remove (t : TransformTree) (child : String) : TransformTree where
  edges := t.edges.erase child
  acyclic := Acyclic.of_subrelation t.acyclic
    (fun _ _ => TransformMap.parent_of_parent_erase)

/-- What a call returns on a tree, and the tree it leaves behind. -/
noncomputable def exec (t : TransformTree) : Call → Bool × TransformTree
  | .addTransform tf => t.add tf
  | .removeTransform _ child => (true, t.remove child)

end TransformTree

/-- A graph in step with a tree and a call that returns: both return the same, and the
tree moves as the abstract map does under the outcome of the code. -/
theorem Refines.exec_tree {g : TFGraph Time} {t : TransformTree} (h : Refines g t.edges)
    {call : Call} (hreturns : call.Returns rosTime g) :
    outcome rosTime g call = .ok (t.exec call).1 ∧
      (t.exec call).2.edges = t.edges.step call (outcome rosTime g call) := by
  cases call with
  | removeTransform parent child => exact ⟨rfl, rfl⟩
  | addTransform tf =>
      have hparent : g.getParent = t.edges.parent := funext h.parent_eq
      have hcyc : g.wouldCreateCycle tf.header.frameId tf.childFrameId = true ↔
          ¬ Acyclic (t.override tf).parent := by
        rw [TransformTree.override, wouldCreateCycle_eq_true_iff, h.mirror.listed_eq, hparent,
          TransformMap.parent_insert, not_acyclic_attach_iff t.acyclic]
      rw [Call.Returns, outcome] at hreturns
      rw [outcome, TransformTree.exec, TransformTree.add]
      rcases addTransform_cases rosTime g tf with
        ⟨htrue, heq⟩ | ⟨_, e, _, heq⟩ | ⟨hfalse, time, _, heq⟩
      · rw [heq, dif_neg (hcyc.mp htrue)]
        exact ⟨rfl, rfl⟩
      · rw [heq] at hreturns
        cases hreturns
      · have hac : Acyclic
            (t.override tf).parent := by
          by_contra hnot
          rw [hcyc.mpr hnot] at hfalse
          cases hfalse
        rw [heq, dif_pos hac]
        exact ⟨rfl, rfl⟩

/-- The tree after a sequence of calls. -/
noncomputable def reachedTree (calls : List Call) : TransformTree :=
  Run.run (fun t call => (t.exec call).2) TransformTree.empty calls

theorem reachedTree_concat (calls : List Call) (call : Call) :
    reachedTree (calls ++ [call]) = ((reachedTree calls).exec call).2 := by
  rw [reachedTree, Run.run_append, Run.run_singleton]
  rfl

/-- Along every sequence of additions and matching removals in which no parent holds an
arrow and every call returns, the graph shows the tree, and the next call that returns
has the same result on both. -/
theorem reached_refines_tree (rosTime : Stamp → Except Exception Time) (calls : List Call)
    (hregular : Run.Meets (TFGraph.exec rosTime) (fun g call => call.Regular rosTime g)
      TFGraph.empty calls)
    (harrow : ∀ call ∈ calls, ¬ HasArrow call.parent) :
    Refines (reached rosTime calls) (reachedTree calls).edges ∧
      ∀ call : Call, call.Returns rosTime (reached rosTime calls) →
        outcome rosTime (reached rosTime calls) call = .ok ((reachedTree calls).exec call).1 := by
  have hrefines : Refines (reached rosTime calls) (reachedTree calls).edges := by
    induction calls using List.reverseRecOn with
    | nil => exact refines_empty
    | append_singleton calls call ih =>
        rw [Run.meets_concat] at hregular
        have hprev := ih hregular.1 (fun c hc => harrow c (List.mem_append_left _ hc))
        have hstep := hprev.exec hregular.2 (fun _ => harrow call (by simp))
        rw [reached_concat, reachedTree_concat, (hprev.exec_tree hregular.2.2).2]
        exact hstep
  exact ⟨hrefines, fun call hreturns => (hrefines.exec_tree hreturns).1⟩

/-- After an edge has been removed, both accept the opposite one. -/
theorem reached_refines_tree_reversed :
    outcome rosTimeNanoseconds
        (reached rosTimeNanoseconds
          [.addTransform (createTransform "odom" "base" 1 0 0), .removeTransform "odom" "base"])
        (.addTransform (createTransform "base" "odom" 0 0 1)) =
      .ok ((reachedTree
        [.addTransform (createTransform "odom" "base" 1 0 0), .removeTransform "odom" "base"]).exec
          (.addTransform (createTransform "base" "odom" 0 0 1))).1 :=
  (reached_refines_tree rosTimeNanoseconds _ (by decide) (by decide)).2 _ (by decide)

end RerunViz.TFGraph
