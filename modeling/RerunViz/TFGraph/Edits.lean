import RerunViz.TFGraph.Basic

set_option autoImplicit false

/-!
# What each edit does to each map

One lemma for each edit and each observer.  Later modules reason about
`getParent`, `getChildren` and the lookups in `transforms` only, and never unfold
an edit again.
-/

namespace RerunViz.TFGraph

open Forest

variable {Time : Type} {rosTime : Stamp → Except Exception Time}

theorem getChildren_eq_getD (g : TFGraph Time) (frame : String) :
    g.getChildren frame = (g.children.lookup frame).getD [] := by
  unfold getChildren
  cases g.children.lookup frame <;> rfl

@[simp] theorem getParent_empty (frame : String) :
    (empty : TFGraph Time).getParent frame = none := rfl

@[simp] theorem getChildren_empty (frame : String) :
    (empty : TFGraph Time).getChildren frame = [] := rfl

/-- The frames with a parent are the keys of `parents_`. -/
theorem mem_parents_keys_iff {g : TFGraph Time} {c : String} :
    c ∈ g.parents.keys ↔ ∃ p, g.getParent c = some p := by
  rw [← AList.mem_keys, ← AList.lookup_isSome, Option.isSome_iff_exists]
  rfl

/-! ## `removeExistingParent` and `addRelationship` -/

@[simp] theorem getParent_removeExistingParent (g : TFGraph Time) (child x : String) :
    (g.removeExistingParent child).getParent x = g.getParent x := by
  unfold removeExistingParent
  split <;> rfl

theorem getChildren_removeExistingParent (g : TFGraph Time) (child x : String) :
    (g.removeExistingParent child).getChildren x =
      if g.getParent child = some x then (g.getChildren x).filter (· ≠ child)
      else g.getChildren x := by
  unfold removeExistingParent getParent
  split
  · rename_i hnone
    simp [hnone]
  · rename_i oldParent hsome
    by_cases hx : x = oldParent
    · subst hx
      rw [if_pos hsome]
      simp [getChildren_eq_getD]
    · have hne : g.parents.lookup child ≠ some x := by
        rw [hsome]
        exact fun heq => hx (Option.some.inj heq).symm
      rw [if_neg hne]
      simp [getChildren_eq_getD, AList.lookup_insert_ne hx]

theorem transforms_removeExistingParent (g : TFGraph Time) (child : String) :
    (g.removeExistingParent child).transforms =
      match g.getParent child with
      | none => g.transforms
      | some oldParent => g.transforms.erase (makeTransformKey oldParent child) := by
  unfold removeExistingParent getParent
  split <;> simp_all

theorem getParent_addRelationship (g : TFGraph Time) (parent child : String) :
    (g.addRelationship parent child).getParent = attach g.getParent child parent := by
  funext x
  rw [attach_apply]
  exact Assoc.lookup_insert g.parents x child parent

theorem getChildren_addRelationship (g : TFGraph Time) (parent child x : String) :
    (g.addRelationship parent child).getChildren x =
      if x = parent then g.getChildren x ++ [child] else g.getChildren x := by
  rw [getChildren_eq_getD, getChildren_eq_getD, addRelationship, Assoc.lookup_insert]
  split
  · rename_i hx
    rw [hx, Option.getD_some]
  · rfl

@[simp] theorem transforms_addRelationship (g : TFGraph Time) (parent child : String) :
    (g.addRelationship parent child).transforms = g.transforms := rfl

/-! ## The relationship entered by an accepted `addTransform` -/

/-- Both edits of the structure, in the order in which `addTransform` makes them. -/
def relate (g : TFGraph Time) (parent child : String) : TFGraph Time :=
  (g.removeExistingParent child).addRelationship parent child

theorem getParent_relate (g : TFGraph Time) (parent child : String) :
    (g.relate parent child).getParent = attach g.getParent child parent := by
  rw [relate, getParent_addRelationship]
  congr 1
  funext x
  exact getParent_removeExistingParent g child x

/-- The child is listed under its new parent, and no longer under the one that
`parents_` gave for it. -/
theorem mem_getChildren_relate {g : TFGraph Time} {parent child x c : String} :
    c ∈ (g.relate parent child).getChildren x ↔
      (c ∈ g.getChildren x ∧ (g.getParent child = some x → c ≠ child)) ∨
        (x = parent ∧ c = child) := by
  rw [relate, getChildren_addRelationship, getChildren_removeExistingParent]
  split <;> split <;> simp_all

theorem transforms_relate (g : TFGraph Time) (parent child : String) :
    (g.relate parent child).transforms =
      match g.getParent child with
      | none => g.transforms
      | some oldParent => g.transforms.erase (makeTransformKey oldParent child) := by
  rw [relate, transforms_addRelationship, transforms_removeExistingParent]

/-! ## `addTransform` -/

/-- Everything a call of `addTransform` can do: reject and leave the graph alone,
throw with the relationship entered, or accept. -/
theorem addTransform_cases (rosTime : Stamp → Except Exception Time) (g : TFGraph Time)
    (tf : TransformStamped) :
    (g.wouldCreateCycle tf.header.frameId tf.childFrameId = true ∧
        g.addTransform rosTime tf = (.ok false, g)) ∨
      (g.wouldCreateCycle tf.header.frameId tf.childFrameId = false ∧
        ∃ e, rosTime tf.header.stamp = .error e ∧
          g.addTransform rosTime tf =
            (.error e, g.relate tf.header.frameId tf.childFrameId)) ∨
      (g.wouldCreateCycle tf.header.frameId tf.childFrameId = false ∧
        ∃ time, rosTime tf.header.stamp = .ok time ∧
          g.addTransform rosTime tf =
            (.ok true,
              { g.relate tf.header.frameId tf.childFrameId with
                transforms :=
                  (g.relate tf.header.frameId tf.childFrameId).transforms.insert
                    (makeTransformKey tf.header.frameId tf.childFrameId) ⟨tf, time⟩ })) := by
  cases hcyc : g.wouldCreateCycle tf.header.frameId tf.childFrameId with
  | true => exact Or.inl ⟨rfl, by simp [addTransform, hcyc]⟩
  | false =>
      cases htime : rosTime tf.header.stamp with
      | error e =>
          refine Or.inr (Or.inl ⟨rfl, e, rfl, ?_⟩)
          simp [addTransform, hcyc, TransformData.ofStamped, htime, relate]
      | ok time =>
          refine Or.inr (Or.inr ⟨rfl, time, rfl, ?_⟩)
          simp [addTransform, hcyc, TransformData.ofStamped, htime, relate]

/-- The structure after a call: unchanged when the cycle check fires, and otherwise
that of `relate`, whether or not the call throws. -/
theorem addTransform_structure (rosTime : Stamp → Except Exception Time) (g : TFGraph Time)
    (tf : TransformStamped) :
    (g.wouldCreateCycle tf.header.frameId tf.childFrameId = true ∧
        (g.addTransform rosTime tf).2 = g) ∨
      (g.wouldCreateCycle tf.header.frameId tf.childFrameId = false ∧
        (g.addTransform rosTime tf).2.parents =
          (g.relate tf.header.frameId tf.childFrameId).parents ∧
        (g.addTransform rosTime tf).2.children =
          (g.relate tf.header.frameId tf.childFrameId).children) := by
  rcases addTransform_cases rosTime g tf with ⟨hcyc, h⟩ | ⟨hcyc, _, _, h⟩ | ⟨hcyc, _, _, h⟩
  · exact Or.inl ⟨hcyc, by rw [h]⟩
  · exact Or.inr ⟨hcyc, by rw [h], by rw [h]⟩
  · exact Or.inr ⟨hcyc, by rw [h], by rw [h]⟩

/-- The call returns `false` exactly when the cycle check fires. -/
theorem addTransform_eq_false_iff {g : TFGraph Time} {tf : TransformStamped} :
    (g.addTransform rosTime tf).1 = .ok false ↔
      g.wouldCreateCycle tf.header.frameId tf.childFrameId = true := by
  rcases addTransform_cases rosTime g tf with ⟨hcyc, h⟩ | ⟨hcyc, _, _, h⟩ | ⟨hcyc, _, _, h⟩ <;>
    simp [h, hcyc]

/-! ## `removeTransform` -/

theorem getParent_removeTransform (g : TFGraph Time) (parent child x : String) :
    (g.removeTransform parent child).getParent x =
      if x = child then none else g.getParent x :=
  Assoc.lookup_erase g.parents x child

/-- The child leaves the list of the named parent, whichever parent it has. -/
theorem lookup_removeFromChildren (g : TFGraph Time) (parent child x : String) :
    ((g.removeFromChildren parent child).lookup x).getD [] =
      if x = parent then (g.getChildren x).filter (· ≠ child) else g.getChildren x := by
  rw [getChildren_eq_getD]
  cases hlookup : g.children.lookup parent with
  | none =>
      have hsame : g.removeFromChildren parent child = g.children := by
        simp only [removeFromChildren, hlookup]
      rw [hsame]
      by_cases hx : x = parent
      · rw [if_pos hx, hx, hlookup]; rfl
      · rw [if_neg hx]
  | some parentChildren =>
      cases hempty : (parentChildren.filter (· ≠ child)).isEmpty with
      | true =>
          have herase : g.removeFromChildren parent child = g.children.erase parent := by
            simp only [removeFromChildren, hlookup, hempty, if_true]
          rw [herase, Assoc.lookup_erase]
          split
          · rename_i hx
            rw [hx, hlookup, Option.getD_some, List.isEmpty_iff.mp hempty, Option.getD_none]
          · rfl
      | false =>
          have hinsert : g.removeFromChildren parent child =
              g.children.insert parent (parentChildren.filter (· ≠ child)) := by
            simp only [removeFromChildren, hlookup, hempty, Bool.false_eq_true, if_false]
          rw [hinsert, Assoc.lookup_insert]
          split
          · rename_i hx
            rw [hx, hlookup, Option.getD_some, Option.getD_some]
          · rfl

theorem getChildren_removeTransform (g : TFGraph Time) (parent child x : String) :
    (g.removeTransform parent child).getChildren x =
      if x = parent then (g.getChildren x).filter (· ≠ child) else g.getChildren x := by
  rw [getChildren_eq_getD, removeTransform, lookup_removeFromChildren]

@[simp] theorem transforms_removeTransform (g : TFGraph Time) (parent child : String) :
    (g.removeTransform parent child).transforms =
      g.transforms.erase (makeTransformKey parent child) := rfl

end RerunViz.TFGraph
