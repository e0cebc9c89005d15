import RerunViz.TFGraph.Reached

set_option autoImplicit false

/-!
# The two adjacency maps as mirror images

As long as every removal names the child's parent, or a child without one,
`children_` and `parents_` are mirror images (`Mirror`).  On such graphs the cycle
check decides exactly whether the overridden parent relation has a cycle
(`addTransform_false_iff_cycle`).  A removal that names another parent breaks the
mirror: it erases the child from `parents_` and leaves it in the list of its real
parent (`removeTransform_exact_iff`).
-/

namespace RerunViz.TFGraph

open Forest Relation

variable {Time : Type} {rosTime : Stamp → Except Exception Time}

/-- `children_` lists exactly the edges of `parents_`, each once. -/
structure Mirror (g : TFGraph Time) : Prop where
  listed_iff : ∀ c p, c ∈ g.getChildren p ↔ g.getParent c = some p
  nodup : ∀ p, (g.getChildren p).Nodup

theorem mirror_empty : Mirror (empty : TFGraph Time) where
  listed_iff := by simp
  nodup := by simp

theorem Mirror.listed_eq {g : TFGraph Time} (h : Mirror g) : g.Listed = Up g.getParent := by
  funext c p
  exact propext (h.listed_iff c p)

/-- In a mirrored graph the cycle check fires exactly when the child is the parent or an
ancestor of it. -/
theorem Mirror.wouldCreateCycle_iff {g : TFGraph Time} (h : Mirror g) {parent child : String} :
    g.wouldCreateCycle parent child = true ↔ ReflTransGen (Up g.getParent) parent child := by
  rw [wouldCreateCycle_eq_true_iff, h.listed_eq]

theorem Mirror.of_maps_eq {g g' : TFGraph Time} (h : Mirror g)
    (hparents : g'.parents = g.parents) (hchildren : g'.children = g.children) :
    Mirror g' where
  listed_iff := by
    rw [getParent_eq_of_parents_eq hparents, getChildren_eq_of_children_eq hchildren]
    exact h.listed_iff
  nodup := by
    rw [getChildren_eq_of_children_eq hchildren]
    exact h.nodup

/-- Taking the child out of a list changes only the list of its parent. -/
theorem Mirror.filter_getChildren {g : TFGraph Time} (h : Mirror g) {child x : String}
    (hx : g.getParent child ≠ some x) :
    (g.getChildren x).filter (· ≠ child) = g.getChildren x := by
  apply List.filter_eq_self.mpr
  intro c hc
  have hne : c ≠ child := by
    rintro rfl
    exact hx ((h.listed_iff c x).mp hc)
  simpa using hne

/-- In a mirrored graph the child moves from whichever list it was in to the end of
the list of its new parent. -/
theorem Mirror.getChildren_relate {g : TFGraph Time} (h : Mirror g)
    (parent child x : String) :
    (g.relate parent child).getChildren x =
      (g.getChildren x).filter (· ≠ child) ++ (if x = parent then [child] else []) := by
  have hfilter : (if g.getParent child = some x then (g.getChildren x).filter (· ≠ child)
      else g.getChildren x) = (g.getChildren x).filter (· ≠ child) := by
    split
    · rfl
    · rename_i hx
      exact (h.filter_getChildren hx).symm
  rw [relate, getChildren_addRelationship, getChildren_removeExistingParent, hfilter]
  split <;> simp

theorem Mirror.relate {g : TFGraph Time} (h : Mirror g) (parent child : String) :
    Mirror (g.relate parent child) where
  listed_iff := by
    intro c p
    have hattach : (attach g.getParent child parent) c = some p ↔ _ := up_attach_iff
    rw [getParent_relate, hattach, mem_getChildren_relate, h.listed_iff]
    constructor
    · rintro (⟨hcp, hne⟩ | ⟨rfl, rfl⟩)
      · refine Or.inr ⟨?_, hcp⟩
        rintro rfl
        exact hne hcp rfl
      · exact Or.inl ⟨rfl, rfl⟩
    · rintro (⟨rfl, rfl⟩ | ⟨hne, hcp⟩)
      · exact Or.inr ⟨rfl, rfl⟩
      · exact Or.inl ⟨hcp, fun _ => hne⟩
  nodup := by
    intro p
    rw [h.getChildren_relate]
    refine List.Nodup.append ((h.nodup p).filter _) ?_ ?_
    · split <;> simp
    · intro c hc hnew
      have hne : c ≠ child := by simpa using (List.mem_filter.mp hc).2
      split at hnew
      · exact hne (List.mem_singleton.mp hnew)
      · simp at hnew

theorem Mirror.addTransform {g : TFGraph Time} (h : Mirror g) (tf : TransformStamped) :
    Mirror (g.addTransform rosTime tf).2 := by
  rcases addTransform_structure rosTime g tf with ⟨_, heq⟩ | ⟨_, hparents, hchildren⟩
  · rw [heq]
    exact h
  · exact (h.relate tf.header.frameId tf.childFrameId).of_maps_eq hparents hchildren

/-- A removal keeps the mirror when it does not name a wrong parent. -/
theorem Mirror.removeTransform {g : TFGraph Time} (h : Mirror g) {parent child : String}
    (hmatch : g.getParent child = some parent ∨ g.getParent child = none) :
    Mirror (g.removeTransform parent child) where
  listed_iff := by
    intro c p
    rw [getParent_removeTransform, getChildren_removeTransform]
    by_cases hc : c = child
    · subst hc
      by_cases hp : p = parent
      · simp [hp]
      · have hnot : c ∉ g.getChildren p := by
          rw [h.listed_iff]
          rcases hmatch with hsome | hnone
          · rw [hsome, Option.some.injEq]
            exact fun heq => hp heq.symm
          · simp [hnone]
        simp [hp, hnot]
    · rw [if_neg hc, ← h.listed_iff]
      by_cases hp : p = parent
      · rw [if_pos hp, List.mem_filter]
        simp [hc]
      · rw [if_neg hp]
  nodup := by
    intro p
    rw [getChildren_removeTransform]
    split
    · exact (h.nodup p).filter _
    · exact h.nodup p

/-! ## Sequences whose removals name the child's parent -/

/-- A removal is made for the parent the child has. -/
def Call.Matched (g : TFGraph Time) : Call → Prop
  | .addTransform _ => True
  | .removeTransform parent child => g.getParent child = some parent

instance (g : TFGraph Time) (call : Call) : Decidable (call.Matched g) := by
  cases call <;> unfold Call.Matched <;> infer_instance

theorem mirror_reached {rosTime : Stamp → Except Exception Time} {calls : List Call}
    (h : Run.Meets (exec rosTime) (fun g call => call.Matched g) empty calls) :
    Mirror (reached rosTime calls) := by
  refine Run.run_invariant ?_ mirror_empty h
  intro g call hg hok
  cases call with
  | addTransform tf => exact hg.addTransform tf
  | removeTransform parent child => exact hg.removeTransform (Or.inl hok)

/-- After every sequence of additions and matching removals, `addTransform` returns
`false` exactly when overriding the child's parent closes a cycle, which is when the
child occurs on the path from the parent to its root. -/
theorem addTransform_false_iff_cycle (rosTime : Stamp → Except Exception Time)
    (calls : List Call)
    (h : Run.Meets (exec rosTime) (fun g call => call.Matched g) empty calls)
    (tf : TransformStamped) :
    (((reached rosTime calls).addTransform rosTime tf).1 = .ok false ↔
        ¬ Acyclic (attach (reached rosTime calls).getParent tf.childFrameId
          tf.header.frameId)) ∧
      (((reached rosTime calls).addTransform rosTime tf).1 = .ok false ↔
        ∃ path, (reached rosTime calls).getPathToRoot tf.header.frameId = some path ∧
          tf.childFrameId ∈ path) := by
  have hac := (sound_reached rosTime calls).acyclic_getParent
  have hfalse : ((reached rosTime calls).addTransform rosTime tf).1 = .ok false ↔
      ReflTransGen (Up (reached rosTime calls).getParent) tf.header.frameId
        tf.childFrameId := by
    rw [addTransform_eq_false_iff, (mirror_reached h).wouldCreateCycle_iff]
  refine ⟨by rw [hfalse, not_acyclic_attach_iff hac], ?_⟩
  rw [hfalse]
  obtain ⟨path, hpath, hroot⟩ := exists_getPathToRoot hac tf.header.frameId
  constructor
  · intro hreach
    exact ⟨path, hpath, hroot.mem_iff.mpr hreach⟩
  · rintro ⟨path', hpath', hmem⟩
    exact (getPathToRoot_eq_some_iff.mp hpath').mem_iff.mp hmem

/-- The chain `base -> link1 -> link2`, with its second edge removed and entered again,
cannot be closed. -/
theorem addTransform_false_iff_cycle_chain :
    ¬ Acyclic (attach (reached rosTimeNanoseconds
      [.addTransform (createTransform "base" "link1" 1 0 0),
        .addTransform (createTransform "link1" "link2" 0 1 0),
        .removeTransform "link1" "link2",
        .addTransform (createTransform "link1" "link2" 0 0 1)]).getParent "base" "link2") :=
  (addTransform_false_iff_cycle rosTimeNanoseconds _ (by decide)
    (createTransform "link2" "base" 0 0 0)).1.mp (by decide)

end RerunViz.TFGraph
