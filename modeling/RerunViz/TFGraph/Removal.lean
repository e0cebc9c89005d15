import RerunViz.TFGraph.Key
import RerunViz.TFGraph.Mirror

set_option autoImplicit false

/-!
# What `removeTransform` takes out

`removeTransform` edits the three maps under three different conditions: it searches
the child in the list of the named parent, erases the child from `parents_`
whichever parent was named, and erases the key made of both names.
`RemovesExactly` is the effect the interface describes; `RemovesCleanly` is the
condition, on the graph before the call, under which the code has that effect.
-/

namespace RerunViz.TFGraph

variable {Time : Type} {rosTime : Stamp → Except Exception Time}

/-- The call removes the edge from `parent` to `child` and nothing else if there is
one, removes nothing otherwise, and leaves the two adjacency maps in agreement. -/
structure RemovesExactly (g : TFGraph Time) (parent child : String) : Prop where
  edge_parent : g.getParent child = some parent → ∀ c,
    (g.removeTransform parent child).getParent c = if c = child then none else g.getParent c
  edge_children : g.getParent child = some parent → ∀ p,
    (g.removeTransform parent child).getChildren p =
      if p = parent then (g.getChildren p).filter (· ≠ child) else g.getChildren p
  edge_data : g.getParent child = some parent → ∀ p c,
    (g.removeTransform parent child).getTransform p c =
      if p = parent ∧ c = child then none else g.getTransform p c
  other_parent : g.getParent child ≠ some parent → ∀ c,
    (g.removeTransform parent child).getParent c = g.getParent c
  other_children : g.getParent child ≠ some parent → ∀ p,
    (g.removeTransform parent child).getChildren p = g.getChildren p
  other_data : g.getParent child ≠ some parent → ∀ p c,
    (g.removeTransform parent child).getTransform p c = g.getTransform p c
  mirror : ∀ x y, (g.removeTransform parent child).getParent y = some x ↔
    y ∈ (g.removeTransform parent child).getChildren x

/-- Either `parent` is the child's parent and no other pair of frames finds data under
the key of the call, or the child has no parent and nothing is stored under the key. -/
def RemovesCleanly (g : TFGraph Time) (parent child : String) : Prop :=
  (g.getParent child = some parent ∧
    ∀ p c, (p, c) ≠ (parent, child) →
      makeTransformKey p c = makeTransformKey parent child → g.getTransform p c = none) ∨
  (g.getParent child = none ∧ g.getTransform parent child = none)

/-- The call is not a removal, or one that removes cleanly. -/
def Call.Clean (g : TFGraph Time) : Call → Prop
  | .addTransform _ => True
  | .removeTransform parent child => RemovesCleanly g parent child

theorem getTransform_removeTransform (g : TFGraph Time) (parent child p c : String) :
    (g.removeTransform parent child).getTransform p c =
      if makeTransformKey p c = makeTransformKey parent child then none
      else g.getTransform p c := by
  rw [getTransform, transforms_removeTransform, Assoc.lookup_erase]
  rfl

/-- Removing an edge takes out its data and nothing else exactly when no other pair
of frames finds data under its key. -/
theorem edge_data_iff {g : TFGraph Time} {parent child : String} :
    (∀ p c, (g.removeTransform parent child).getTransform p c =
        if p = parent ∧ c = child then none else g.getTransform p c) ↔
      ∀ p c, (p, c) ≠ (parent, child) →
        makeTransformKey p c = makeTransformKey parent child → g.getTransform p c = none := by
  simp only [getTransform_removeTransform]
  constructor
  · intro h p c hne hkey
    have hpc := h p c
    rw [if_pos hkey, if_neg (by simpa using hne)] at hpc
    exact hpc.symm
  · intro h p c
    by_cases heq : p = parent ∧ c = child
    · rw [if_pos heq, heq.1, heq.2, if_pos rfl]
    · rw [if_neg heq]
      split
      · rename_i hkey
        exact (h p c (by simpa using heq) hkey).symm
      · rfl

/-- A removal leaves all data alone exactly when nothing is stored under its key. -/
theorem other_data_iff {g : TFGraph Time} {parent child : String} :
    (∀ p c, (g.removeTransform parent child).getTransform p c = g.getTransform p c) ↔
      g.getTransform parent child = none := by
  simp only [getTransform_removeTransform]
  constructor
  · intro h
    have hpc := h parent child
    rw [if_pos rfl] at hpc
    exact hpc.symm
  · intro h p c
    split
    · rename_i hkey
      rw [getTransform, hkey]
      exact h.symm
    · rfl

/-- In a mirrored graph the clean removals are exactly the exact ones. -/
theorem Mirror.removesExactly_iff {g : TFGraph Time} (hmirror : Mirror g)
    {parent child : String} :
    RemovesExactly g parent child ↔ RemovesCleanly g parent child := by
  constructor
  · intro h
    by_cases hedge : g.getParent child = some parent
    · exact Or.inl ⟨hedge, edge_data_iff.mp (h.edge_data hedge)⟩
    · have hnone := h.other_parent hedge child
      rw [getParent_removeTransform, if_pos rfl] at hnone
      exact Or.inr ⟨hnone.symm, other_data_iff.mp (h.other_data hedge)⟩
  · intro h
    have hmatch : g.getParent child = some parent ∨ g.getParent child = none :=
      h.imp And.left And.left
    have hmirror' := hmirror.removeTransform hmatch
    refine ⟨fun _ => getParent_removeTransform g parent child,
      fun _ => getChildren_removeTransform g parent child, ?_, ?_, ?_, ?_,
      fun x y => (hmirror'.listed_iff y x).symm⟩
    · intro hedge
      rcases h with ⟨_, hdata⟩ | ⟨hnone, _⟩
      · exact edge_data_iff.mpr hdata
      · rw [hnone] at hedge
        cases hedge
    · intro hedge c
      have hnone : g.getParent child = none := hmatch.resolve_left hedge
      rw [getParent_removeTransform]
      split
      · rename_i hc
        rw [hc, hnone]
      · rfl
    · intro hedge p
      have hnone : g.getParent child = none := hmatch.resolve_left hedge
      rw [getChildren_removeTransform, hmirror.filter_getChildren (by simp [hnone])]
      split <;> rfl
    · intro hedge
      rcases h with ⟨hsome, _⟩ | ⟨_, hdata⟩
      · exact absurd hsome hedge
      · exact other_data_iff.mpr hdata

theorem mirror_reached_of_clean {calls : List Call}
    (h : Run.Meets (exec rosTime) (fun g call => call.Clean g) empty calls) :
    Mirror (reached rosTime calls) := by
  refine Run.run_invariant ?_ mirror_empty h
  intro g call hg hok
  cases call with
  | addTransform tf => exact hg.addTransform tf
  | removeTransform parent child => exact hg.removeTransform (hok.imp And.left And.left)

/-- In every run whose removals are all clean, a removal made next has exactly the
described effect if and only if it is clean as well. -/
theorem removeTransform_exact_iff (rosTime : Stamp → Except Exception Time)
    (calls : List Call)
    (h : Run.Meets (exec rosTime) (fun g call => call.Clean g) empty calls)
    (parent child : String) :
    RemovesExactly (reached rosTime calls) parent child ↔
      RemovesCleanly (reached rosTime calls) parent child :=
  (mirror_reached_of_clean h).removesExactly_iff

/-- An edge between frames without arrows is removed cleanly. -/
theorem removesCleanly_of_not_hasArrow {g : TFGraph Time} {parent child : String}
    (hedge : g.getParent child = some parent) (hp : ¬ HasArrow parent)
    (hc : ¬ HasArrow child) : RemovesCleanly g parent child := by
  refine Or.inl ⟨hedge, ?_⟩
  intro p c hne hkey
  obtain ⟨rfl, rfl⟩ := makeTransformKey_unique hp hc hkey
  exact absurd rfl hne

/-- Removing an edge a second time has the described effect: none. -/
theorem removeTransform_exact_iff_twice :
    RemovesExactly (reached rosTimeNanoseconds
      [.addTransform (createTransform "base" "link1" 1 0 0),
        .removeTransform "base" "link1"]) "base" "link1" := by
  have hclean : Run.Meets (exec rosTimeNanoseconds) (fun g call => call.Clean g) empty
      [.addTransform (createTransform "base" "link1" 1 0 0),
        .removeTransform "base" "link1"] :=
    ⟨trivial, removesCleanly_of_not_hasArrow (by decide) (by decide) (by decide), trivial⟩
  exact (removeTransform_exact_iff rosTimeNanoseconds _ hclean _ _).mpr
    (Or.inr ⟨by decide, by decide⟩)

/-- Naming another parent erases the child from `parents_` and leaves it in the list of
its real parent. -/
theorem not_removesExactly_wrong_parent :
    ¬ RemovesExactly (reached rosTimeNanoseconds
      [.addTransform (createTransform "base" "link1" 1 0 0)]) "other" "link1" := by
  intro h
  have hparent := h.other_parent (by decide) "link1"
  revert hparent
  decide

end RerunViz.TFGraph
