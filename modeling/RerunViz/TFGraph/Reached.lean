import RerunViz.Lib.Run
import RerunViz.TFGraph.Edits
import RerunViz.TFGraph.HasPath

set_option autoImplicit false

/-!
# Reached graphs are forests

The cycle check of `addTransform` walks down `children_`, while `getPathToRoot`
walks up `parents_`, and a `removeTransform` that names a wrong parent lets the two
maps drift apart.  What every sequence of calls keeps is one-sided: `children_`
lists every edge of `parents_`, possibly with more, and has no cycle (`Sound`).
-/

namespace RerunViz.TFGraph

open Forest Relation

variable {Time : Type}

/-- A call that edits the graph. -/
inductive Call where
  | addTransform (tf : TransformStamped)
  | removeTransform (parent child : String)
  deriving DecidableEq

/-- A message with identity rotation, stamped as in the tests of the source. -/
def createTransform (parent child : String) (x y z : Binary64) : TransformStamped where
  header := { stamp := ⟨123, 456789⟩, frameId := parent }
  childFrameId := child
  transform := { translation := ⟨x, y, z⟩, rotation := ⟨0, 0, 0, 0x3FF0000000000000⟩ }

section Runs

variable (rosTime : Stamp → Except Exception Time)

/-- The graph after one call. -/
def exec (g : TFGraph Time) : Call → TFGraph Time
  | .addTransform tf => (g.addTransform rosTime tf).2
  | .removeTransform parent child => g.removeTransform parent child

/-- The graph after a sequence of calls on an empty graph. -/
def reached (calls : List Call) : TFGraph Time := Run.run (exec rosTime) empty calls

end Runs

variable {rosTime : Stamp → Except Exception Time}

/-! ## The cycle check -/

/-- `children_` lists `c` under `p`. -/
def Listed (g : TFGraph Time) (c p : String) : Prop := c ∈ g.getChildren p

/-- The cycle check fires exactly when the child is the parent or, as far as
`children_` knows, an ancestor of it. -/
theorem wouldCreateCycle_eq_true_iff {g : TFGraph Time} {parent child : String} :
    g.wouldCreateCycle parent child = true ↔ ReflTransGen g.Listed parent child := by
  have hsearch : ∀ found visited,
      g.dfsHasPath parent g.dfsDepth child [] = some (found, visited) →
      (found = true ↔ ReflTransGen g.Listed parent child) := by
    intro found visited h
    rw [dfsHasPath_true_iff List.not_mem_nil h, Dfs.white_nil, ← reflTransGen_swap]
    rfl
  unfold wouldCreateCycle
  split
  · rename_i heq
    subst heq
    exact ⟨fun _ => .refl, fun _ => rfl⟩
  · obtain ⟨⟨found, visited⟩, h⟩ := Option.isSome_iff_exists.mp (g.dfsHasPath_isSome parent child)
    simp only [h, Option.get_some]
    exact hsearch found visited h

/-! ## The invariant -/

/-- `children_` lists every edge of `parents_` and has no cycle. -/
structure Sound (g : TFGraph Time) : Prop where
  covered : ∀ c p, g.getParent c = some p → g.Listed c p
  acyclic : ∀ x, ¬ TransGen g.Listed x x

theorem sound_empty : Sound (empty : TFGraph Time) where
  covered := by simp
  acyclic := by
    intro x h
    obtain ⟨y, hxy, _⟩ := TransGen.head'_iff.mp h
    simp [Listed] at hxy

/-- A graph with fewer listed edges, all parents still listed, is sound. -/
theorem Sound.of_listed {g g' : TFGraph Time} (h : Sound g)
    (hsub : ∀ c p, g'.Listed c p → g.Listed c p)
    (hcov : ∀ c p, g'.getParent c = some p → g'.Listed c p) : Sound g' where
  covered := hcov
  acyclic := fun x hx => h.acyclic x (TransGen.mono hsub x x hx)

/-- Entering an edge that passes the cycle check keeps the invariant: the lists gain
that edge, and lose at most the one `parents_` gave for the child. -/
theorem Sound.relate {g : TFGraph Time} (h : Sound g) {parent child : String}
    (hcyc : g.wouldCreateCycle parent child = false) : Sound (g.relate parent child) where
  covered := by
    intro c p hcp
    rw [getParent_relate] at hcp
    rw [Listed, mem_getChildren_relate]
    rcases up_attach_iff.mp hcp with ⟨rfl, rfl⟩ | ⟨hne, hup⟩
    · exact Or.inr ⟨rfl, rfl⟩
    · exact Or.inl ⟨h.covered c p hup, fun _ => hne⟩
  acyclic := by
    have hpath : ¬ ReflTransGen g.Listed parent child := by
      rw [← wouldCreateCycle_eq_true_iff, hcyc]
      simp
    intro x hx
    refine acyclic_add_edge h.acyclic hpath x (TransGen.mono ?_ x x hx)
    intro c p hcp
    rcases mem_getChildren_relate.mp hcp with ⟨hold, _⟩ | ⟨rfl, rfl⟩
    · exact Or.inl hold
    · exact Or.inr ⟨rfl, rfl⟩

theorem getParent_eq_of_parents_eq {g g' : TFGraph Time} (h : g'.parents = g.parents) :
    g'.getParent = g.getParent := by
  funext x
  rw [getParent, getParent, h]

theorem getChildren_eq_of_children_eq {g g' : TFGraph Time} (h : g'.children = g.children) :
    g'.getChildren = g.getChildren := by
  funext x
  rw [getChildren_eq_getD, getChildren_eq_getD, h]

theorem Sound.addTransform {g : TFGraph Time} (h : Sound g) (tf : TransformStamped) :
    Sound (g.addTransform rosTime tf).2 := by
  rcases addTransform_structure rosTime g tf with ⟨_, heq⟩ | ⟨hcyc, hparents, hchildren⟩
  · rw [heq]
    exact h
  · have hrel := h.relate hcyc
    refine hrel.of_listed ?_ ?_
    · intro c p hcp
      rwa [Listed, getChildren_eq_of_children_eq hchildren] at hcp
    · intro c p hcp
      rw [getParent_eq_of_parents_eq hparents] at hcp
      rw [Listed, getChildren_eq_of_children_eq hchildren]
      exact hrel.covered c p hcp

/-- Removal only takes edges out, and takes out every edge of the child from
`parents_`, whichever parent it names. -/
theorem Sound.removeTransform {g : TFGraph Time} (h : Sound g) (parent child : String) :
    Sound (g.removeTransform parent child) := by
  refine h.of_listed ?_ ?_
  · intro c p hcp
    rw [Listed, getChildren_removeTransform] at hcp
    split at hcp
    · exact (List.mem_filter.mp hcp).1
    · exact hcp
  · intro c p hcp
    rw [getParent_removeTransform] at hcp
    split at hcp
    · cases hcp
    · rename_i hne
      have hlisted := h.covered c p hcp
      rw [Listed, getChildren_removeTransform]
      split
      · exact List.mem_filter.mpr ⟨hlisted, by simpa using hne⟩
      · exact hlisted

theorem Sound.exec {g : TFGraph Time} (h : Sound g) (call : Call) :
    Sound (g.exec rosTime call) := by
  cases call with
  | addTransform tf => exact h.addTransform tf
  | removeTransform parent child => exact h.removeTransform parent child

/-- Every sequence of calls leads to a sound graph. -/
theorem sound_reached (rosTime : Stamp → Except Exception Time) (calls : List Call) :
    Sound (reached rosTime calls) := by
  exact Run.run_keeps (fun _ call hs => hs.exec call) sound_empty calls

theorem Sound.acyclic_getParent {g : TFGraph Time} (h : Sound g) : Acyclic g.getParent :=
  Acyclic.of_subrelation h.acyclic h.covered

/-! ## The walk to the root -/

theorem pathToRootBody_of_none {g : TFGraph Time} {path : List String} {frame : String}
    (h : g.getParent frame = none) :
    g.pathToRootBody (path, frame) = .done (path ++ [frame]) := by
  simp [pathToRootBody, h]

theorem pathToRootBody_of_some {g : TFGraph Time} {path : List String}
    {frame parent : String} (h : g.getParent frame = some parent) :
    g.pathToRootBody (path, frame) = .next (path ++ [frame], parent) := by
  simp [pathToRootBody, h]

/-- A frame whose ancestors end has them listed by the walk, one round each. -/
theorem run_pathToRootBody {g : TFGraph Time} {frame : String} {l : List String}
    (h : RootPath g.getParent frame l) :
    ∀ (path : List String) (n : Nat), l.length ≤ n →
      Loop.run g.pathToRootBody n (path, frame) = some (path ++ l) := by
  induction h with
  | @root frame hroot =>
      intro path n hn
      obtain ⟨m, rfl⟩ : ∃ m, n = m + 1 := ⟨n - 1, by simp at hn; omega⟩
      exact Loop.run_succ_of_done m (pathToRootBody_of_none hroot)
  | @step frame parent l hup _ ih =>
      intro path n hn
      obtain ⟨m, rfl⟩ : ∃ m, n = m + 1 := ⟨n - 1, by simp at hn; omega⟩
      rw [Loop.run_succ_of_next m (pathToRootBody_of_some hup),
        ih (path ++ [frame]) m (by simpa using hn)]
      simp

/-- A walk that returns has listed the ancestors up to a root. -/
theorem rootPath_of_run {g : TFGraph Time} {n : Nat} {path : List String} {frame : String}
    {r : List String} (h : Loop.run g.pathToRootBody n (path, frame) = some r) :
    ∃ l, RootPath g.getParent frame l ∧ r = path ++ l := by
  induction n generalizing path frame with
  | zero => simp [Loop.run] at h
  | succ n ih =>
      cases hup : g.getParent frame with
      | none =>
          rw [Loop.run_succ_of_done n (pathToRootBody_of_none hup)] at h
          exact ⟨[frame], .root hup, (Option.some.inj h).symm⟩
      | some parent =>
          rw [Loop.run_succ_of_next n (pathToRootBody_of_some hup)] at h
          obtain ⟨l, hl, rfl⟩ := ih h
          exact ⟨frame :: l, .step hup hl, by simp⟩

theorem rootPath_length_le {g : TFGraph Time} {frame : String} {l : List String}
    (h : RootPath g.getParent frame l) : l.length ≤ g.parents.keys.length + 1 :=
  h.length_le fun _ p hcp => mem_parents_keys_iff.mpr ⟨p, hcp⟩

/-- The walk returns exactly the list of ancestors up to a root. -/
theorem getPathToRoot_eq_some_iff {g : TFGraph Time} {frame : String} {l : List String} :
    g.getPathToRoot frame = some l ↔ RootPath g.getParent frame l := by
  constructor
  · intro h
    obtain ⟨l', hl', rfl⟩ := rootPath_of_run h
    simpa using hl'
  · intro h
    exact run_pathToRootBody h [] _ (rootPath_length_le h)

/-- The walk has no result exactly when the loop of the source never ends. -/
theorem getPathToRoot_eq_none_iff {g : TFGraph Time} {frame : String} :
    g.getPathToRoot frame = none ↔
      ∀ n, Loop.run g.pathToRootBody n ([], frame) = none := by
  constructor
  · intro h n
    cases hrun : Loop.run g.pathToRootBody n ([], frame) with
    | none => rfl
    | some r =>
        obtain ⟨l, hl, _⟩ := rootPath_of_run hrun
        rw [getPathToRoot_eq_some_iff.mpr hl] at h
        cases h
  · intro h
    exact h _

/-- In a graph whose parents form a forest every walk returns. -/
theorem exists_getPathToRoot {g : TFGraph Time} (h : Acyclic g.getParent) (frame : String) :
    ∃ l, g.getPathToRoot frame = some l ∧ RootPath g.getParent frame l := by
  obtain ⟨l, hl⟩ := exists_rootPath h
    (fun _ p hcp => mem_parents_keys_iff.mpr ⟨p, hcp⟩) frame
  exact ⟨l, getPathToRoot_eq_some_iff.mpr hl, hl⟩

/-- After any sequence of calls the parents form a forest, and the walk to the root
returns from every frame with the frame, its parent, and so on up to a frame without
parent. -/
theorem getPathToRoot_returns (rosTime : Stamp → Except Exception Time) (calls : List Call) :
    Acyclic (reached rosTime calls).getParent ∧
      ∀ frame, ∃ path, (reached rosTime calls).getPathToRoot frame = some path ∧
        path.Nodup ∧ path.head? = some frame ∧
        path.IsChain (fun c p => (reached rosTime calls).getParent c = some p) ∧
        (∀ r, path.getLast? = some r → (reached rosTime calls).getParent r = none) ∧
        path.length ≤ (reached rosTime calls).parents.entries.length + 1 := by
  have hac := (sound_reached rosTime calls).acyclic_getParent
  refine ⟨hac, ?_⟩
  intro frame
  obtain ⟨path, hpath, hroot⟩ := exists_getPathToRoot hac frame
  refine ⟨path, hpath, hroot.nodup, hroot.head_eq, hroot.isChain,
    fun r hr => hroot.getLast_root hr, ?_⟩
  simpa [AList.keys, List.keys] using rootPath_length_le hroot

end RerunViz.TFGraph
