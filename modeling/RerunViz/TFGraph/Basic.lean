import Mathlib.Data.Finset.Insert
import Mathlib.Data.List.AList
import RerunViz.Lib.Assoc
import RerunViz.Lib.Bfs
import RerunViz.Lib.Dfs
import RerunViz.Lib.Forest
import RerunViz.Msg

set_option autoImplicit false

/-!
# `TFGraph`: the three maps and the operations on them

The graph keeps an adjacency map from parent to children, a reverse map from
child to parent, and the transforms under the string key `parent->child`.  The
three are edited by separate code, and every definition here follows one function
of the source, edit by edit.

An `std::unordered_map` is an association list with distinct keys; its order is
an iteration order the container may have.  `rclcpp::Time` is not part of this
code: its constructor is the parameter `rosTime`, which may throw.
-/

namespace RerunViz

/-- The time constructor as its documentation has it: nanoseconds, or an exception
when the seconds are negative. -/
def rosTimeNanoseconds (stamp : Stamp) : Except Exception Int :=
  if stamp.sec < 0 then .error "cannot store a negative time point in rclcpp::Time"
  else .ok (stamp.sec.toInt * 1000000000 + stamp.nanosec.toNat)

/-- `TFGraph::TransformData`. -/
structure TransformData (Time : Type) where
  transform : TransformStamped
  timestamp : Time
  deriving DecidableEq

/-- The constructor from a message; it throws when the stamp is not accepted. -/
def TransformData.ofStamped {Time : Type} (rosTime : Stamp → Except Exception Time)
    (tf : TransformStamped) : Except Exception (TransformData Time) :=
  match rosTime tf.header.stamp with
  | .error e => .error e
  | .ok timestamp => .ok ⟨tf, timestamp⟩

/-- The data members of `TFGraph`. -/
structure TFGraph (Time : Type) where
  /-- `children_`: parent frame to list of child frames -/
  children : AList (fun _ : String => List String)
  /-- `parents_`: child frame to parent frame -/
  parents : AList (fun _ : String => String)
  /-- `transforms_`: `"parent->child"` to transform data -/
  transforms : AList (fun _ : String => TransformData Time)

namespace TFGraph

variable {Time : Type}

/-- A default-constructed graph. -/
def empty : TFGraph Time := ⟨∅, ∅, ∅⟩

def makeTransformKey (parent child : String) : String := parent ++ "->" ++ child

/-! ## Observers -/

def getChildren (g : TFGraph Time) (frame : String) : List String :=
  match g.children.lookup frame with
  | some children => children
  | none => []

def getParent (g : TFGraph Time) (frame : String) : Option String := g.parents.lookup frame

/-- Every parent in `children_`, and every child listed under it. -/
def getAllFrames (g : TFGraph Time) : Finset String :=
  g.children.entries.foldl
    (fun frames entry => entry.2.foldl (fun frames child => insert child frames)
      (insert entry.1 frames)) ∅

def getTransform (g : TFGraph Time) (parent child : String) : Option (TransformData Time) :=
  g.transforms.lookup (makeTransformKey parent child)

def getStatistics (g : TFGraph Time) : Nat × Nat :=
  (g.getAllFrames.card, g.transforms.entries.length)

/-! ## Cycle check -/

/-- `TFGraph::dfsHasPath`, with the depth of the recursion bounded by the first
argument; the visited set is passed on from one sibling to the next. -/
def dfsHasPath (g : TFGraph Time) (target : String) :
    Nat → String → List String → Option (Bool × List String)
  | 0, _, _ => none
  | depth + 1, current, visited =>
      if current = target then some (true, visited)
      else if current ∈ visited then some (false, visited)
      else
        match g.children.lookup current with
        | some children =>
            Dfs.loop (g.dfsHasPath target depth) children (current :: visited)
        | none => some (false, current :: visited)

/-- A depth that the recursion cannot exceed: only frames that are keys of
`children_` recurse, and none of them twice. -/
def dfsDepth (g : TFGraph Time) : Nat := g.children.keys.length + 1

theorem dfsHasPath_eq_search (g : TFGraph Time) (target : String) (depth : Nat) :
    g.dfsHasPath target depth = Dfs.search g.getChildren target depth := by
  induction depth with
  | zero => rfl
  | succ depth ih =>
      funext current visited
      simp only [dfsHasPath, Dfs.search, getChildren, ih]
      cases g.children.lookup current with
      | some children => rfl
      | none => rfl

theorem mem_keys_of_getChildren_ne_nil {g : TFGraph Time} {frame : String}
    (h : g.getChildren frame ≠ []) : frame ∈ g.children.keys := by
  unfold getChildren at h
  split at h
  · rename_i children hlookup
    exact AList.mem_keys.mp (Assoc.mem_of_lookup hlookup)
  · exact absurd rfl h

/-- Whatever has been visited already, the recursion never exceeds its depth. -/
theorem dfsHasPath_total (g : TFGraph Time) (target current : String) (visited : List String) :
    ∃ r, g.dfsHasPath target g.dfsDepth current visited = some r := by
  have hle := Visited.unvisited_le_card g.children.keys.toFinset visited
  have hcard := List.toFinset_card_le g.children.keys
  rw [dfsHasPath_eq_search]
  refine Dfs.search_total (S := g.children.keys.toFinset) ?_ g.dfsDepth current visited ?_
  · exact fun x hx => List.mem_toFinset.mpr (mem_keys_of_getChildren_ne_nil hx)
  · rw [dfsDepth]
    omega

theorem dfsHasPath_isSome (g : TFGraph Time) (target current : String) :
    (g.dfsHasPath target g.dfsDepth current []).isSome :=
  Option.isSome_iff_exists.mpr (g.dfsHasPath_total target current [])

def wouldCreateCycle (g : TFGraph Time) (parent child : String) : Bool :=
  if parent = child then true
  else ((g.dfsHasPath parent g.dfsDepth child []).get (g.dfsHasPath_isSome parent child)).1

/-! ## Edits -/

/-- The first part of an accepted `addTransform`: drop the relationship the child
has already. -/
def removeExistingParent (g : TFGraph Time) (child : String) : TFGraph Time :=
  match g.parents.lookup child with
  | none => g
  | some oldParent =>
      let oldParentChildren := (g.children.lookup oldParent).getD []
      { g with
        children := g.children.insert oldParent (oldParentChildren.filter (· ≠ child))
        transforms := g.transforms.erase (makeTransformKey oldParent child) }

/-- The second part: enter the new relationship. -/
def addRelationship (g : TFGraph Time) (parent child : String) : TFGraph Time :=
  let siblings := (g.children.lookup parent).getD []
  { g with
    parents := g.parents.insert child parent
    children := g.children.insert parent (siblings ++ [child]) }

/-- `TFGraph::addTransform`: what it returns, and the graph it leaves behind.  The
data is constructed last, so that a stamp that makes the constructor throw leaves
the relationship without data. -/
def addTransform (rosTime : Stamp → Except Exception Time) (g : TFGraph Time)
    (tf : TransformStamped) : Except Exception Bool × TFGraph Time :=
  let parent := tf.header.frameId
  let child := tf.childFrameId
  if g.wouldCreateCycle parent child then (.ok false, g)
  else
    let g' := (g.removeExistingParent child).addRelationship parent child
    match TransformData.ofStamped rosTime tf with
    | .error e => (.error e, g')
    | .ok data =>
        (.ok true, { g' with
          transforms := g'.transforms.insert (makeTransformKey parent child) data })

/-- The first edit of `removeTransform`: take the child out of the list of the named
parent, and drop a list that has become empty. -/
def removeFromChildren (g : TFGraph Time) (parent child : String) :
    AList (fun _ : String => List String) :=
  match g.children.lookup parent with
  | none => g.children
  | some parentChildren =>
      let remaining := parentChildren.filter (· ≠ child)
      if remaining.isEmpty then g.children.erase parent
      else g.children.insert parent remaining

/-- `TFGraph::removeTransform`. -/
def removeTransform (g : TFGraph Time) (parent child : String) : TFGraph Time :=
  { children := g.removeFromChildren parent child
    parents := g.parents.erase child
    transforms := g.transforms.erase (makeTransformKey parent child) }

/-! ## Paths -/

/-- One round of the loop of `TFGraph::getPathToRoot`. -/
def pathToRootBody (g : TFGraph Time) (s : List String × String) :
    Loop.Iter (List String × String) (List String) :=
  let path := s.1 ++ [s.2]
  match g.getParent s.2 with
  | none => .done path
  | some parent => .next (path, parent)

/-- `TFGraph::getPathToRoot`.  The loop of the source is unbounded; `none` means that
it does not return (`getPathToRoot_eq_none_iff`). -/
def getPathToRoot (g : TFGraph Time) (frame : String) : Option (List String) :=
  Loop.run g.pathToRootBody (g.parents.keys.length + 1) ([], frame)

/-- One round of the loop of `TFGraph::getPath`: first the children of the current
frame, then its parent. -/
def pathBody (g : TFGraph Time) (dest : String) (s : Bfs.State String) :
    Loop.Iter (Bfs.State String) (Option (Bfs.State String)) :=
  match s.queue with
  | [] => .done none
  | current :: queue =>
      let (found, s₁) := Bfs.discover dest current (g.getChildren current)
        { s with queue := queue }
      if found then .done (some s₁)
      else
        let (found, s₂) := Bfs.discover dest current (g.parents.lookup current).toList s₁
        if found then .done (some s₂)
        else .next s₂

/-- More rounds than the search can take: every frame it can meet is the start, a
listed child or a parent. -/
def pathBudget (g : TFGraph Time) : Nat :=
  (g.children.entries.map fun entry => entry.2.length).sum + g.parents.entries.length + 2

/-- The reconstruction of the path from the predecessor links. -/
def reconstructPath (source dest : String) (s : Bfs.State String) : Option (List String) :=
  (Loop.run (Bfs.walkBody source) s.visited.length ⟨[], dest, s.cameFrom⟩).map
    fun w => (w.path ++ [source]).reverse

/-- `TFGraph::getPath`; `none` would be a loop that does not return. -/
def getPath (g : TFGraph Time) (source dest : String) : Option (List String) :=
  if source = dest then some [source]
  else
    match Loop.run (g.pathBody dest) g.pathBudget (Bfs.State.init source) with
    | none => none
    | some none => some []
    | some (some s) => reconstructPath source dest s

end TFGraph

end RerunViz
