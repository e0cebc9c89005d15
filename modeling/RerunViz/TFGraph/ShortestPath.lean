import RerunViz.Lib.BfsDistance
import RerunViz.TFGraph.Path

set_option autoImplicit false

/-!
# `getPath` finds a shortest path

For every content of `children_` and `parents_`, whether the two agree or not, the
search discovers a frame on the level of its distance, so the path that the
predecessor links give is a shortest one.  The walk along the links ends at the start
and asks only for frames that `came_from` holds, which its inserting `operator[]`
therefore leaves unchanged.
-/

namespace RerunViz.TFGraph

open Forest Relation

variable {Time : Type}

/-- One step of a path: down to a listed child, or up to the parent. -/
def Step (g : TFGraph Time) (x y : String) : Prop :=
  y ∈ g.getChildren x ∨ g.getParent x = some y

theorem mem_neighbours_eq_step (g : TFGraph Time) :
    (fun x y => y ∈ g.neighbours x) = g.Step := by
  funext x y
  exact propext mem_neighbours_iff

/-- The search of `getPath` returns on every graph, with its frames on levels. -/
theorem search_getPath (g : TFGraph Time) {source dest : String} (hne : source ≠ dest) :
    ∃ r, Loop.run (g.pathBody dest) g.pathBudget (Bfs.State.init source) = some r ∧
      Bfs.Post g.neighbours source dest r ∧
      ∀ s, r = some s → ∃ d, Bfs.Leveled g.neighbours source d s := by
  rw [pathBody_eq_body]
  exact Bfs.search_leveled hne g.neighbours_subset g.card_searchFrames_lt

/-- The loop that follows the predecessor links from the destination. -/
def walkBack (source dest : String) (s : Bfs.State String) : Option (Bfs.Walk String) :=
  Loop.run (Bfs.walkBody source) s.visited.length ⟨[], dest, s.cameFrom⟩

theorem reconstructPath_eq (source dest : String) (s : Bfs.State String) :
    reconstructPath source dest s =
      (walkBack source dest s).map fun w => (w.path ++ [source]).reverse := rfl

/-- The walk back from a destination that was discovered on its level. -/
theorem walkBack_spec {g : TFGraph Time} {source dest : String} {s : Bfs.State String} {d : Nat}
    (hpost : Bfs.Post g.neighbours source dest (some s))
    (hlevel : Bfs.Leveled g.neighbours source d s) :
    ∃ passed, walkBack source dest s = some ⟨passed, source, s.cameFrom⟩ ∧
      (∀ x ∈ passed, x ∈ s.cameFrom) ∧
      passed.length = Bfs.distance g.neighbours source dest := by
  obtain ⟨passed, _, hhead, hchain, hrun⟩ := Bfs.walk_spec hpost.1 hpost.2
  have hlinks := hchain.imp fun _ _ hstep => hstep.1
  refine ⟨passed, ?_, Bfs.mem_of_isChain_lookup hlinks, hlevel.length_eq_distance hlinks hhead⟩
  rw [walkBack, hrun [] _ (Nat.le_refl _), List.nil_append]

/-- No list along the steps is shorter than the distance and its start. -/
theorem distance_lt_length {g : TFGraph Time} {source dest : String} {other : List String}
    (hhead : other.head? = some source) (hlast : other.getLast? = some dest)
    (hchain : other.IsChain g.Step) :
    Bfs.distance g.neighbours source dest < other.length := by
  rw [← mem_neighbours_eq_step] at hchain
  have hle := (Bfs.Steps.of_chain hchain hhead hlast).distance_le
  have hpos : 0 < other.length := List.length_pos_of_ne_nil (by rintro rfl; cases hhead)
  omega

/-- The path that is read off a search that found its destination. -/
theorem reconstructPath_shortest {g : TFGraph Time} {source dest : String}
    {s : Bfs.State String} {d : Nat} (hpost : Bfs.Post g.neighbours source dest (some s))
    (hlevel : Bfs.Leveled g.neighbours source d s) :
    ∃ path, reconstructPath source dest s = some path ∧
      SimplePath g.Step source dest path ∧
      path.length = Bfs.distance g.neighbours source dest + 1 := by
  obtain ⟨path, hpath, hsimple⟩ := reconstructPath_spec hpost.1 hpost.2
  obtain ⟨passed, hwalk, _, hlength⟩ := walkBack_spec hpost hlevel
  rw [mem_neighbours_eq_step] at hsimple
  refine ⟨path, hpath, hsimple, ?_⟩
  rw [reconstructPath_eq, hwalk, Option.map_some, Option.some.injEq] at hpath
  rw [← hpath, List.length_reverse, List.length_append, hlength, List.length_singleton]

/-- On every graph `getPath` between two different frames returns.  It returns the empty
list exactly when the destination cannot be reached, and otherwise a path without
repetition that no other is shorter than.  The walk along the predecessor links of the
search passes only frames that have one, ends at the start and leaves the links as the
search made them. -/
theorem getPath_shortest (g : TFGraph Time) {source dest : String} (hne : source ≠ dest) :
    ∃ path, g.getPath source dest = some path ∧
      (path = [] ↔ ¬ ReflTransGen g.Step source dest) ∧
      (path ≠ [] → SimplePath g.Step source dest path ∧
        ∀ other : List String, other.head? = some source → other.getLast? = some dest →
          other.IsChain g.Step → path.length ≤ other.length) ∧
      ∀ s, Loop.run (g.pathBody dest) g.pathBudget (Bfs.State.init source) = some (some s) →
        ∃ passed, walkBack source dest s = some ⟨passed, source, s.cameFrom⟩ ∧
          ∀ x ∈ passed, x ∈ s.cameFrom := by
  obtain ⟨r, hrun, hpost, hlevels⟩ := g.search_getPath hne
  rw [getPath, if_neg hne, hrun]
  cases r with
  | none =>
      rw [Bfs.Post, mem_neighbours_eq_step] at hpost
      exact ⟨[], rfl, iff_of_true rfl hpost, fun h => absurd rfl h, fun s hs => by cases hs⟩
  | some s =>
      obtain ⟨d, hlevel⟩ := hlevels s rfl
      obtain ⟨path, hpath, hsimple, hlength⟩ := reconstructPath_shortest hpost hlevel
      have hpath_ne : path ≠ [] := by
        rintro rfl
        cases hlength
      refine ⟨path, hpath, ?_, fun _ => ⟨hsimple, ?_⟩, ?_⟩
      · exact iff_of_false hpath_ne (not_not_intro hsimple.reachable)
      · intro other hhead hlast hchain
        have hlt := distance_lt_length hhead hlast hchain
        omega
      · intro s' hs'
        obtain rfl : s = s' := by simpa using hs'
        obtain ⟨passed, hwalk, hmem, _⟩ := walkBack_spec hpost hlevel
        exact ⟨passed, hwalk, hmem⟩

/-- A cyclic graph whose two maps disagree: `children_` leads from `a` to `d` over `b` and
`c`, and `parents_` in one step. -/
def inconsistentGraph : TFGraph Unit where
  children := [⟨"a", ["b"]⟩, ⟨"b", ["c", "c", "a"]⟩, ⟨"c", ["d"]⟩].toAList
  parents := [⟨"a", "d"⟩].toAList
  transforms := ∅

/-- From `a` to `d` the step to the parent is taken, though the children come first. -/
theorem getPath_shortest_inconsistent :
    ∃ path, inconsistentGraph.getPath "a" "d" = some path ∧ path.length ≤ 2 := by
  obtain ⟨path, hpath, hempty, hshort, -⟩ :=
    getPath_shortest inconsistentGraph (show "a" ≠ "d" by decide)
  have hstep : inconsistentGraph.Step "a" "d" := Or.inr (by decide)
  have hne : path ≠ [] := fun h => hempty.mp h (.single hstep)
  exact ⟨path, hpath, (hshort hne).2 ["a", "d"] rfl rfl (by simpa using hstep)⟩

end RerunViz.TFGraph
