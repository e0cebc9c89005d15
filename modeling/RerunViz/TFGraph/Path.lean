import RerunViz.Lib.TreePath
import RerunViz.TFGraph.Mirror

set_option autoImplicit false

/-!
# `getPath` against the ancestor chains

The search of `getPath` takes the children of a frame and then its parent as its
neighbours.  On every graph it returns: an empty list when the destination cannot be
reached, and a simple path otherwise (`getPath_spec`).  On a mirrored graph neighbours
are the adjacent nodes of a forest, so the path is the one that the two ancestor chains
give (`getPath_eq_joinAt`).
-/

namespace RerunViz.TFGraph

open Forest Relation

variable {Time : Type} {rosTime : Stamp → Except Exception Time}

/-- The frames `getPath` looks at from a frame, in order. -/
def neighbours (g : TFGraph Time) (x : String) : List String :=
  g.getChildren x ++ (g.getParent x).toList

theorem mem_neighbours_iff {g : TFGraph Time} {x y : String} :
    y ∈ g.neighbours x ↔ y ∈ g.getChildren x ∨ g.getParent x = some y := by
  rw [neighbours, List.mem_append, Option.mem_toList]

/-- A round of the loop discovers the neighbours. -/
theorem pathBody_eq_body (g : TFGraph Time) (dest : String) :
    g.pathBody dest = Bfs.body g.neighbours dest := by
  funext s
  obtain ⟨queue, cameFrom, visited⟩ := s
  cases queue with
  | nil => rfl
  | cons current queue =>
      simp only [pathBody, Bfs.body, neighbours, Bfs.discover_append, getParent]
      rcases hdown : Bfs.discover dest current (g.getChildren current)
        ⟨queue, cameFrom, visited⟩ with ⟨found, s₁⟩
      cases found with
      | true => rfl
      | false =>
          rcases hup : Bfs.discover dest current (g.parents.lookup current).toList s₁ with
            ⟨found, s₂⟩
          cases found <;> simp

/-- Every frame the search can meet after the start. -/
def searchFrames (g : TFGraph Time) : List String :=
  g.children.entries.flatMap (fun entry => entry.2) ++ g.parents.entries.map (fun entry => entry.2)

theorem neighbours_subset (g : TFGraph Time) (x y : String) (h : y ∈ g.neighbours x) :
    y ∈ g.searchFrames.toFinset := by
  rw [List.mem_toFinset, searchFrames, List.mem_append, List.mem_flatMap, List.mem_map]
  rcases mem_neighbours_iff.mp h with hchild | hparent
  · rw [getChildren_eq_getD] at hchild
    cases hlookup : g.children.lookup x with
    | none =>
        rw [hlookup] at hchild
        cases hchild
    | some children =>
        rw [hlookup, Option.getD_some] at hchild
        exact Or.inl ⟨⟨x, children⟩, AList.mem_lookup_iff.mp hlookup, hchild⟩
  · exact Or.inr ⟨⟨x, y⟩, AList.mem_lookup_iff.mp hparent, rfl⟩

/-- The budget exceeds the number of frames the search can meet. -/
theorem card_searchFrames_lt (g : TFGraph Time) :
    g.searchFrames.toFinset.card + 1 < g.pathBudget := by
  have hle := List.toFinset_card_le g.searchFrames
  have hlen : g.searchFrames.length =
      (g.children.entries.map fun entry => entry.2.length).sum + g.parents.entries.length := by
    rw [searchFrames, List.length_append, List.length_flatMap, List.length_map]
  rw [pathBudget]
  omega

/-- From a discovered destination the predecessor links give a simple path. -/
theorem reconstructPath_spec {g : TFGraph Time} {source dest : String}
    {s : Bfs.State String} (htree : Bfs.Discovered g.neighbours source s.cameFrom s.visited)
    (hdest : dest ∈ s.visited) :
    ∃ path, reconstructPath source dest s = some path ∧
      SimplePath (fun x y => y ∈ g.neighbours x) source dest path := by
  obtain ⟨l, hsub, hhead, hchain, hrun⟩ := Bfs.walk_spec htree hdest
  refine ⟨(l ++ [source]).reverse, ?_, ?_, ?_, ?_, ?_⟩
  · rw [reconstructPath, hrun [] _ (Nat.le_refl _), Option.map_some, List.nil_append]
  · simp
  · rw [List.getLast?_reverse, hhead]
  · exact List.isChain_reverse.mpr (hchain.imp fun _ _ hstep => hstep.2)
  · exact List.nodup_reverse.mpr (htree.nodup.sublist hsub)

/-- On every graph `getPath` returns: an empty list when the destination is not reachable
over neighbours, and otherwise a path to it that repeats no frame. -/
theorem getPath_spec (g : TFGraph Time) (source dest : String) :
    (g.getPath source dest = some [] ∧
        ¬ ReflTransGen (fun x y => y ∈ g.neighbours x) source dest) ∨
      ∃ path, g.getPath source dest = some path ∧
        SimplePath (fun x y => y ∈ g.neighbours x) source dest path := by
  unfold getPath
  split
  · rename_i heq
    subst heq
    exact Or.inr ⟨[source], rfl, .singleton source⟩
  · rename_i hne
    obtain ⟨r, hrun, hpost, -⟩ := Bfs.search_keeps (P := fun _ => True) hne
      g.neighbours_subset trivial (fun _ _ _ _ _ _ => trivial) g.card_searchFrames_lt
    rw [pathBody_eq_body, hrun]
    cases r with
    | none => exact Or.inl ⟨rfl, hpost⟩
    | some s => exact Or.inr (reconstructPath_spec hpost.1 hpost.2)

/-! ## Mirrored graphs -/

/-- In a mirrored graph the neighbours of a frame are its children and its parent. -/
theorem Mirror.mem_neighbours_eq {g : TFGraph Time} (h : Mirror g) :
    (fun x y => y ∈ g.neighbours x) = Adj g.getParent := by
  funext x y
  rw [mem_neighbours_iff, h.listed_iff]
  rfl

/-- In a mirrored forest `getPath` is determined by the two ancestor chains. -/
theorem Mirror.getPath_eq {g : TFGraph Time} (h : Mirror g) (hac : Acyclic g.getParent)
    {source dest : String} {ls ld : List String} (hs : RootPath g.getParent source ls)
    (hd : RootPath g.getParent dest ld) :
    g.getPath source dest =
      some (if ls.getLast? = ld.getLast? then joinAt ls ld else []) := by
  have hroots : ∀ z, ∃ l, RootPath g.getParent z l := fun z =>
    (exists_getPathToRoot hac z).imp fun _ hl => hl.2
  have hconnected := connected_iff hroots hs hd
  rcases getPath_spec g source dest with ⟨hpath, hreach⟩ | ⟨path, hpath, hsimple⟩
  · rw [h.mem_neighbours_eq, hconnected] at hreach
    rw [hpath, if_neg hreach]
  · rw [h.mem_neighbours_eq] at hsimple
    rw [hpath, if_pos (hconnected.mp hsimple.reachable), hsimple.eq_joinAt hs hd]

/-- Joining two connected chains from the other side gives the reversed path. -/
theorem Mirror.joinAt_reverse {g : TFGraph Time} (h : Mirror g) (hac : Acyclic g.getParent)
    {source dest : String} {ls ld : List String} (hs : RootPath g.getParent source ls)
    (hd : RootPath g.getParent dest ld) (hroot : ls.getLast? = ld.getLast?) :
    joinAt ld ls = (joinAt ls ld).reverse := by
  have hroots : ∀ z, ∃ l, RootPath g.getParent z l := fun z =>
    (exists_getPathToRoot hac z).imp fun _ hl => hl.2
  rcases getPath_spec g source dest with ⟨_, hreach⟩ | ⟨path, _, hsimple⟩
  · rw [h.mem_neighbours_eq] at hreach
    exact absurd ((connected_iff hroots hs hd).mpr hroot) hreach
  · rw [h.mem_neighbours_eq] at hsimple
    rw [← hsimple.eq_joinAt hs hd, hsimple.reverse.eq_joinAt hd hs]

/-- After every sequence of additions and matching removals, `getPath` between any two
frames agrees with their ancestor chains: an empty list when these end in different
roots, and otherwise the two chains joined at the first common frame.  The path in the
other direction is its reverse. -/
theorem getPath_eq_joinAt (rosTime : Stamp → Except Exception Time) (calls : List Call)
    (hmatched : Run.Meets (exec rosTime) (fun g call => call.Matched g) empty calls)
    (source dest : String) :
    ∃ fromSource fromDest,
      (reached rosTime calls).getPathToRoot source = some fromSource ∧
      (reached rosTime calls).getPathToRoot dest = some fromDest ∧
      (fromSource.getLast? ≠ fromDest.getLast? →
        (reached rosTime calls).getPath source dest = some []) ∧
      (fromSource.getLast? = fromDest.getLast? →
        (reached rosTime calls).getPath source dest = some (joinAt fromSource fromDest)) ∧
      (reached rosTime calls).getPath dest source =
        ((reached rosTime calls).getPath source dest).map List.reverse := by
  have hac := (sound_reached rosTime calls).acyclic_getParent
  have hmirror := mirror_reached hmatched
  obtain ⟨fromSource, hsource, hs⟩ := exists_getPathToRoot hac source
  obtain ⟨fromDest, hdest, hd⟩ := exists_getPathToRoot hac dest
  have hforth := hmirror.getPath_eq hac hs hd
  have hback := hmirror.getPath_eq hac hd hs
  refine ⟨fromSource, fromDest, hsource, hdest, ?_, ?_, ?_⟩
  · intro hroot
    rw [hforth, if_neg hroot]
  · intro hroot
    rw [hforth, if_pos hroot]
  · rw [hforth, hback]
    by_cases hroot : fromSource.getLast? = fromDest.getLast?
    · rw [if_pos hroot, if_pos hroot.symm, hmirror.joinAt_reverse hac hs hd hroot,
        Option.map_some]
    · rw [if_neg hroot, if_neg (Ne.symm hroot)]
      rfl

/-- Two siblings are joined at their parent. -/
theorem getPath_eq_joinAt_siblings :
    (reached rosTimeNanoseconds
      [.addTransform (createTransform "base" "link1" 1 0 0),
        .addTransform (createTransform "base" "link2" 0 1 0),
        .addTransform (createTransform "link2" "link3" 0 0 1),
        .removeTransform "link2" "link3"]).getPath "link1" "link2" =
      some ["link1", "base", "link2"] := by
  obtain ⟨fromSource, fromDest, hsource, hdest, _, hjoin, _⟩ :=
    getPath_eq_joinAt rosTimeNanoseconds
      [.addTransform (createTransform "base" "link1" 1 0 0),
        .addTransform (createTransform "base" "link2" 0 1 0),
        .addTransform (createTransform "link2" "link3" 0 0 1),
        .removeTransform "link2" "link3"] (by decide) "link1" "link2"
  obtain rfl : ["link1", "base"] = fromSource :=
    Option.some.inj (Eq.trans (by decide) hsource)
  obtain rfl : ["link2", "base"] = fromDest :=
    Option.some.inj (Eq.trans (by decide) hdest)
  rw [hjoin (by decide)]
  decide

end RerunViz.TFGraph
