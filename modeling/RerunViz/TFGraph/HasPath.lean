import RerunViz.TFGraph.Basic

set_option autoImplicit false

/-!
# `dfsHasPath` on arbitrary children

The cycle check asks `dfsHasPath` about graphs whose `children_` may hold cycles, shared
children and repetitions.  The visited set is handed on between siblings, so the answer is
about paths through frames that were not visited when the search began
(`dfsHasPath_correct`).
-/

namespace RerunViz.TFGraph

open Relation

variable {Time : Type}

/-- The recursion ends within `dfsDepth`, and no larger depth changes its result. -/
theorem exists_dfsHasPath (g : TFGraph Time) (target current : String)
    (visited : List String) :
    ∃ found visited', ∀ depth, g.dfsDepth ≤ depth →
      g.dfsHasPath target depth current visited = some (found, visited') := by
  obtain ⟨⟨found, visited'⟩, hr⟩ := g.dfsHasPath_total target current visited
  refine ⟨found, visited', fun depth hdepth => ?_⟩
  rw [dfsHasPath_eq_search] at hr ⊢
  exact Dfs.search_mono hdepth hr

/-- The answer of a search that began with the frames `V` visited. -/
theorem dfsHasPath_true_iff {g : TFGraph Time} {target current : String} {depth : Nat}
    {V V' : List String} {found : Bool} (hV : target ∉ V)
    (h : g.dfsHasPath target depth current V = some (found, V')) :
    found = true ↔ ReflTransGen (Dfs.White g.getChildren V) current target := by
  rw [dfsHasPath_eq_search] at h
  exact Dfs.search_true_iff h hV

/-- For arbitrary `children_`, the search returns; with nothing visited its answer is
whether the target can be reached over children, and with any visited set that does not
hold the target, whether it can be reached by a path whose frames before the target are
not in that set. -/
theorem dfsHasPath_correct (g : TFGraph Time) (current target : String) :
    (∃ found visited, (∀ depth, g.dfsDepth ≤ depth →
        g.dfsHasPath target depth current [] = some (found, visited)) ∧
      (found = true ↔ ReflTransGen (fun x y => y ∈ g.getChildren x) current target)) ∧
    ∀ V : List String, target ∉ V →
      ∃ found visited, (∀ depth, g.dfsDepth ≤ depth →
          g.dfsHasPath target depth current V = some (found, visited)) ∧
        (found = true ↔ ∃ path : List String, path.head? = some current ∧
          path.getLast? = some target ∧ path.IsChain (fun x y => y ∈ g.getChildren x) ∧
          ∀ x ∈ path.dropLast, x ∉ V) := by
  constructor
  · obtain ⟨found, visited, hruns⟩ := g.exists_dfsHasPath target current []
    refine ⟨found, visited, hruns, ?_⟩
    rw [dfsHasPath_true_iff List.not_mem_nil (hruns _ (Nat.le_refl _)), Dfs.white_nil]
  · intro V hV
    obtain ⟨found, visited, hruns⟩ := g.exists_dfsHasPath target current V
    refine ⟨found, visited, hruns, ?_⟩
    rw [dfsHasPath_true_iff hV (hruns _ (Nat.le_refl _)), Dfs.white_path_iff]

end RerunViz.TFGraph
