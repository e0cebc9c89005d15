import Mathlib.Data.Finset.Card

set_option autoImplicit false

/-!
# Counting what a search has not visited

A search that marks nodes terminates because, over any finite set of nodes, the
number of unmarked ones goes down with every node it newly marks.
-/

namespace RerunViz.Visited

variable {α : Type} [DecidableEq α]

/-- How many nodes of `S` are not in the visited list. -/
def unvisited (S : Finset α) (V : List α) : Nat := (S.filter (· ∉ V)).card

theorem unvisited_le_card (S : Finset α) (V : List α) : unvisited S V ≤ S.card :=
  Finset.card_filter_le S _

theorem unvisited_mono (S : Finset α) {V W : List α} (hsub : V ⊆ W) :
    unvisited S W ≤ unvisited S V := by
  apply Finset.card_le_card
  intro x hx
  rw [Finset.mem_filter] at hx ⊢
  exact ⟨hx.1, fun hV => hx.2 (hsub hV)⟩

theorem unvisited_cons_lt {S : Finset α} {V : List α} {x : α} (hx : x ∈ S)
    (hnot : x ∉ V) : unvisited S (x :: V) < unvisited S V := by
  apply Finset.card_lt_card
  refine (Finset.ssubset_iff_of_subset ?_).mpr ⟨x, by simp [hx, hnot], by simp⟩
  intro y hy
  simp only [Finset.mem_filter, List.mem_cons, not_or] at hy ⊢
  exact ⟨hy.1, hy.2.2⟩

end RerunViz.Visited
