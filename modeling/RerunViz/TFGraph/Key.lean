import RerunViz.Lib.Separator
import RerunViz.TFGraph.Basic

set_option autoImplicit false

/-!
# The storage key of an edge

The data of the edge from `parent` to `child` is stored under the string
`parent->child`.  The key determines the pair as long as the first part holds no
arrow of its own; an arrow in either part gives the key a second reading.
-/

namespace RerunViz.TFGraph

open Separator

/-- The string contains `->`. -/
def HasArrow (s : String) : Prop := "->".toList <:+: s.toList

instance (s : String) : Decidable (HasArrow s) := inferInstanceAs (Decidable (_ <:+: _))

theorem arrow_toList : "->".toList = ['-', '>'] := by decide

theorem toList_makeTransformKey (parent child : String) :
    (makeTransformKey parent child).toList = parent.toList ++ '-' :: '>' :: child.toList := by
  simp [makeTransformKey, arrow_toList]

theorem makeTransformKey_eq_iff_toList {parent child parent' child' : String} :
    makeTransformKey parent child = makeTransformKey parent' child' ↔
      parent.toList ++ '-' :: '>' :: child.toList =
        parent'.toList ++ '-' :: '>' :: child'.toList := by
  rw [← String.toList_inj, toList_makeTransformKey, toList_makeTransformKey]

/-- Two keys whose parents hold no arrow agree only if both pairs agree. -/
theorem makeTransformKey_injective {parent child parent' child' : String}
    (hp : ¬ HasArrow parent) (hp' : ¬ HasArrow parent')
    (h : makeTransformKey parent child = makeTransformKey parent' child') :
    parent = parent' ∧ child = child' := by
  rw [HasArrow, arrow_toList] at hp hp'
  have hjoin := join_injective (by decide) hp hp' (makeTransformKey_eq_iff_toList.mp h)
  exact ⟨String.toList_inj.mp hjoin.1, String.toList_inj.mp hjoin.2⟩

/-- A key without arrows of its own is the key of no other pair. -/
theorem makeTransformKey_unique {parent child parent' child' : String}
    (hp : ¬ HasArrow parent) (hc : ¬ HasArrow child)
    (h : makeTransformKey parent' child' = makeTransformKey parent child) :
    parent' = parent ∧ child' = child := by
  rw [HasArrow, arrow_toList] at hp hc
  have hjoin := join_unique (by decide) hp hc (makeTransformKey_eq_iff_toList.mp h)
  exact ⟨String.toList_inj.mp hjoin.1, String.toList_inj.mp hjoin.2⟩

/-- An arrow in either part makes the key that of another pair as well. -/
theorem exists_other_pair {parent child : String} (h : HasArrow parent ∨ HasArrow child) :
    ∃ parent' child', (parent', child') ≠ (parent, child) ∧
      makeTransformKey parent' child' = makeTransformKey parent child := by
  rw [HasArrow, HasArrow, arrow_toList] at h
  obtain ⟨p, c, hne, hjoin⟩ := exists_other_join h
  refine ⟨String.ofList p, String.ofList c, ?_, ?_⟩
  · rintro heq
    rw [Prod.mk.injEq] at heq
    exact hne (by rw [← heq.1, ← heq.2]; simp)
  · rw [makeTransformKey_eq_iff_toList]
    simpa using hjoin

/-! ## Reading a key back -/

/-- The two parts of a key as `logToRerun` cuts them: at the first arrow. -/
def splitTransformKey (key : String) : Option (String × String) :=
  match find "->".toList key.toList with
  | none => none
  | some arrowPos =>
      some (String.ofList (key.toList.take arrowPos),
        String.ofList (key.toList.drop (arrowPos + 2)))

/-- A key whose parent holds no arrow is cut where it was joined. -/
theorem splitTransformKey_makeTransformKey {parent child : String} (hp : ¬ HasArrow parent) :
    splitTransformKey (makeTransformKey parent child) = some (parent, child) := by
  rw [HasArrow, arrow_toList] at hp
  rw [splitTransformKey, toList_makeTransformKey, arrow_toList,
    find_append_sep (by decide) hp]
  simp [List.drop_append]

/-- A parent that holds an arrow is cut short there. -/
theorem splitTransformKey_of_hasArrow {parent : String} (hp : HasArrow parent)
    (child : String) :
    ∃ parent' child', splitTransformKey (makeTransformKey parent child) =
      some (parent', child') ∧ parent'.toList.length < parent.toList.length := by
  rw [HasArrow] at hp
  obtain ⟨i, hfind, hle⟩ := find_of_infix hp ('-' :: '>' :: child.toList)
  rw [arrow_toList, List.length_cons, List.length_cons, List.length_nil] at hle
  refine ⟨_, _, by rw [splitTransformKey, toList_makeTransformKey, hfind], ?_⟩
  rw [String.toList_ofList, List.length_take]
  omega

/-- For all strings, cutting a key at its first arrow gives back the pair it was made of
exactly when the parent holds no arrow; so no two pairs with such parents share a key. -/
theorem splitTransformKey_inverts :
    (∀ parent child, splitTransformKey (makeTransformKey parent child) = some (parent, child) ↔
      ¬ HasArrow parent) ∧
    Set.InjOn (fun p : String × String => makeTransformKey p.1 p.2)
      {p | ¬ HasArrow p.1} := by
  constructor
  · intro parent child
    constructor
    · intro hsplit hp
      obtain ⟨parent', child', hcut, hlt⟩ := splitTransformKey_of_hasArrow hp child
      rw [hsplit, Option.some.injEq, Prod.mk.injEq] at hcut
      rw [hcut.1] at hlt
      exact absurd hlt (Nat.lt_irrefl _)
    · exact splitTransformKey_makeTransformKey
  · intro p hp q hq hkey
    have hcuts := congrArg splitTransformKey hkey
    dsimp only at hcuts
    rw [splitTransformKey_makeTransformKey hp, splitTransformKey_makeTransformKey hq] at hcuts
    exact Option.some.inj hcuts

example : splitTransformKey (makeTransformKey "-" ">->") = some ("-", ">->") := by decide

end RerunViz.TFGraph
