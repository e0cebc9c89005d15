import Mathlib.Data.List.DropRight

set_option autoImplicit false

/-!
# Names made of components

A list is read as components between separators, empty ones included
(`List.splitOn`).  `Within sep topic ns` says that the components of `ns`, without its
trailing separators, are the first components of `topic`.  On the elements it says that
`topic` is that part of `ns`, or goes on after it with a separator (`within_iff`).
-/

namespace RerunViz.Components

variable {α : Type}

/-- A list goes on after `n` with `x` when it starts with `n` and has `x` at that index. -/
theorem append_singleton_prefix_iff {n t : List α} {x : α} :
    n ++ [x] <+: t ↔ t.take n.length = n ∧ t[n.length]? = some x := by
  constructor
  · rintro ⟨rest, rfl⟩
    simp
  · rintro ⟨htake, hget⟩
    rw [List.prefix_iff_eq_take, List.length_append, List.length_singleton, List.take_add_one,
      htake, hget, Option.toList_some]

theorem intercalate_append {s : List α} {ys zs : List (List α)} (hys : ys ≠ []) (hzs : zs ≠ []) :
    s.intercalate (ys ++ zs) = s.intercalate ys ++ s ++ s.intercalate zs := by
  induction ys with
  | nil => exact absurd rfl hys
  | cons y ys ih =>
      cases ys with
      | nil =>
          rw [List.singleton_append, List.intercalate_cons_of_ne_nil hzs,
            List.intercalate_singleton]
      | cons y' ys =>
          have hne : y' :: ys ≠ [] := List.cons_ne_nil y' ys
          rw [List.cons_append, List.intercalate_cons_of_ne_nil (List.append_ne_nil_of_left_ne_nil
            hne zs), ih hne, List.intercalate_cons_of_ne_nil hne]
          simp only [List.append_assoc]

section Separator

variable [BEq α] {sep : α}

/-- A list without its trailing separators. -/
def trimRight (sep : α) (l : List α) : List α := l.rdropWhile (· == sep)

/-- The components of `ns` begin those of `topic`. -/
def Within (sep : α) (topic ns : List α) : Prop :=
  (trimRight sep ns).splitOn sep <+: topic.splitOn sep

variable [LawfulBEq α]

theorem splitOn_injective {l m : List α} (h : l.splitOn sep = m.splitOn sep) : l = m := by
  have hjoin : [sep].intercalate (l.splitOn sep) = l := List.intercalate_splitOn sep
  rw [← hjoin, h, List.intercalate_splitOn]

/-- The components of `n` begin those of `t` when `t` is `n`, or has a separator after
it. -/
theorem splitOn_prefix_iff {n t : List α} :
    n.splitOn sep <+: t.splitOn sep ↔ t = n ∨ n ++ [sep] <+: t := by
  constructor
  · rintro ⟨rest, hrest⟩
    by_cases hnil : rest = []
    · rw [hnil, List.append_nil] at hrest
      exact Or.inl (splitOn_injective hrest.symm)
    · right
      have hjoin := congrArg [sep].intercalate hrest
      rw [intercalate_append (List.splitOn_ne_nil sep n) hnil, List.intercalate_splitOn,
        List.intercalate_splitOn] at hjoin
      exact ⟨_, hjoin⟩
  · rintro (rfl | ⟨rest, rfl⟩)
    · exact List.prefix_refl _
    · rw [List.append_assoc, List.singleton_append, List.splitOn_append_cons_self]
      exact List.prefix_append _ _

theorem within_iff {topic ns : List α} :
    Within sep topic ns ↔ topic = trimRight sep ns ∨ trimRight sep ns ++ [sep] <+: topic :=
  splitOn_prefix_iff

/-- A name that does not end in a separator has its components within those of `b` already
without the trailing separators of `b`. -/
theorem splitOn_prefix_trimRight {c b : List α} (hc : c.getLast? ≠ some sep)
    (h : c.splitOn sep <+: b.splitOn sep) : c.splitOn sep <+: (trimRight sep b).splitOn sep := by
  induction b using List.reverseRecOn with
  | nil => exact h
  | append_singleton b x ih =>
      rw [trimRight, List.rdropWhile_concat]
      split
      · rename_i hx
        obtain rfl : x = sep := eq_of_beq hx
        have hsplit : (b ++ [x]).splitOn x = b.splitOn x ++ [[]] := by
          rw [List.splitOn_append_cons_self, List.splitOn_nil]
        rw [hsplit, List.prefix_concat_iff, ← hsplit] at h
        rcases h with hwhole | hfront
        · rw [splitOn_injective hwhole] at hc
          simp at hc
        · exact ih hfront
      · exact h

theorem getLast?_trimRight {l : List α} : (trimRight sep l).getLast? ≠ some sep := by
  intro hlast
  have hne : trimRight sep l ≠ [] := by
    intro hnil
    rw [hnil] at hlast
    cases hlast
  rw [List.getLast?_eq_some_getLast hne, Option.some.injEq] at hlast
  exact List.rdropWhile_last_not (· == sep) l hne (beq_iff_eq.mpr hlast)

/-- Trailing separators of the name in the middle do not matter. -/
theorem Within.trans {a b c : List α} (hab : Within sep a b) (hbc : Within sep b c) :
    Within sep a c :=
  List.IsPrefix.trans (splitOn_prefix_trimRight getLast?_trimRight hbc) hab

theorem within_self (l : List α) : Within sep l l := by
  induction l using List.reverseRecOn with
  | nil => exact List.prefix_refl _
  | append_singleton l x ih =>
      rw [Within, trimRight, List.rdropWhile_concat]
      split
      · rename_i hx
        obtain rfl : x = sep := eq_of_beq hx
        rw [List.splitOn_append_cons_self]
        exact List.IsPrefix.trans ih (List.prefix_append _ _)
      · exact List.prefix_refl _

/-- A longer name lies within what it begins with, up to a separator. -/
theorem within_append (l rest : List α) : Within sep (l ++ sep :: rest) l := by
  have hself : Within sep l l := within_self l
  rw [Within, List.splitOn_append_cons_self]
  exact List.IsPrefix.trans hself (List.prefix_append _ _)

theorem trimRight_ne_nil_iff {l : List α} : trimRight sep l ≠ [] ↔ ∃ x ∈ l, x ≠ sep := by
  simp [trimRight]

end Separator

end RerunViz.Components
