import Mathlib.Data.List.Infix

set_option autoImplicit false

/-!
# First occurrence of a sublist

`find sub s` is the index of the first place where `sub` occurs in `s` as a
contiguous block.  For a two-element separator `[a, b]` with `a ≠ b` the
separator cannot overlap with its neighbours, so in `p ++ [a, b] ++ c` it is
found right after `p` unless `p` holds one itself (`find_append_sep`), and the
join `p ++ [a, b] ++ c` determines `p` and `c` under the same proviso
(`join_injective`).
-/

namespace RerunViz.Separator

variable {α : Type}

/-- Index of the first occurrence of `sub`, or `none`. -/
def find [DecidableEq α] (sub : List α) : List α → Option Nat
  | [] => if sub = [] then some 0 else none
  | x :: xs =>
      if sub <+: x :: xs then some 0
      else (find sub xs).map (· + 1)

/-- A block inside `p` is found before `p` ends, whatever follows. -/
theorem find_of_infix [DecidableEq α] {sub p : List α} (h : sub <:+: p) (c : List α) :
    ∃ i, find sub (p ++ c) = some i ∧ i + sub.length ≤ p.length := by
  induction p with
  | nil =>
      rw [List.infix_nil] at h
      subst h
      cases c <;> simp [find]
  | cons x p ih =>
      rw [List.cons_append, find]
      by_cases hhere : sub <+: x :: (p ++ c)
      · have hle : sub.length ≤ (x :: p).length := h.length_le
        exact ⟨0, if_pos hhere, by omega⟩
      · rw [if_neg hhere]
        rcases List.infix_cons_iff.mp h with hfirst | hlater
        · have hgrown : sub <+: x :: p ++ c := hfirst.trans (List.prefix_append _ _)
          exact absurd hgrown hhere
        · obtain ⟨i, hi, hle⟩ := ih hlater
          refine ⟨i + 1, by rw [hi]; rfl, ?_⟩
          rw [List.length_cons]
          omega

section Separator

variable {a b : α}

/-- A separator that straddles the end of `p` would make its two elements equal. -/
theorem sep_prefix_append_iff (hab : a ≠ b) {x : α} {p c : List α} :
    [a, b] <+: x :: p ++ a :: b :: c ↔ [a, b] <+: x :: p := by
  cases p with
  | nil => simp [List.cons_prefix_cons, hab.symm]
  | cons y p => simp [List.cons_prefix_cons]

/-- The separator is found at the end of `p` when `p` does not hold it. -/
theorem find_append_sep [DecidableEq α] (hab : a ≠ b) {p : List α}
    (hp : ¬ [a, b] <:+: p) (c : List α) : find [a, b] (p ++ a :: b :: c) = some p.length := by
  induction p with
  | nil => simp [find, List.cons_prefix_cons]
  | cons x p ih =>
      rw [List.infix_cons_iff, not_or] at hp
      have hpre : ¬ [a, b] <+: x :: (p ++ a :: b :: c) := by
        rw [← List.cons_append, sep_prefix_append_iff hab]
        exact hp.1
      rw [List.cons_append, find, if_neg hpre, ih hp.2]
      simp

/-- Two joins agree only if their first parts do, or one part holds a separator. -/
theorem join_eq_cases (hab : a ≠ b) {p p' c c' : List α}
    (h : p ++ a :: b :: c = p' ++ a :: b :: c') :
    (p = p' ∧ c = c') ∨
      (∃ z, p' = p ++ a :: b :: z ∧ c = z ++ a :: b :: c') ∨
      (∃ z, p = p' ++ a :: b :: z ∧ c' = z ++ a :: b :: c) := by
  -- the overlap between two separators would have length one, so `a = b`
  have hoverlap : ∀ z d d' : List α, a :: b :: d = z ++ a :: b :: d' →
      (z = [] ∧ d = d') ∨ ∃ z', z = a :: b :: z' ∧ d = z' ++ a :: b :: d' := by
    intro z d d' hz
    match z with
    | [] => exact Or.inl ⟨rfl, by simpa using hz⟩
    | [x] =>
        simp only [List.cons_append, List.nil_append, List.cons.injEq] at hz
        exact absurd hz.2.1.symm hab
    | x :: y :: z' =>
        simp only [List.cons_append, List.cons.injEq] at hz
        obtain ⟨rfl, rfl, hd⟩ := hz
        exact Or.inr ⟨z', rfl, hd⟩
  rcases List.append_eq_append_iff.mp h with ⟨z, rfl, hz⟩ | ⟨z, rfl, hz⟩
  · rcases hoverlap z c c' hz with ⟨rfl, rfl⟩ | ⟨z', rfl, rfl⟩
    · exact Or.inl ⟨by simp, rfl⟩
    · exact Or.inr (Or.inl ⟨z', rfl, rfl⟩)
  · rcases hoverlap z c' c hz with ⟨rfl, rfl⟩ | ⟨z', rfl, rfl⟩
    · exact Or.inl ⟨by simp, rfl⟩
    · exact Or.inr (Or.inr ⟨z', rfl, rfl⟩)

theorem sep_infix_append (p c : List α) : [a, b] <:+: p ++ a :: b :: c :=
  ⟨p, c, by simp⟩

/-- Joins whose first parts hold no separator determine both parts. -/
theorem join_injective (hab : a ≠ b) {p p' c c' : List α}
    (hp : ¬ [a, b] <:+: p) (hp' : ¬ [a, b] <:+: p')
    (h : p ++ a :: b :: c = p' ++ a :: b :: c') : p = p' ∧ c = c' := by
  rcases join_eq_cases hab h with heq | ⟨z, rfl, _⟩ | ⟨z, rfl, _⟩
  · exact heq
  · exact absurd (sep_infix_append p z) hp'
  · exact absurd (sep_infix_append p' z) hp

/-- A join of two parts without separator has no other reading. -/
theorem join_unique (hab : a ≠ b) {p p' c c' : List α}
    (hp : ¬ [a, b] <:+: p) (hc : ¬ [a, b] <:+: c)
    (h : p' ++ a :: b :: c' = p ++ a :: b :: c) : p' = p ∧ c' = c := by
  rcases join_eq_cases hab h with heq | ⟨z, rfl, _⟩ | ⟨z, _, rfl⟩
  · exact heq
  · exact absurd (sep_infix_append p' z) hp
  · exact absurd (sep_infix_append z c') hc

/-- A part that holds a separator gives the join a second reading. -/
theorem exists_other_join {p c : List α} (h : [a, b] <:+: p ∨ [a, b] <:+: c) :
    ∃ p' c', (p', c') ≠ (p, c) ∧ p' ++ a :: b :: c' = p ++ a :: b :: c := by
  rcases h with ⟨u, v, rfl⟩ | ⟨u, v, rfl⟩
  · refine ⟨u, v ++ a :: b :: c, ?_, by simp⟩
    intro heq
    have hlen := congrArg (fun q => q.1.length) heq
    simp at hlen
  · refine ⟨p ++ a :: b :: u, v, ?_, by simp⟩
    intro heq
    have hlen := congrArg (fun q => q.1.length) heq
    simp at hlen

end Separator

end RerunViz.Separator
