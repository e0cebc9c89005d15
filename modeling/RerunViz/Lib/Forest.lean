import Mathlib.Data.List.Chain
import Mathlib.Logic.Function.Basic
import Mathlib.Logic.Relation

set_option autoImplicit false

/-!
# Forests given by a parent function

A partial function `parent : α → Option α` sends a node to its parent.  It is a
forest when no node is a proper ancestor of itself.  This module develops the
two notions everything else needs:

* the effect of overriding one node's parent on acyclicity
  (`not_acyclic_attach_iff`), and
* the list of ancestors of a node up to its root, `RootPath`, which exists,
  is unique and has no repetition in a finite forest.
-/

namespace RerunViz.Forest

open Relation

variable {α : Type} {parent : α → Option α}

/-- `p` is the parent of `c`. -/
def Up (parent : α → Option α) (c p : α) : Prop := parent c = some p

/-- No node is a proper ancestor of itself. -/
def Acyclic (parent : α → Option α) : Prop := ∀ x, ¬ TransGen (Up parent) x x

theorem Up.functional {c p q : α} (hp : Up parent c p) (hq : Up parent c q) : p = q :=
  Option.some.inj (hp.symm.trans hq)

theorem acyclic_empty : Acyclic (fun _ : α => none) := by
  intro x h
  obtain ⟨y, hxy, _⟩ := TransGen.head'_iff.mp h
  exact absurd hxy (by simp [Up])

/-- A relation along which a rank grows has no cycle. -/
theorem not_transGen_self_of_lt {r : α → α → Prop} (rank : α → Nat)
    (h : ∀ a b, r a b → rank a < rank b) : ∀ x, ¬ TransGen r x x := by
  intro x hx
  have hlt : ∀ y, TransGen r x y → rank x < rank y := by
    intro y hxy
    induction hxy with
    | single hab => exact h _ _ hab
    | tail _ hab ih => exact Nat.lt_trans ih (h _ _ hab)
  exact Nat.lt_irrefl _ (hlt x hx)

/-- Acyclicity passes to a relation with fewer edges. -/
theorem Acyclic.of_subrelation {r : α → α → Prop} {parent : α → Option α}
    (hr : ∀ x, ¬ TransGen r x x) (hsub : ∀ c p, parent c = some p → r c p) :
    Acyclic parent := by
  intro x h
  exact hr x (TransGen.mono hsub x x h)

/-- A path in a relation with one more edge uses that edge at most once, unless
the edge closes a cycle. -/
theorem transGen_add_edge_cases {r : α → α → Prop} {c p x y : α}
    (hpc : ¬ ReflTransGen r p c)
    (h : TransGen (fun a b => r a b ∨ (a = c ∧ b = p)) x y) :
    TransGen r x y ∨ (ReflTransGen r x c ∧ ReflTransGen r p y) := by
  induction h with
  | single hxy =>
      rcases hxy with hr | ⟨rfl, rfl⟩
      · exact Or.inl (.single hr)
      · exact Or.inr ⟨.refl, .refl⟩
  | tail _ hby ih =>
      rcases ih with hxb | ⟨hxc, hpb⟩
      · rcases hby with hr | ⟨rfl, rfl⟩
        · exact Or.inl (hxb.tail hr)
        · exact Or.inr ⟨hxb.to_reflTransGen, .refl⟩
      · rcases hby with hr | ⟨rfl, rfl⟩
        · exact Or.inr ⟨hxc, hpb.tail hr⟩
        · exact absurd hpb hpc

/-- An edge `c → p` closes no cycle when `c` cannot be reached from `p`. -/
theorem acyclic_add_edge {r : α → α → Prop} (hr : ∀ x, ¬ TransGen r x x) {c p : α}
    (hpc : ¬ ReflTransGen r p c) :
    ∀ x, ¬ TransGen (fun a b => r a b ∨ (a = c ∧ b = p)) x x := by
  intro x hx
  rcases transGen_add_edge_cases hpc hx with hold | ⟨hxc, hpx⟩
  · exact hr x hold
  · exact hpc (hpx.trans hxc)

/-! ## Overriding a parent -/

section Attach

variable [DecidableEq α]

/-- The parent function with the parent of `c` overridden by `p`. -/
def attach (parent : α → Option α) (c p : α) : α → Option α :=
  Function.update parent c (some p)

theorem attach_apply (c p x : α) :
    attach parent c p x = if x = c then some p else parent x := by
  rw [attach, Function.update_apply]

@[simp] theorem attach_self (c p : α) : attach parent c p c = some p := by
  simp [attach]

theorem up_attach_iff {c p x y : α} :
    Up (attach parent c p) x y ↔ (x = c ∧ p = y) ∨ (x ≠ c ∧ Up parent x y) := by
  unfold Up
  rw [attach_apply]
  split <;> simp_all

/-- Overriding the parent of `c` by `p` keeps the forest when `c` is neither `p`
nor an ancestor of `p`. -/
theorem acyclic_attach (hac : Acyclic parent) {c p : α}
    (h : ¬ ReflTransGen (Up parent) p c) : Acyclic (attach parent c p) := by
  refine Acyclic.of_subrelation (acyclic_add_edge hac h) ?_
  intro x y hxy
  rcases up_attach_iff.mp hxy with ⟨rfl, rfl⟩ | ⟨_, hup⟩
  · exact Or.inr ⟨rfl, rfl⟩
  · exact Or.inl hup

/-- Climbing to `c` never uses the edge out of `c`. -/
theorem reflTransGen_attach {c p x : α} (h : ReflTransGen (Up parent) x c) :
    ReflTransGen (Up (attach parent c p)) x c := by
  induction h using ReflTransGen.head_induction_on with
  | refl => exact .refl
  | @head x y hxy _ ih =>
      by_cases hx : x = c
      · subst hx; exact .refl
      · exact .head (up_attach_iff.mpr (Or.inr ⟨hx, hxy⟩)) ih

/-- Overriding the parent of `c` by `p` closes a cycle exactly when `c` is `p`
or an ancestor of `p`. -/
theorem not_acyclic_attach_iff (hac : Acyclic parent) {c p : α} :
    ¬ Acyclic (attach parent c p) ↔ ReflTransGen (Up parent) p c := by
  constructor
  · intro hcyc
    by_contra hno
    exact hcyc (acyclic_attach hac hno)
  · intro hpc hcyc
    have hfirst : Up (attach parent c p) c p := by simp [Up]
    exact hcyc c (TransGen.head' hfirst (reflTransGen_attach hpc))

end Attach

/-! ## Paths to the root -/

/-- `RootPath parent f l`: `l` lists `f`, its parent, and so on up to a node
without parent. -/
inductive RootPath (parent : α → Option α) : α → List α → Prop
  | root {f : α} (h : parent f = none) : RootPath parent f [f]
  | step {f p : α} {l : List α} (h : parent f = some p) (rest : RootPath parent p l) :
      RootPath parent f (f :: l)

namespace RootPath

theorem head_eq {f : α} {l : List α} (h : RootPath parent f l) : l.head? = some f := by
  cases h <;> rfl

theorem exists_cons {f : α} {l : List α} (h : RootPath parent f l) :
    ∃ rest, l = f :: rest := by
  cases h with
  | root _ => exact ⟨[], rfl⟩
  | step _ _ => exact ⟨_, rfl⟩

theorem ne_nil {f : α} {l : List α} (h : RootPath parent f l) : l ≠ [] := by
  cases h <;> simp

theorem isChain {f : α} {l : List α} (h : RootPath parent f l) :
    l.IsChain (Up parent) := by
  induction h with
  | root _ => exact .singleton _
  | step hup rest ih =>
      obtain ⟨l', rfl⟩ := rest.exists_cons
      exact List.isChain_cons_cons.mpr ⟨hup, ih⟩

theorem getLast_root {f r : α} {l : List α} (h : RootPath parent f l)
    (hr : l.getLast? = some r) : parent r = none := by
  induction h with
  | root hroot => simp at hr; exact hr ▸ hroot
  | step hup rest ih =>
      obtain ⟨l', rfl⟩ := rest.exists_cons
      exact ih (by simpa using hr)

/-- The path is determined by its first node. -/
theorem unique {f : α} {l l' : List α} (h : RootPath parent f l)
    (h' : RootPath parent f l') : l = l' := by
  induction h generalizing l' with
  | root hroot =>
      cases h' with
      | root _ => rfl
      | step hup _ => rw [hroot] at hup; cases hup
  | step hup _ ih =>
      cases h' with
      | root hroot => rw [hroot] at hup; cases hup
      | step hup' rest' =>
          obtain rfl := Option.some.inj (hup.symm.trans hup')
          rw [ih rest']

/-- The path holds exactly the node and its ancestors. -/
theorem mem_iff {f x : α} {l : List α} (h : RootPath parent f l) :
    x ∈ l ↔ ReflTransGen (Up parent) f x := by
  induction h with
  | @root f hroot =>
      rw [List.mem_singleton]
      constructor
      · rintro rfl; exact .refl
      · intro hfx
        rcases hfx.cases_head with rfl | ⟨y, hfy, _⟩
        · rfl
        · rw [Up, hroot] at hfy; cases hfy
  | @step f p l hup _ ih =>
      rw [List.mem_cons, ih]
      constructor
      · rintro (rfl | hpx)
        · exact .refl
        · exact .head hup hpx
      · intro hfx
        rcases hfx.cases_head with rfl | ⟨y, hfy, hyx⟩
        · exact Or.inl rfl
        · obtain rfl := Up.functional hfy hup
          exact Or.inr hyx

/-- Every node of the path starts its own path, which is a suffix. -/
theorem suffix_of_mem {f x : α} {l : List α} (h : RootPath parent f l) (hx : x ∈ l) :
    ∃ pre l', l = pre ++ l' ∧ RootPath parent x l' := by
  induction h with
  | @root f hroot =>
      obtain rfl := List.mem_singleton.mp hx
      exact ⟨[], [x], rfl, .root hroot⟩
  | @step f p l hup rest ih =>
      rcases List.mem_cons.mp hx with rfl | hmem
      · exact ⟨[], x :: l, rfl, .step hup rest⟩
      · obtain ⟨pre, l', rfl, hl'⟩ := ih hmem
        exact ⟨f :: pre, l', rfl, hl'⟩

/-- A path that ends repeats no node: a repeated node would start two paths of
different lengths. -/
theorem nodup {f : α} {l : List α} (h : RootPath parent f l) : l.Nodup := by
  induction h with
  | root _ => simp
  | @step f p l hup rest ih =>
      refine List.nodup_cons.mpr ⟨?_, ih⟩
      intro hmem
      obtain ⟨pre, l', hl, hl'⟩ := rest.suffix_of_mem hmem
      have heq := hl'.unique (.step hup rest)
      have hlen := congrArg List.length hl
      rw [heq, List.length_append, List.length_cons] at hlen
      omega

/-- All nodes but the last have a parent. -/
theorem dropLast_subset {keys : List α} (hkeys : ∀ c p, parent c = some p → c ∈ keys)
    {f : α} {l : List α} (h : RootPath parent f l) : l.dropLast ⊆ keys := by
  induction h with
  | root _ => simp
  | @step f p l hup rest ih =>
      obtain ⟨l', rfl⟩ := rest.exists_cons
      rw [List.dropLast_cons_of_ne_nil (List.cons_ne_nil p l')]
      exact List.cons_subset.mpr ⟨hkeys f p hup, ih⟩

/-- A path has at most one node more than there are parented ones. -/
theorem length_le {keys : List α} (hkeys : ∀ c p, parent c = some p → c ∈ keys)
    {f : α} {l : List α} (h : RootPath parent f l) : l.length ≤ keys.length + 1 := by
  have hnd : l.dropLast.Nodup := h.nodup.sublist (List.dropLast_sublist l)
  have hle := hnd.length_le_of_subset (h.dropLast_subset hkeys)
  rw [List.length_dropLast] at hle
  omega

end RootPath

/-- A node whose climb has already passed through `seen` has a root path. -/
theorem exists_rootPath_aux (hac : Acyclic parent) {keys : List α}
    (hkeys : ∀ c p, parent c = some p → c ∈ keys) (n : Nat) :
    ∀ (seen : List α) (f : α), seen.Nodup → seen ⊆ keys →
      (∀ x ∈ seen, TransGen (Up parent) x f) → keys.length - seen.length = n →
      ∃ l, RootPath parent f l := by
  induction n using Nat.strong_induction_on with
  | _ n ih =>
      intro seen f hnd hsub hreach hlen
      cases hf : parent f with
      | none => exact ⟨[f], .root hf⟩
      | some p =>
          have hnot : f ∉ seen := fun hmem => hac f (hreach f hmem)
          have hnd' : (f :: seen).Nodup := List.nodup_cons.mpr ⟨hnot, hnd⟩
          have hsub' : f :: seen ⊆ keys := List.cons_subset.mpr ⟨hkeys f p hf, hsub⟩
          have hreach' : ∀ x ∈ f :: seen, TransGen (Up parent) x p := by
            intro x hx
            rcases List.mem_cons.mp hx with rfl | hmem
            · exact .single hf
            · exact (hreach x hmem).tail hf
          have hle := hnd'.length_le_of_subset hsub'
          rw [List.length_cons] at hle
          obtain ⟨l, hl⟩ := ih (n - 1) (by omega) (f :: seen) p hnd' hsub' hreach'
            (by rw [List.length_cons]; omega)
          exact ⟨f :: l, .step hf hl⟩

/-- In a forest with finitely many parented nodes every node has a root path. -/
theorem exists_rootPath (hac : Acyclic parent) {keys : List α}
    (hkeys : ∀ c p, parent c = some p → c ∈ keys) (f : α) : ∃ l, RootPath parent f l :=
  exists_rootPath_aux hac hkeys keys.length [] f List.nodup_nil (by simp) (by simp) (by simp)

end RerunViz.Forest
