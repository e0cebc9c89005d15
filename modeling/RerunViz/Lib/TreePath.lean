import Mathlib.Data.List.Nodup
import RerunViz.Lib.Forest

set_option autoImplicit false

/-!
# Paths in a forest

Two nodes of a forest are adjacent when one is the parent of the other.  A simple
path between two nodes is unique: it climbs from the first to the lowest common
ancestor and descends to the second, so it can be read off the two root paths
(`SimplePath.eq_joinAt`).  Two nodes are connected exactly when their root paths end
in the same root (`connected_iff`).
-/

namespace RerunViz.Forest

open Relation

variable {α : Type} {parent : α → Option α}

/-- `l` leads from `x` to `y` along `r` and repeats no node. -/
structure SimplePath (r : α → α → Prop) (x y : α) (l : List α) : Prop where
  head_eq : l.head? = some x
  getLast_eq : l.getLast? = some y
  chain : l.IsChain r
  nodup : l.Nodup

/-- One node is the parent of the other. -/
def Adj (parent : α → Option α) (x y : α) : Prop := Up parent y x ∨ Up parent x y

instance : Std.Symm (Adj parent) := ⟨fun _ _ h => Or.symm h⟩

namespace SimplePath

variable {r : α → α → Prop} {x y : α} {l : List α}

theorem singleton (x : α) : SimplePath r x x [x] := ⟨rfl, rfl, .singleton x, by simp⟩

/-- What is left of a path after its first step. -/
theorem tail_cons {z : α} (h : SimplePath r x y (x :: z :: l)) :
    r x z ∧ x ∉ z :: l ∧ SimplePath r z y (z :: l) := by
  obtain ⟨hstep, hchain⟩ := List.isChain_cons_cons.mp h.chain
  obtain ⟨hnot, hnodup⟩ := List.nodup_cons.mp h.nodup
  exact ⟨hstep, hnot, rfl, by simpa using h.getLast_eq, hchain, hnodup⟩

theorem reverse [Std.Symm r] (h : SimplePath r x y l) : SimplePath r y x l.reverse where
  head_eq := by rw [List.head?_reverse, h.getLast_eq]
  getLast_eq := by rw [List.getLast?_reverse, h.head_eq]
  chain := List.isChain_reverse.mpr (h.chain.imp fun _ _ hab => symm hab)
  nodup := List.nodup_reverse.mpr h.nodup

theorem reachable (h : SimplePath r x y l) : ReflTransGen r x y := by
  induction l generalizing x with
  | nil => cases h.head_eq
  | cons z l ih =>
      obtain rfl : z = x := Option.some.inj h.head_eq
      cases l with
      | nil =>
          have hlast := h.getLast_eq
          rw [List.getLast?_singleton, Option.some.injEq] at hlast
          rw [hlast]
      | cons w l =>
          obtain ⟨hstep, _, htail⟩ := h.tail_cons
          exact .head hstep (ih htail)

end SimplePath

/-! ## Connected nodes -/

/-- Adjacent nodes have the same root. -/
theorem getLast_eq_of_adj {x y : α} {lx ly : List α} (hx : RootPath parent x lx)
    (hy : RootPath parent y ly) (h : Adj parent x y) : lx.getLast? = ly.getLast? := by
  rcases h with hup | hup
  · obtain rfl := hy.unique (.step hup hx)
    obtain ⟨rest, rfl⟩ := hx.exists_cons
    simp
  · obtain rfl := hx.unique (.step hup hy)
    obtain ⟨rest, rfl⟩ := hy.exists_cons
    simp

/-- A node reaches the root its path ends in. -/
theorem RootPath.reaches_last {x r : α} {l : List α} (h : RootPath parent x l)
    (hr : l.getLast? = some r) : ReflTransGen (Adj parent) x r := by
  have hclimb : ReflTransGen (Up parent) x r := h.mem_iff.mp (List.mem_of_getLast? hr)
  exact ReflTransGen.mono (fun _ _ hup => Or.inr hup) x r hclimb

/-- Two nodes are connected exactly when their paths end in the same root. -/
theorem connected_iff (hroots : ∀ z, ∃ l, RootPath parent z l) {x y : α} {lx ly : List α}
    (hx : RootPath parent x lx) (hy : RootPath parent y ly) :
    ReflTransGen (Adj parent) x y ↔ lx.getLast? = ly.getLast? := by
  constructor
  · intro h
    induction h generalizing ly with
    | refl => rw [hx.unique hy]
    | @tail z w _ hzw ih =>
        obtain ⟨lz, hz⟩ := hroots z
        rw [ih hz, getLast_eq_of_adj hz hy hzw]
  · intro h
    obtain ⟨r, hr⟩ : ∃ r, lx.getLast? = some r :=
      Option.isSome_iff_exists.mp (List.getLast?_isSome.mpr hx.ne_nil)
    have hyr : ReflTransGen (Adj parent) y r := hy.reaches_last (h ▸ hr)
    exact (hx.reaches_last hr).trans (symm hyr)

/-! ## The path between two nodes -/

section JoinAt

variable [DecidableEq α]

/-- The elements of the first list up to and including the first that also occurs in the
second, followed by those of the second that precede it, in reverse order. -/
def joinAt : List α → List α → List α
  | [], _ => []
  | x :: xs, ys =>
      if x ∈ ys then x :: (ys.takeWhile (· ≠ x)).reverse
      else x :: joinAt xs ys

theorem joinAt_cons_of_mem {x : α} (xs : List α) {ys : List α} (h : x ∈ ys) :
    joinAt (x :: xs) ys = x :: (ys.takeWhile (· ≠ x)).reverse := if_pos h

theorem joinAt_cons_of_notMem {x : α} (xs : List α) {ys : List α} (h : x ∉ ys) :
    joinAt (x :: xs) ys = x :: joinAt xs ys := if_neg h

theorem mem_joinAt_cons (x : α) (xs ys : List α) : x ∈ joinAt (x :: xs) ys := by
  rw [joinAt]
  split <;> exact List.mem_cons_self

theorem takeWhile_ne_append_cons {pre : List α} {x : α} (post : List α) (h : x ∉ pre) :
    (pre ++ x :: post).takeWhile (· ≠ x) = pre := by
  rw [List.takeWhile_append_of_pos]
  · simp
  · intro y hy
    simpa using fun heq : y = x => h (heq ▸ hy)

/-- The root path of a node splits at each of its ancestors. -/
theorem RootPath.split {y x : α} {ly lx : List α} (hy : RootPath parent y ly)
    (hx : RootPath parent x lx) (hmem : x ∈ ly) :
    ∃ pre, ly = pre ++ lx ∧ ly.takeWhile (· ≠ x) = pre := by
  obtain ⟨pre, l', rfl, hl'⟩ := hy.suffix_of_mem hmem
  obtain rfl := hx.unique hl'
  obtain ⟨rest, rfl⟩ := hx.exists_cons
  have hnot : x ∉ pre := by
    intro hpre
    exact (List.nodup_append.mp hy.nodup).2.2 x hpre x List.mem_cons_self rfl
  exact ⟨pre, rfl, takeWhile_ne_append_cons rest hnot⟩

/-- A path that starts upwards leaves from a node that is no ancestor of its end: the
node would lie on the way back down. -/
theorem notMem_of_up {x z y : α} {lz ly : List α} (hup : Up parent x z)
    (hz : RootPath parent z lz) (hy : RootPath parent y ly) (hnot : x ∉ joinAt lz ly) :
    x ∉ ly := by
  intro hmem
  obtain ⟨pre, rfl, _⟩ := hy.split (.step hup hz) hmem
  obtain ⟨rest, rfl⟩ := hz.exists_cons
  have hassoc : pre ++ x :: z :: rest = (pre ++ [x]) ++ z :: rest := by simp
  have hz' : z ∈ pre ++ x :: z :: rest := by simp
  obtain ⟨pre', heq, htake⟩ := hy.split hz hz'
  rw [hassoc, List.append_cancel_right_eq] at heq
  apply hnot
  rw [joinAt_cons_of_mem rest hz', htake, ← heq]
  simp

/-- A path that starts downwards goes to an ancestor of its end: from another node it
would have to come back up. -/
theorem mem_of_down {x z : α} {lx ly : List α} (hx : RootPath parent x lx)
    (hnot : x ∉ joinAt (z :: lx) ly) : z ∈ ly := by
  by_contra hz
  obtain ⟨rest, rfl⟩ := hx.exists_cons
  apply hnot
  rw [joinAt_cons_of_notMem _ hz]
  exact List.mem_cons_of_mem z (mem_joinAt_cons x rest ly)

/-- Simple paths in a forest are unique: the root paths joined where they meet. -/
theorem SimplePath.eq_joinAt {x y : α} {l lx ly : List α}
    (h : SimplePath (Adj parent) x y l) (hx : RootPath parent x lx)
    (hy : RootPath parent y ly) : l = joinAt lx ly := by
  induction l generalizing x lx with
  | nil => cases h.head_eq
  | cons w l ih =>
      obtain rfl : w = x := Option.some.inj h.head_eq
      cases l with
      | nil =>
          obtain rfl : w = y := by simpa using h.getLast_eq
          obtain rfl := hx.unique hy
          obtain ⟨rest, rfl⟩ := hx.exists_cons
          rw [joinAt_cons_of_mem rest List.mem_cons_self]
          simp
      | cons z l =>
          obtain ⟨hadj, hnot, htail⟩ := h.tail_cons
          rcases hadj with hdown | hup
          · -- down to `z`, whose root path is that of `w` with `z` in front
            have heq := ih htail (.step hdown hx)
            rw [heq] at hnot ⊢
            have hz : z ∈ ly := mem_of_down hx hnot
            obtain ⟨pre, rfl, hpre⟩ := hy.split (.step hdown hx) hz
            obtain ⟨rest, rfl⟩ := hx.exists_cons
            have hw : w ∈ pre ++ z :: w :: rest := by simp
            obtain ⟨pre', heq', htake⟩ := hy.split hx hw
            have hassoc : pre ++ z :: w :: rest = (pre ++ [z]) ++ w :: rest := by simp
            rw [hassoc, List.append_cancel_right_eq] at heq'
            rw [joinAt_cons_of_mem _ hz, joinAt_cons_of_mem _ hw, hpre, htake, ← heq']
            simp
          · -- up to `z`, whose root path is the rest of that of `w`
            obtain ⟨lz, hz⟩ : ∃ lz, RootPath parent z lz := by
              cases hx with
              | root hroot => rw [Up, hroot] at hup; cases hup
              | step hup' rest =>
                  obtain rfl := Up.functional hup' hup
                  exact ⟨_, rest⟩
            obtain rfl := hx.unique (.step hup hz)
            have heq := ih htail hz
            rw [heq] at hnot ⊢
            rw [joinAt_cons_of_notMem _ (notMem_of_up hup hz hy hnot)]

end JoinAt

end RerunViz.Forest
