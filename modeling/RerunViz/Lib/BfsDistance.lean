import Mathlib.Order.Lattice.Nat
import RerunViz.Lib.Bfs

set_option autoImplicit false

/-!
# The search discovers nodes at their least distance

`Steps next source n x` says that some walk of `n` steps leads from the source to
`x`, and `distance` is the length of the shortest one.  `Leveled` is the invariant
of the search: the queue is sorted by distance and spans at most two levels, and
every predecessor link goes one level down.  So the walk back from a discovered
target has as many nodes as a shortest path (`shortest_of_chain`).
-/

namespace RerunViz.Bfs

open Relation

variable {α : Type}

/-- Some walk of `n` steps leads from the source to a node. -/
inductive Steps (next : α → List α) (source : α) : Nat → α → Prop
  | refl : Steps next source 0 source
  | tail {n : Nat} {x y : α} (hx : Steps next source n x) (hy : y ∈ next x) :
      Steps next source (n + 1) y

/-- The number of steps of a shortest walk from the source. -/
noncomputable def distance (next : α → List α) (source x : α) : Nat :=
  sInf { n | Steps next source n x }

section Distance

variable {next : α → List α} {source x y : α} {n : Nat}

theorem Steps.distance_le (h : Steps next source n x) : distance next source x ≤ n :=
  Nat.sInf_le h

/-- A shortest walk to a node that some walk leads to. -/
theorem Steps.shortest (h : Steps next source n x) :
    Steps next source (distance next source x) x :=
  Nat.sInf_mem (s := { n | Steps next source n x }) ⟨n, h⟩

@[simp] theorem distance_source : distance next source source = 0 :=
  Nat.le_zero.mp Steps.refl.distance_le

/-- A list along the neighbours is a walk of one step less than it has nodes. -/
theorem Steps.of_chain {l : List α} (hchain : l.IsChain fun a b => b ∈ next a)
    (hhead : l.head? = some source) (hlast : l.getLast? = some x) :
    Steps next source (l.length - 1) x := by
  induction l using List.reverseRecOn generalizing x with
  | nil => cases hhead
  | append_singleton l y ih =>
      obtain rfl : y = x := by simpa using hlast
      rw [List.length_append, List.length_singleton, Nat.add_sub_cancel]
      cases hl : l.getLast? with
      | none =>
          obtain rfl := List.getLast?_eq_none_iff.mp hl
          obtain rfl : y = source := by simpa using hhead
          exact .refl
      | some z =>
          have hne : l ≠ [] := by
            rintro rfl
            cases hl
          rw [List.isChain_append] at hchain
          rw [List.head?_append_of_ne_nil l hne] at hhead
          have hstep := Steps.tail (ih hchain.1 hhead hl) (hchain.2.2 z hl y rfl)
          have hpos := List.length_pos_of_ne_nil hne
          rwa [Nat.sub_add_cancel hpos] at hstep

end Distance

/-! ## The levels of the search -/

variable [DecidableEq α]

/-- What holds of the search while nodes at distance `d` are being left. -/
structure Leveled (next : α → List α) (source : α) (d : Nat) (s : State α) : Prop where
  reached : ∀ x ∈ s.visited, Steps next source (distance next source x) x
  link : ∀ x y, s.cameFrom.lookup x = some y →
    distance next source x = distance next source y + 1
  seen : ∀ n ≤ d, ∀ x, Steps next source n x → x ∈ s.visited
  sorted : s.queue.Pairwise fun x y => distance next source x ≤ distance next source y
  lower : ∀ x ∈ s.queue, d ≤ distance next source x
  upper : ∀ x ∈ s.queue, distance next source x ≤ d + 1

namespace Leveled

variable {next : α → List α} {source target : α} {d : Nat} {s : State α}

theorem init : Leveled next source 0 (State.init source) where
  reached := by
    intro x hx
    obtain rfl := List.mem_singleton.mp hx
    exact Steps.refl.shortest
  link := by simp [State.init]
  seen := by
    intro n hn x hx
    obtain rfl := Nat.le_zero.mp hn
    cases hx
    exact List.mem_singleton_self source
  sorted := List.pairwise_singleton _ source
  lower := fun _ _ => Nat.zero_le _
  upper := by simp [State.init]

/-- A node first seen from a node at distance `d` is one step farther. -/
theorem distance_eq (h : Leveled next source d s) {current y : α}
    (hcurrent : current ∈ s.visited) (hd : distance next source current = d)
    (hy : y ∈ next current) (hnew : y ∉ s.visited) :
    Steps next source (d + 1) y ∧ distance next source y = d + 1 := by
  have hsteps : Steps next source (d + 1) y := .tail (hd ▸ h.reached current hcurrent) hy
  refine ⟨hsteps, Nat.le_antisymm hsteps.distance_le ?_⟩
  by_contra hlt
  exact hnew (h.seen _ (by omega) y hsteps.shortest)

theorem push (h : Leveled next source d s) {current y : α} (hcurrent : current ∈ s.visited)
    (hd : distance next source current = d) (hy : y ∈ next current) (hnew : y ∉ s.visited) :
    Leveled next source d (s.push current y) := by
  obtain ⟨hsteps, hdist⟩ := h.distance_eq hcurrent hd hy hnew
  constructor
  case reached =>
    intro x hx
    rcases List.mem_cons.mp hx with rfl | hx
    · exact hsteps.shortest
    · exact h.reached x hx
  case link =>
    intro x z hlookup
    simp only [State.push] at hlookup
    by_cases hx : x = y
    · subst hx
      rw [AList.lookup_insert, Option.some.injEq] at hlookup
      rw [hdist, ← hlookup, hd]
    · rw [AList.lookup_insert_ne hx] at hlookup
      exact h.link x z hlookup
  case seen => exact fun n hn x hx => List.mem_cons_of_mem y (h.seen n hn x hx)
  case sorted =>
    rw [State.push, List.pairwise_append]
    refine ⟨h.sorted, List.pairwise_singleton _ y, ?_⟩
    intro x hx z hz
    rw [List.mem_singleton.mp hz, hdist]
    exact h.upper x hx
  case lower =>
    intro x hx
    rcases List.mem_append.mp hx with hx | hx
    · exact h.lower x hx
    · rw [List.mem_singleton.mp hx, hdist]
      exact Nat.le_succ d
  case upper =>
    intro x hx
    rcases List.mem_append.mp hx with hx | hx
    · exact h.upper x hx
    · exact (List.mem_singleton.mp hx).symm ▸ Nat.le_of_eq hdist

/-- Discovering neighbours of a node at distance `d` keeps the levels. -/
theorem discover (h : Leveled next source d s) {current : α} (hcurrent : current ∈ s.visited)
    (hd : distance next source current = d) {todo : List α} (htodo : todo ⊆ next current) :
    Leveled next source d (discover target current todo s).2 := by
  induction todo generalizing s with
  | nil => exact h
  | cons y ys ih =>
      rw [List.cons_subset] at htodo
      rw [Bfs.discover]
      split
      · exact ih h hcurrent htodo.2
      · rename_i hnew
        have hpush := h.push hcurrent hd htodo.1 hnew
        split
        · exact hpush
        · exact ih hpush (List.mem_cons_of_mem y hcurrent) htodo.2

/-- When the front of the queue leaves it, its level is the one being left. -/
theorem pop (h : Leveled next source d s) (hinv : Inv next source target s) {current : α}
    {queue : List α} (hq : s.queue = current :: queue) :
    Leveled next source (distance next source current) { s with queue := queue } := by
  have hmem : current ∈ s.queue := hq ▸ List.mem_cons_self
  have hsorted := hq ▸ h.sorted
  have hlower := h.lower current hmem
  have hupper := h.upper current hmem
  constructor
  case reached => exact h.reached
  case link => exact h.link
  case seen =>
    intro n hn x hx
    by_cases hle : n ≤ d
    · exact h.seen n hle x hx
    -- the front has reached the next level, so nothing of level `d` is queued
    · cases hx with
      | refl => exact absurd (Nat.zero_le d) hle
      | @tail m y _ hy hnext =>
          have hyd : distance next source y ≤ m := hy.distance_le
          have hvisited := h.seen m (by omega) y hy
          refine hinv.closed y hvisited ?_ hnext
          intro hqueued
          rw [hq, List.mem_cons] at hqueued
          rcases hqueued with rfl | hqueued
          · omega
          · have hge := List.rel_of_pairwise_cons hsorted hqueued
            omega
  case sorted => exact hsorted.of_cons
  case lower => exact fun x hx => List.rel_of_pairwise_cons hsorted hx
  case upper =>
    intro x hx
    have hle := h.upper x (hq ▸ List.mem_cons_of_mem current hx)
    simp only at *
    omega

end Leveled

/-- The search returns with its nodes on levels. -/
theorem search_leveled {next : α → List α} {source target : α} (hne : source ≠ target)
    {nodes : Finset α} (hnodes : ∀ x, ∀ y ∈ next x, y ∈ nodes) {n : Nat}
    (hn : nodes.card + 1 < n) :
    ∃ r, Loop.run (body next target) n (State.init source) = some r ∧
      Post next source target r ∧ ∀ s, r = some s → ∃ d, Leveled next source d s := by
  refine search_keeps hne hnodes ⟨0, Leveled.init⟩ ?_ hn
  rintro s current queue hinv ⟨d, hlevel⟩ hq
  have hcurrent : current ∈ s.visited := hinv.queued (hq ▸ List.mem_cons_self)
  exact ⟨_, (hlevel.pop hinv hq).discover hcurrent rfl (List.Subset.refl _)⟩

/-- Links that go one level down lead to the source in as many steps as the level. -/
theorem Leveled.length_eq_distance {next : α → List α} {source : α} {d : Nat} {s : State α}
    (h : Leveled next source d s) {l : List α} {x : α}
    (hchain : (l ++ [source]).IsChain fun b a => s.cameFrom.lookup b = some a)
    (hhead : (l ++ [source]).head? = some x) : l.length = distance next source x := by
  induction l generalizing x with
  | nil =>
      obtain rfl : source = x := Option.some.inj hhead
      simp
  | cons y l ih =>
      obtain rfl : y = x := Option.some.inj hhead
      rw [List.cons_append, List.isChain_cons] at hchain
      obtain ⟨z, hz⟩ : ∃ z, (l ++ [source]).head? = some z := by cases l <;> simp
      rw [List.length_cons, ih hchain.2 hz, h.link y z (hchain.1 z hz)]

end RerunViz.Bfs
