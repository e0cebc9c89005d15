import Mathlib.Data.List.AList
import Mathlib.Data.List.Chain
import RerunViz.Lib.Loop
import RerunViz.Lib.Visited

set_option autoImplicit false

/-!
# Breadth-first search with predecessor links

The search keeps a queue, the list of discovered nodes (newest first) and a map
from each discovered node to the node it was discovered from.  It stops as soon
as the target is *discovered*.  `search_keeps` says that it always returns: with
the final state when the target is reachable, and with nothing when it is not.
`walk_spec` is the second loop, which follows the predecessor links from a
discovered node back to the source: it returns a path without repetition and
never asks the map for a node it does not hold.
-/

namespace RerunViz.Bfs

open Relation Loop Visited

variable {α : Type} [DecidableEq α]

/-- The state of a search. -/
structure State (α : Type) where
  queue : List α
  cameFrom : AList (fun _ : α => α)
  visited : List α

namespace State

/-- The state before the first iteration. -/
def init (source : α) : State α := ⟨[source], ∅, [source]⟩

/-- Record that `y` was discovered from `current`. -/
def push (s : State α) (current y : α) : State α :=
  { queue := s.queue ++ [y]
    cameFrom := s.cameFrom.insert y current
    visited := y :: s.visited }

end State

/-- Discover the unvisited nodes of a list in order; `true` when the target was
among them, in which case the rest is left alone. -/
def discover (target current : α) : List α → State α → Bool × State α
  | [], s => (false, s)
  | y :: ys, s =>
      if y ∈ s.visited then discover target current ys s
      else if y = target then (true, s.push current y)
      else discover target current ys (s.push current y)

/-- Discovering two lists one after the other, with the second skipped when the
target was in the first. -/
theorem discover_append (target current : α) (xs ys : List α) (s : State α) :
    discover target current (xs ++ ys) s =
      if (discover target current xs s).1 then discover target current xs s
      else discover target current ys (discover target current xs s).2 := by
  induction xs generalizing s with
  | nil => simp [discover]
  | cons x xs ih =>
      simp only [List.cons_append, discover]
      split
      · exact ih s
      · split
        · rfl
        · exact ih _

/-- One iteration: take the front of the queue and discover its neighbours. -/
def body (next : α → List α) (target : α) (s : State α) : Iter (State α) (Option (State α)) :=
  match s.queue with
  | [] => .done none
  | current :: queue =>
      match discover target current (next current) { s with queue := queue } with
      | (true, s') => .done (some s')
      | (false, s') => .next s'

/-! ## The discovered nodes form a tree -/

/-- `Discovered next source cameFrom v`: the list `v` ends in the source, and the
map links every other node to a later one that it is a neighbour of. -/
inductive Discovered (next : α → List α) (source : α) (cameFrom : AList (fun _ : α => α)) :
    List α → Prop
  | source : Discovered next source cameFrom [source]
  | cons {x y : α} {v : List α} (hv : Discovered next source cameFrom v) (hx : x ∉ v)
      (hy : y ∈ v) (hlink : cameFrom.lookup x = some y) (hnext : x ∈ next y) :
      Discovered next source cameFrom (x :: v)

namespace Discovered

variable {next : α → List α} {source : α} {cameFrom : AList (fun _ : α => α)} {v : List α}

theorem source_mem (h : Discovered next source cameFrom v) : source ∈ v := by
  induction h with
  | source => simp
  | cons _ _ _ _ _ ih => exact List.mem_cons_of_mem _ ih

theorem nodup (h : Discovered next source cameFrom v) : v.Nodup := by
  induction h with
  | source => simp
  | cons _ hx _ _ _ ih => exact List.nodup_cons.mpr ⟨hx, ih⟩

/-- A link for a node that is not in the list changes nothing. -/
theorem insert_of_notMem (h : Discovered next source cameFrom v) {x y : α} (hx : x ∉ v) :
    Discovered next source (cameFrom.insert x y) v := by
  induction h with
  | source => exact .source
  | @cons z w v hv hz hw hlink hnext ih =>
      rw [List.mem_cons, not_or] at hx
      refine .cons (ih hx.2) hz hw ?_ hnext
      rw [AList.lookup_insert_ne (Ne.symm hx.1)]
      exact hlink

end Discovered

/-! ## The search loop -/

/-- What holds before every iteration. -/
structure Inv (next : α → List α) (source target : α) (s : State α) : Prop where
  tree : Discovered next source s.cameFrom s.visited
  notMem : target ∉ s.visited
  queued : s.queue ⊆ s.visited
  /-- a discovered node that has left the queue has had its neighbours discovered -/
  closed : ∀ x ∈ s.visited, x ∉ s.queue → next x ⊆ s.visited

/-- What holds on leaving the loop. -/
def Post (next : α → List α) (source target : α) : Option (State α) → Prop
  | none => ¬ ReflTransGen (fun a b => b ∈ next a) source target
  | some s => Discovered next source s.cameFrom s.visited ∧ target ∈ s.visited

/-- How many iterations may still come: what is undiscovered, and what is queued. -/
def measure (nodes : Finset α) (s : State α) : Nat :=
  unvisited nodes s.visited + s.queue.length

section Loop

variable {next : α → List α} {source target : α}

theorem inv_init (hne : source ≠ target) : Inv next source target (State.init source) where
  tree := .source
  notMem := by simp [State.init, hne.symm]
  queued := by simp [State.init]
  closed := by simp [State.init]

/-- What holds while the neighbours of `current` are being discovered; `todo` is
the part of them that is still to come. -/
structure Scan (next : α → List α) (source target current : α) (todo : List α)
    (s : State α) : Prop where
  tree : Discovered next source s.cameFrom s.visited
  notMem : target ∉ s.visited
  queued : s.queue ⊆ s.visited
  current_mem : current ∈ s.visited
  todo_sub : todo ⊆ next current
  closed : ∀ x ∈ s.visited, x ∉ s.queue → x ≠ current → next x ⊆ s.visited
  current_closed : ∀ y ∈ next current, y ∈ s.visited ∨ y ∈ todo

theorem Scan.push {current y : α} {ys : List α} {s : State α}
    (h : Scan next source target current (y :: ys) s) (hy : y ∉ s.visited) :
    Discovered next source (s.push current y).cameFrom (s.push current y).visited :=
  .cons (h.tree.insert_of_notMem hy) hy h.current_mem
    (AList.lookup_insert s.cameFrom) (h.todo_sub List.mem_cons_self)

/-- Skipping a node that is already discovered. -/
theorem Scan.skip {current y : α} {ys : List α} {s : State α}
    (h : Scan next source target current (y :: ys) s) (hy : y ∈ s.visited) :
    Scan next source target current ys s where
  tree := h.tree
  notMem := h.notMem
  queued := h.queued
  current_mem := h.current_mem
  todo_sub := fun _ hz => h.todo_sub (List.mem_cons_of_mem y hz)
  closed := h.closed
  current_closed := by
    intro z hz
    rcases h.current_closed z hz with hvis | hmem
    · exact Or.inl hvis
    · rcases List.mem_cons.mp hmem with rfl | hmem
      · exact Or.inl hy
      · exact Or.inr hmem

/-- Discovering a node other than the target. -/
theorem Scan.discover_one {current y : α} {ys : List α} {s : State α}
    (h : Scan next source target current (y :: ys) s) (hy : y ∉ s.visited)
    (hne : y ≠ target) : Scan next source target current ys (s.push current y) where
  tree := h.push hy
  notMem := by simp [State.push, h.notMem, hne.symm]
  queued := by
    intro z hz
    simp only [State.push, List.mem_append, List.mem_singleton] at hz
    rcases hz with hz | rfl
    · exact List.mem_cons_of_mem y (h.queued hz)
    · exact List.mem_cons_self
  current_mem := List.mem_cons_of_mem y h.current_mem
  todo_sub := fun _ hz => h.todo_sub (List.mem_cons_of_mem y hz)
  closed := by
    intro z hz hnot hcur w hw
    simp only [State.push, List.mem_append, not_or, List.mem_cons] at hz hnot ⊢
    rcases hz with rfl | hz
    · exact absurd rfl hnot.2.1
    · exact Or.inr (h.closed z hz hnot.1 hcur hw)
  current_closed := by
    intro z hz
    simp only [State.push, List.mem_cons]
    rcases h.current_closed z hz with hvis | hmem
    · exact Or.inl (Or.inr hvis)
    · rcases List.mem_cons.mp hmem with rfl | hmem
      · exact Or.inl (Or.inl rfl)
      · exact Or.inr hmem

/-- Scanning to the end either finds the target or restores the loop invariant. -/
theorem Scan.discover {current : α} {todo : List α} {s : State α}
    (h : Scan next source target current todo s) :
    ((discover target current todo s).1 = true ∧
        Post next source target (some (discover target current todo s).2)) ∨
      ((discover target current todo s).1 = false ∧
        Inv next source target (discover target current todo s).2) := by
  induction todo generalizing s with
  | nil =>
      refine Or.inr ⟨rfl, h.tree, h.notMem, h.queued, ?_⟩
      intro x hx hnot y hy
      by_cases hcur : x = current
      · subst hcur
        simpa [Bfs.discover] using h.current_closed y hy
      · exact h.closed x hx hnot hcur hy
  | cons y ys ih =>
      rw [Bfs.discover]
      by_cases hy : y ∈ s.visited
      · rw [if_pos hy]
        exact ih (h.skip hy)
      · rw [if_neg hy]
        by_cases hne : y = target
        · rw [if_pos hne]
          refine Or.inl ⟨rfl, h.push hy, ?_⟩
          simp [State.push, hne]
        · rw [if_neg hne]
          exact ih (h.discover_one hy hne)

theorem Inv.scan {current : α} {queue : List α} {s : State α}
    (h : Inv next source target s) (hq : s.queue = current :: queue) :
    Scan next source target current (next current) { s with queue := queue } where
  tree := h.tree
  notMem := h.notMem
  queued := fun _ hx => h.queued (by rw [hq]; exact List.mem_cons_of_mem _ hx)
  current_mem := h.queued (by rw [hq]; exact List.mem_cons_self)
  todo_sub := List.Subset.refl _
  closed := by
    intro x hx hnot hcur
    refine h.closed x hx ?_
    rw [hq, List.mem_cons, not_or]
    exact ⟨hcur, hnot⟩
  current_closed := fun _ hy => Or.inr hy

/-- When the queue has run empty the visited nodes are closed, and the target is not among
them. -/
theorem Inv.not_reachable {s : State α} (h : Inv next source target s) (hq : s.queue = []) :
    ¬ ReflTransGen (fun a b => b ∈ next a) source target := by
  intro hreach
  have hall : ∀ x, ReflTransGen (fun a b => b ∈ next a) source x → x ∈ s.visited := by
    intro x hx
    induction hx with
    | refl => exact h.tree.source_mem
    | @tail y z _ hyz ih => exact h.closed y ih (by simp [hq]) hyz
  exact h.notMem (hall target hreach)

/-- An iteration leaves with an empty queue, leaves with the target found, or goes on with
the invariant restored. -/
theorem Inv.body_cases {s : State α} (h : Inv next source target s) :
    (s.queue = [] ∧ body next target s = .done none) ∨
      ∃ current queue, s.queue = current :: queue ∧
        ((body next target s = .done (some (Bfs.discover target current (next current)
              { s with queue := queue }).2) ∧
            Post next source target (some (Bfs.discover target current (next current)
              { s with queue := queue }).2)) ∨
          (body next target s = .next (Bfs.discover target current (next current)
              { s with queue := queue }).2 ∧
            Inv next source target (Bfs.discover target current (next current)
              { s with queue := queue }).2)) := by
  cases hq : s.queue with
  | nil => exact Or.inl ⟨rfl, by simp only [body, hq]⟩
  | cons current queue =>
      refine Or.inr ⟨current, queue, rfl, ?_⟩
      have hscan := (h.scan hq).discover
      rcases hd : Bfs.discover target current (next current) { s with queue := queue } with
        ⟨found, s'⟩
      rw [hd] at hscan
      rcases hscan with ⟨hfound, hpost⟩ | ⟨hfound, hinv⟩
      · obtain rfl : found = true := hfound
        exact Or.inl ⟨by simp only [body, hq, hd], hpost⟩
      · obtain rfl : found = false := hfound
        exact Or.inr ⟨by simp only [body, hq, hd], hinv⟩

/-- Discovering moves nodes from the undiscovered to the queue. -/
theorem measure_discover {nodes : Finset α} {current : α} {todo : List α} {s : State α}
    (htodo : ∀ y ∈ todo, y ∈ nodes) :
    measure nodes (discover target current todo s).2 ≤ measure nodes s := by
  have hpush : ∀ (y : α) (s : State α), y ∈ nodes → y ∉ s.visited →
      measure nodes (s.push current y) ≤ measure nodes s := by
    intro y s hy hnot
    have hlt := unvisited_cons_lt hy hnot
    simp only [measure, State.push, List.length_append, List.length_singleton]
    omega
  induction todo generalizing s with
  | nil => exact Nat.le_refl _
  | cons y ys ih =>
      have hys : ∀ z ∈ ys, z ∈ nodes := fun z hz => htodo z (List.mem_cons_of_mem y hz)
      rw [discover]
      split
      · exact ih hys
      · rename_i hnot
        have hle := hpush y s (htodo y List.mem_cons_self) hnot
        split
        · exact hle
        · exact Nat.le_trans (ih hys) hle

/-- The search returns within a budget above the number of nodes it can meet, and whatever
holds at first and is kept by every iteration holds of the state it returns. -/
theorem search_keeps (hne : source ≠ target) {nodes : Finset α}
    (hnodes : ∀ x, ∀ y ∈ next x, y ∈ nodes) {P : State α → Prop}
    (hinit : P (State.init source))
    (hkeep : ∀ s current queue, Inv next source target s → P s → s.queue = current :: queue →
      P (discover target current (next current) { s with queue := queue }).2)
    {n : Nat} (hn : nodes.card + 1 < n) :
    ∃ r, Loop.run (body next target) n (State.init source) = some r ∧
      Post next source target r ∧ ∀ s, r = some s → P s := by
  refine run_total (fun s => Inv next source target s ∧ P s) (measure nodes) ?_ ?_ n
    (State.init source) ⟨inv_init hne, hinit⟩ ?_
  · rintro s s' ⟨hinv, hp⟩ hb
    rcases hinv.body_cases with ⟨_, hbody⟩ | ⟨current, queue, hq, ⟨hbody, _⟩ | ⟨hbody, hinv'⟩⟩
    · rw [hbody] at hb
      cases hb
    · rw [hbody] at hb
      cases hb
    · rw [hbody] at hb
      obtain rfl := Iter.next.inj hb
      refine ⟨⟨hinv', hkeep s current queue hinv hp hq⟩, ?_⟩
      refine Nat.lt_of_le_of_lt (measure_discover (hnodes current)) ?_
      simp [measure, hq]
  · rintro s r ⟨hinv, hp⟩ hb
    rcases hinv.body_cases with ⟨hq, hbody⟩ | ⟨current, queue, hq, ⟨hbody, hpost⟩ | ⟨hbody, _⟩⟩
    · rw [hbody] at hb
      obtain rfl := Iter.done.inj hb
      exact ⟨hinv.not_reachable hq, nofun⟩
    · rw [hbody] at hb
      obtain rfl := Iter.done.inj hb
      exact ⟨hpost, fun s' hs' => Option.some.inj hs' ▸ hkeep s current queue hinv hp hq⟩
    · rw [hbody] at hb
      cases hb
  · have hle := unvisited_le_card nodes (State.init source).visited
    have hlen : (State.init source).queue.length = 1 := rfl
    simp only [measure]
    omega

end Loop

/-! ## Following the predecessor links -/

/-- The value stored at a key, with the default inserted first when there is none. -/
def lookupOrInsert [Inhabited α] (m : AList (fun _ : α => α)) (x : α) :
    α × AList (fun _ : α => α) :=
  match m.lookup x with
  | some y => (y, m)
  | none => (default, m.insert x default)

/-- The state of the walk: the nodes passed, the current node and the map. -/
structure Walk (α : Type) where
  path : List α
  step : α
  cameFrom : AList (fun _ : α => α)

/-- One step of the walk back to the source. -/
def walkBody [Inhabited α] (source : α) (w : Walk α) : Iter (Walk α) (Walk α) :=
  if w.step = source then .done w
  else
    let (previous, cameFrom) := lookupOrInsert w.cameFrom w.step
    .next ⟨w.path ++ [w.step], previous, cameFrom⟩

/-- From a discovered node the walk returns to the source through discovered
nodes, each a neighbour of the next, without changing the map. -/
theorem walk_spec [Inhabited α] {next : α → List α} {source : α}
    {cameFrom : AList (fun _ : α => α)} {v : List α}
    (h : Discovered next source cameFrom v) {x : α} (hx : x ∈ v) :
    ∃ l : List α, (l ++ [source]).Sublist v ∧ (l ++ [source]).head? = some x ∧
      (l ++ [source]).IsChain (fun b a => cameFrom.lookup b = some a ∧ b ∈ next a) ∧
      ∀ (pre : List α) (n : Nat), v.length ≤ n →
        Loop.run (walkBody source) n ⟨pre, x, cameFrom⟩ =
          some ⟨pre ++ l, source, cameFrom⟩ := by
  induction h generalizing x with
  | source =>
      obtain rfl := List.mem_singleton.mp hx
      refine ⟨[], by simp, rfl, .singleton _, ?_⟩
      intro pre n hn
      obtain ⟨m, rfl⟩ : ∃ m, n = m + 1 := ⟨n - 1, by simp at hn; omega⟩
      rw [run_succ_of_done m (r := ⟨pre, x, cameFrom⟩) (by simp [walkBody])]
      simp
  | @cons z y v hv hz hy hlink hnext ih =>
      rcases List.mem_cons.mp hx with rfl | hmem
      · obtain ⟨l, hsub, hhead, hchain, hrun⟩ := ih hy
        have hne : x ≠ source := fun heq => hz (heq ▸ hv.source_mem)
        refine ⟨x :: l, hsub.cons_cons x, rfl, ?_, ?_⟩
        · rw [List.cons_append]
          refine List.isChain_cons.mpr ⟨?_, hchain⟩
          intro w hw
          rw [hhead, Option.mem_some_iff] at hw
          exact hw ▸ ⟨hlink, hnext⟩
        · intro pre n hn
          obtain ⟨m, rfl⟩ : ∃ m, n = m + 1 := ⟨n - 1, by simp at hn; omega⟩
          have hstep : walkBody source ⟨pre, x, cameFrom⟩ =
              .next ⟨pre ++ [x], y, cameFrom⟩ := by
            simp [walkBody, hne, lookupOrInsert, hlink]
          rw [run_succ_of_next m hstep, hrun (pre ++ [x]) m (by simp at hn; omega)]
          simp
      · obtain ⟨l, hsub, hhead, hchain, hrun⟩ := ih hmem
        refine ⟨l, hsub.cons z, hhead, hchain, ?_⟩
        intro pre n hn
        exact hrun pre n (by simp at hn; omega)

/-- The map holds every node that the walk passes. -/
theorem mem_of_isChain_lookup {source : α} {cameFrom : AList (fun _ : α => α)} {l : List α}
    (h : (l ++ [source]).IsChain fun b a => cameFrom.lookup b = some a) :
    ∀ x ∈ l, x ∈ cameFrom := by
  induction l with
  | nil => simp
  | cons y l ih =>
      rw [List.cons_append, List.isChain_cons] at h
      obtain ⟨z, hz⟩ : ∃ z, (l ++ [source]).head? = some z := by cases l <;> simp
      have hy : y ∈ cameFrom := by
        rw [← AList.lookup_isSome, h.1 z hz]
        rfl
      exact List.forall_mem_cons.mpr ⟨hy, ih h.2⟩

end RerunViz.Bfs
