import Mathlib.Logic.Relation
import RerunViz.Lib.Visited

set_option autoImplicit false

/-!
# Depth-first search with a shared visited set

`search succ target` is the textbook recursion: stop at the target, stop at a
visited node, otherwise mark the node and search its successors one after the
other, handing the visited set from one sibling to the next.  The first argument
bounds the depth of the recursion.

`search_true_iff` is the white-path statement: started with any visited set that
does not hold the target, the search answers `true` exactly when the target can
be reached by a path whose nodes before the target are unvisited.
`search_total` bounds the depth by the number of unvisited branching nodes.
-/

namespace RerunViz.Dfs

open Relation Visited

variable {α : Type}

/-- Search the siblings in order, stopping at the first one that succeeds. -/
def loop (visit : α → List α → Option (Bool × List α)) :
    List α → List α → Option (Bool × List α)
  | [], visited => some (false, visited)
  | y :: ys, visited =>
      match visit y visited with
      | none => none
      | some (true, visited') => some (true, visited')
      | some (false, visited') => loop visit ys visited'

/-- Search for `target` from `current`; the result is the answer and the visited
set, or `none` when the depth is spent. -/
def search [DecidableEq α] (succ : α → List α) (target : α) :
    Nat → α → List α → Option (Bool × List α)
  | 0, _, _ => none
  | n + 1, current, visited =>
      if current = target then some (true, visited)
      else if current ∈ visited then some (false, visited)
      else loop (search succ target n) (succ current) (current :: visited)

variable {succ : α → List α} {target : α}

/-- A step out of an unvisited node. -/
def White (succ : α → List α) (visited : List α) (x y : α) : Prop :=
  x ∉ visited ∧ y ∈ succ x

/-- With nothing visited every step is white. -/
theorem white_nil : White succ [] = fun x y => y ∈ succ x := by
  funext x y
  simp [White]

theorem White.mono {V W : List α} (hsub : V ⊆ W) {x y : α} (h : White succ W x y) :
    White succ V x y :=
  ⟨fun hx => h.1 (hsub hx), h.2⟩

theorem white_path_mono {V W : List α} (hsub : V ⊆ W) {x y : α}
    (h : ReflTransGen (White succ W) x y) : ReflTransGen (White succ V) x y :=
  ReflTransGen.mono (fun _ _ hxy => White.mono hsub hxy) x y h

/-! ## What a search establishes -/

/-- The result of searching all of `ys` from the visited set `V`. -/
structure Result (succ : α → List α) (target : α) (ys V : List α) (found : Bool)
    (V' : List α) : Prop where
  /-- the visited set only grows -/
  sub : V ⊆ V'
  /-- an answer `true` comes with an unvisited path -/
  path : found = true → ∃ y ∈ ys, ReflTransGen (White succ V) y target
  /-- an answer `false` has visited everything asked for, never the target -/
  mem : found = false → ys ⊆ V'
  notMem : found = false → target ∉ V → target ∉ V'
  /-- and has visited every successor of what it newly visited -/
  closed : found = false → ∀ x ∈ V', x ∉ V → succ x ⊆ V'

theorem Result.nil (V : List α) : Result succ target [] V false V where
  sub := List.Subset.refl V
  path := by simp
  mem := by simp
  notMem := fun _ h => h
  closed := fun _ x hx hnot => absurd hx hnot

/-- A sibling that fails hands its visited set to the rest. -/
theorem Result.cons_false {y : α} {ys V W V' : List α} {found : Bool}
    (hy : Result succ target [y] V false W) (hys : Result succ target ys W found V') :
    Result succ target (y :: ys) V found V' where
  sub := fun _ hx => hys.sub (hy.sub hx)
  path := by
    intro hf
    obtain ⟨z, hz, hpath⟩ := hys.path hf
    exact ⟨z, List.mem_cons_of_mem y hz, white_path_mono hy.sub hpath⟩
  mem := by
    intro hf
    have hyW : y ∈ W := hy.mem rfl (List.mem_singleton_self y)
    exact List.cons_subset.mpr ⟨hys.sub hyW, hys.mem hf⟩
  notMem := fun hf htarget => hys.notMem hf (hy.notMem rfl htarget)
  closed := by
    intro hf x hx hnot
    by_cases hxW : x ∈ W
    · exact fun _ hz => hys.sub (hy.closed rfl x hxW hnot hz)
    · exact hys.closed hf x hx hxW

/-- A sibling that succeeds ends the loop. -/
theorem Result.cons_true {y : α} {ys V V' : List α}
    (hy : Result succ target [y] V true V') :
    Result succ target (y :: ys) V true V' where
  sub := hy.sub
  path := by
    intro _
    obtain ⟨z, hz, hpath⟩ := hy.path rfl
    exact ⟨z, by simp [List.mem_singleton.mp hz], hpath⟩
  mem := by simp
  notMem := by simp
  closed := by simp

theorem loop_result {visit : α → List α → Option (Bool × List α)}
    (hvisit : ∀ y V found V', visit y V = some (found, V') →
      Result succ target [y] V found V') :
    ∀ (ys V : List α) (found : Bool) (V' : List α),
      loop visit ys V = some (found, V') → Result succ target ys V found V' := by
  intro ys
  induction ys with
  | nil =>
      intro V found V' h
      simp only [loop, Option.some.injEq, Prod.mk.injEq] at h
      obtain ⟨rfl, rfl⟩ := h
      exact .nil V
  | cons y ys ih =>
      intro V found V' h
      rw [loop] at h
      split at h
      · cases h
      · rename_i W hW
        simp only [Option.some.injEq, Prod.mk.injEq] at h
        obtain ⟨rfl, rfl⟩ := h
        exact .cons_true (hvisit y V true W hW)
      · rename_i W hW
        exact .cons_false (hvisit y V false W hW) (ih W found V' h)

/-- Searching the successors of an unvisited node searches the node. -/
theorem Result.expand {x : α} {V V' : List α} {found : Bool} (hx : x ∉ V)
    (hne : x ≠ target) (h : Result succ target (succ x) (x :: V) found V') :
    Result succ target [x] V found V' where
  sub := fun _ hy => h.sub (List.mem_cons_of_mem x hy)
  path := by
    intro hf
    obtain ⟨y, hy, hpath⟩ := h.path hf
    have hwhite : White succ V x y := ⟨hx, hy⟩
    exact ⟨x, List.mem_singleton_self x,
      .head hwhite (white_path_mono (List.subset_cons_self x V) hpath)⟩
  mem := by
    intro _
    simpa using h.sub List.mem_cons_self
  notMem := by
    intro hf htarget
    refine h.notMem hf ?_
    simp [htarget, hne.symm]
  closed := by
    intro hf z hz hnot
    by_cases hzx : z = x
    · subst hzx; exact h.mem hf
    · exact h.closed hf z hz (by simp [hzx, hnot])

theorem search_result [DecidableEq α] (n : Nat) :
    ∀ (x : α) (V : List α) (found : Bool) (V' : List α),
      search succ target n x V = some (found, V') → Result succ target [x] V found V' := by
  induction n with
  | zero => intro x V found V' h; simp [search] at h
  | succ n ih =>
      intro x V found V' h
      rw [search] at h
      split at h
      · rename_i hx
        simp only [Option.some.injEq, Prod.mk.injEq] at h
        obtain ⟨rfl, rfl⟩ := h
        subst hx
        exact ⟨List.Subset.refl V, fun _ => ⟨x, List.mem_singleton_self x, .refl⟩,
          by simp, by simp, by simp⟩
      · rename_i hne
        split at h
        · rename_i hmem
          simp only [Option.some.injEq, Prod.mk.injEq] at h
          obtain ⟨rfl, rfl⟩ := h
          exact ⟨List.Subset.refl V, by simp, by simpa using hmem, fun _ h => h,
            fun _ z hz hnot => absurd hz hnot⟩
        · rename_i hnot
          exact (loop_result ih (succ x) (x :: V) found V' h).expand hnot hne

/-- A search that fails has closed off every unvisited path. -/
theorem Result.not_path {x : α} {V V' : List α} (h : Result succ target [x] V false V')
    (htarget : target ∉ V) : ¬ ReflTransGen (White succ V) x target := by
  intro hpath
  have hreach : ∀ y, ReflTransGen (White succ V) x y → y ∈ V' := by
    intro y hy
    induction hy with
    | refl => exact h.mem rfl (List.mem_singleton_self x)
    | @tail z w _ hzw ih => exact h.closed rfl z ih hzw.1 hzw.2
  exact h.notMem rfl htarget (hreach target hpath)

/-- The answer is `true` exactly when some path to the target avoids the visited
set up to the target. -/
theorem search_true_iff [DecidableEq α] {n : Nat} {x : α} {V V' : List α} {found : Bool}
    (h : search succ target n x V = some (found, V')) (htarget : target ∉ V) :
    found = true ↔ ReflTransGen (White succ V) x target := by
  have hres := search_result n x V found V' h
  constructor
  · intro hf
    obtain ⟨y, hy, hpath⟩ := hres.path hf
    rwa [List.mem_singleton.mp hy] at hpath
  · intro hpath
    cases found with
    | true => rfl
    | false => exact absurd hpath (hres.not_path htarget)

/-! ## Termination -/

theorem loop_total {visit : α → List α → Option (Bool × List α)} {V₀ : List α}
    (hvisit : ∀ y V, V₀ ⊆ V → ∃ found V', visit y V = some (found, V') ∧ V ⊆ V') :
    ∀ (ys V : List α), V₀ ⊆ V → ∃ r, loop visit ys V = some r := by
  intro ys
  induction ys with
  | nil => intro V _; exact ⟨(false, V), rfl⟩
  | cons y ys ih =>
      intro V hV
      obtain ⟨found, V', hy, hsub⟩ := hvisit y V hV
      cases found with
      | true => exact ⟨(true, V'), by simp [loop, hy]⟩
      | false =>
          obtain ⟨r, hr⟩ := ih V' (fun _ hx => hsub (hV hx))
          exact ⟨r, by simpa [loop, hy] using hr⟩

/-- A depth above the number of unvisited branching nodes is never spent. -/
theorem search_total [DecidableEq α] {S : Finset α} (hS : ∀ x, succ x ≠ [] → x ∈ S) (n : Nat) :
    ∀ (x : α) (V : List α), unvisited S V < n →
      ∃ r, search succ target n x V = some r := by
  induction n with
  | zero => intro x V h; omega
  | succ n ih =>
      intro x V hlt
      rw [search]
      split
      · exact ⟨_, rfl⟩
      · split
        · exact ⟨_, rfl⟩
        · rename_i hnot
          by_cases hsucc : succ x = []
          · exact ⟨_, by rw [hsucc]; rfl⟩
          · have hdec := unvisited_cons_lt (hS x hsucc) hnot
            refine loop_total ?_ (succ x) (x :: V) (List.Subset.refl _)
            intro y W hW
            have hle := unvisited_mono S hW
            obtain ⟨⟨found, W'⟩, hr⟩ := ih y W (by omega)
            exact ⟨found, W', hr, (search_result n y W found W' hr).sub⟩

/-! ## A larger depth changes nothing -/

theorem loop_mono {visit visit' : α → List α → Option (Bool × List α)}
    (hvisit : ∀ y V r, visit y V = some r → visit' y V = some r) :
    ∀ (ys V : List α) (r : Bool × List α),
      loop visit ys V = some r → loop visit' ys V = some r := by
  intro ys
  induction ys with
  | nil => exact fun V r h => h
  | cons y ys ih =>
      intro V r h
      rw [loop] at h ⊢
      rcases hy : visit y V with _ | ⟨_ | _, W⟩
      · rw [hy] at h
        cases h
      · rw [hy] at h
        rw [hvisit y V _ hy]
        exact ih W r h
      · rw [hy] at h
        rw [hvisit y V _ hy]
        exact h

/-- A search that has ended within its depth ends in the same way within a larger one. -/
theorem search_mono [DecidableEq α] {n m : Nat} (hle : n ≤ m) {x : α} {V : List α}
    {r : Bool × List α} (h : search succ target n x V = some r) :
    search succ target m x V = some r := by
  induction n generalizing m x V r with
  | zero => cases h
  | succ n ih =>
      obtain ⟨m, rfl⟩ : ∃ k, m = k + 1 := ⟨m - 1, by omega⟩
      rw [search] at h ⊢
      split
      · rename_i hx
        rwa [if_pos hx] at h
      · rename_i hne
        rw [if_neg hne] at h
        split
        · rename_i hmem
          rwa [if_pos hmem] at h
        · rename_i hnot
          rw [if_neg hnot] at h
          exact loop_mono (fun y W q hq => ih (by omega) hq) _ _ _ h

/-! ## White paths as lists -/

/-- A white path is a list of nodes, each a successor of the one before it, with only the
last one perhaps visited. -/
theorem white_path_iff {V : List α} {x y : α} :
    ReflTransGen (White succ V) x y ↔
      ∃ path : List α, path.head? = some x ∧ path.getLast? = some y ∧
        path.IsChain (fun a b => b ∈ succ a) ∧ ∀ z ∈ path.dropLast, z ∉ V := by
  constructor
  · intro hpath
    induction hpath using ReflTransGen.head_induction_on with
    | refl => exact ⟨[y], by simp⟩
    | @head x w hxw _ ih =>
        obtain ⟨path, hhead, hlast, hchain, hwhite⟩ := ih
        match path with
        | [] => cases hhead
        | z :: rest =>
            obtain rfl : z = w := Option.some.inj hhead
            refine ⟨x :: z :: rest, rfl, ?_, ?_, ?_⟩
            · rw [List.getLast?_cons_cons]
              exact hlast
            · exact List.isChain_cons_cons.mpr ⟨hxw.2, hchain⟩
            · rw [List.dropLast_cons_cons]
              exact List.forall_mem_cons.mpr ⟨hxw.1, hwhite⟩
  · rintro ⟨path, hhead, hlast, hchain, hwhite⟩
    induction path generalizing x with
    | nil => cases hhead
    | cons a rest ih =>
        obtain rfl : a = x := Option.some.inj hhead
        match rest with
        | [] =>
            obtain rfl : a = y := Option.some.inj hlast
            exact .refl
        | b :: rest =>
            rw [List.isChain_cons_cons] at hchain
            rw [List.dropLast_cons_cons, List.forall_mem_cons] at hwhite
            rw [List.getLast?_cons_cons] at hlast
            exact .head ⟨hwhite.1, hchain.1⟩ (ih rfl hlast hchain.2 hwhite.2)

end RerunViz.Dfs
