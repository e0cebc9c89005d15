import Mathlib.Data.Finset.Card
import Mathlib.Data.List.Count
import Mathlib.Data.List.Nodup
import Mathlib.Data.List.Pairwise
import Mathlib.Logic.Relation

set_option autoImplicit false

/-!
# Unfolding a graph into a forest

A depth-first traversal that keeps no record of what it has visited walks the
*unfolding* of the graph: below every occurrence of a node stand all its
successors.  The traversal ends exactly when the unfolding is a finite forest, and
it visits every node at most once when no node has two predecessors below the
starting nodes (`exists_unfolds_nodup_iff`).
-/

namespace RerunViz.Unfold

open Relation

variable {β : Type}

/-- An ordered forest: its first node, the forest below that node, and what stands
beside it. -/
inductive Forest (β : Type) where
  | nil
  | cons (node : β) (below rest : Forest β)

namespace Forest

/-- The nodes, each before the nodes below it. -/
def preorder : Forest β → List β
  | nil => []
  | cons node below rest => node :: (preorder below ++ preorder rest)

/-- The number of nodes on a longest way down. -/
def height : Forest β → Nat
  | nil => 0
  | cons _ below rest => max (height below + 1) (height rest)

theorem height_le_length (forest : Forest β) : forest.height ≤ forest.preorder.length := by
  induction forest with
  | nil => exact Nat.le_refl 0
  | cons node below rest ihBelow ihRest =>
      simp only [height, preorder, List.length_cons, List.length_append]
      omega

end Forest

/-- The forest that stands for a list of starting nodes when the successors of a node
stand below it. -/
inductive Unfolds (next : β → List β) : List β → Forest β → Prop
  | nil : Unfolds next [] .nil
  | cons {node : β} {nodes : List β} {below rest : Forest β}
      (hbelow : Unfolds next (next node) below) (hrest : Unfolds next nodes rest) :
      Unfolds next (node :: nodes) (.cons node below rest)

/-- A node that the starting nodes lead to. -/
def Below (next : β → List β) (start : List β) (b : β) : Prop :=
  ∃ s ∈ start, ReflTransGen (fun x y => y ∈ next x) s b

section Below

variable {next : β → List β} {start : List β} {b c : β}

theorem Below.of_mem (h : b ∈ start) : Below next start b := ⟨b, h, .refl⟩

theorem Below.tail (h : Below next start b) (hc : c ∈ next b) : Below next start c := by
  obtain ⟨s, hs, hreach⟩ := h
  exact ⟨s, hs, hreach.tail hc⟩

/-- What holds of the starting nodes and passes to successors holds of every node
below. -/
@[elab_as_elim]
theorem Below.induction {P : β → Prop} (h : Below next start b) (hstart : ∀ x ∈ start, P x)
    (hnext : ∀ x y, Below next start x → P x → y ∈ next x → P y) : P b := by
  obtain ⟨s, hs, hreach⟩ := h
  induction hreach with
  | refl => exact hstart s hs
  | @tail x y hx hy ih => exact hnext x y ⟨s, hs, hx⟩ ih hy

theorem Below.mono {start' : List β} (h : Below next start b)
    (hsub : ∀ x ∈ start, Below next start' x) : Below next start' b :=
  h.induction hsub fun _ _ _ hx hy => hx.tail hy

/-- What is below the successors of a starting node is below the starting nodes. -/
theorem Below.of_next {node : β} (hnode : node ∈ start) (h : Below next (next node) b) :
    Below next start b :=
  h.mono fun _ hx => (Below.of_mem hnode).tail hx

theorem Below.of_rest {node : β} (h : Below next start b) : Below next (node :: start) b :=
  h.mono fun _ hx => .of_mem (List.mem_cons_of_mem node hx)

/-- A node below the starting nodes is one of them or a successor of a node below. -/
theorem Below.cases_tail (h : Below next start b) :
    b ∈ start ∨ ∃ x, Below next start x ∧ b ∈ next x :=
  h.induction (fun _ => Or.inl) fun x _ hx _ hy => Or.inr ⟨x, hx, hy⟩

end Below

/-! ## The nodes of an unfolding -/

namespace Unfolds

variable {next : β → List β} {start : List β} {forest : Forest β}

/-- Every occurrence is a starting one or stands below its predecessor's. -/
theorem perm (h : Unfolds next start forest) :
    forest.preorder.Perm (start ++ forest.preorder.flatMap next) := by
  induction h with
  | nil => exact .refl []
  | @cons node nodes below rest _ _ ihBelow ihRest =>
      simp only [Forest.preorder, List.flatMap_cons, List.flatMap_append, List.cons_append]
      refine .cons node ((ihBelow.append ihRest).trans ?_)
      rw [← List.append_assoc (next node)]
      exact List.perm_append_comm_assoc _ _ _

theorem mem_preorder_iff (h : Unfolds next start forest) {b : β} :
    b ∈ forest.preorder ↔ Below next start b := by
  constructor
  · intro hb
    induction h with
    | nil => cases hb
    | @cons node nodes below rest _ _ ihBelow ihRest =>
        rw [Forest.preorder, List.mem_cons, List.mem_append] at hb
        rcases hb with rfl | hb | hb
        · exact .of_mem List.mem_cons_self
        · exact (ihBelow hb).of_next List.mem_cons_self
        · exact (ihRest hb).of_rest
  · intro hb
    refine hb.induction (fun x hx => ?_) fun x y _ hx hy => ?_
    · exact h.perm.mem_iff.mpr (List.mem_append_left _ hx)
    · exact h.perm.mem_iff.mpr (List.mem_append_right _ (List.mem_flatMap.mpr ⟨x, hx, hy⟩))

/-- A node that leads back to itself has no unfolding above it. -/
theorem not_below_next (h : Unfolds next start forest) {b : β} (hb : Below next start b) :
    ¬ Below next (next b) b := by
  intro hcycle
  induction h with
  | nil =>
      obtain ⟨s, hs, _⟩ := hb
      cases hs
  | @cons node nodes below rest _ _ ihBelow ihRest =>
      obtain ⟨s, hs, hreach⟩ := hb
      rcases List.mem_cons.mp hs with rfl | hs
      · rcases hreach.cases_head with rfl | ⟨x, hx, hreach⟩
        · exact ihBelow hcycle
        · exact ihBelow ⟨x, hx, hreach⟩
      · exact ihRest ⟨s, hs, hreach⟩

/-- In preorder a node comes after one that it is a successor of. -/
theorem mem_of_preorder_eq (h : Unfolds next start forest) {before after : List β} {b : β}
    (heq : forest.preorder = before ++ b :: after) :
    b ∈ start ∨ ∃ x ∈ before, b ∈ next x := by
  induction h generalizing before after with
  | nil => simp [Forest.preorder] at heq
  | @cons node nodes below rest _ _ ihBelow ihRest =>
      rw [Forest.preorder] at heq
      cases before with
      | nil =>
          obtain rfl : node = b := (List.cons.inj heq).1
          exact Or.inl List.mem_cons_self
      | cons x before =>
          obtain ⟨rfl, htail⟩ := List.cons.inj heq
          rcases List.append_eq_append_iff.mp htail with
            ⟨later, rfl, hrest⟩ | ⟨later, hbelow, hcons⟩
          · rcases ihRest hrest with hb | ⟨x, hx, hb⟩
            · exact Or.inl (List.mem_cons_of_mem _ hb)
            · exact Or.inr ⟨x, List.mem_cons_of_mem _ (List.mem_append_right _ hx), hb⟩
          · cases later with
            | nil =>
                have hfirst : rest.preorder = [] ++ b :: after := hcons.symm
                rcases ihRest hfirst with hb | ⟨x, hx, _⟩
                · exact Or.inl (List.mem_cons_of_mem _ hb)
                · cases hx
            | cons y later =>
                obtain ⟨rfl, _⟩ := List.cons.inj hcons
                rcases ihBelow hbelow with hb | ⟨x, hx, hb⟩
                · exact Or.inr ⟨_, List.mem_cons_self, hb⟩
                · exact Or.inr ⟨x, List.mem_cons_of_mem _ hx, hb⟩

end Unfolds

/-! ## When every node is visited at most once -/

/-- No node below the starting nodes is listed twice, by one predecessor, by two, or by
one and among the starting nodes. -/
structure Separated (next : β → List β) (start : List β) : Prop where
  start_nodup : start.Nodup
  next_nodup : ∀ x, Below next start x → (next x).Nodup
  start_disjoint : ∀ x, Below next start x → start.Disjoint (next x)
  next_inj : ∀ x y b, Below next start x → Below next start y → b ∈ next x → b ∈ next y → x = y

namespace Separated

variable {next : β → List β} {start : List β}

/-- An unfolding without repetition separates the nodes. -/
theorem of_nodup {forest : Forest β} (h : Unfolds next start forest)
    (hnodup : forest.preorder.Nodup) : Separated next start := by
  rw [h.perm.nodup_iff, List.nodup_append', List.nodup_flatMap] at hnodup
  obtain ⟨hstart, ⟨hnext, hpairwise⟩, hdisjoint⟩ := hnodup
  constructor
  case start_nodup => exact hstart
  case next_nodup => exact fun x hx => hnext x (h.mem_preorder_iff.mpr hx)
  case start_disjoint =>
    intro x hx b hb hbx
    exact hdisjoint hb (List.mem_flatMap.mpr ⟨x, h.mem_preorder_iff.mpr hx, hbx⟩)
  case next_inj =>
    intro x y b hx hy hbx hby
    by_contra hne
    have : Std.Symm (Function.onFun List.Disjoint next) := ⟨fun _ _ hdisj => hdisj.symm⟩
    exact hpairwise.forall (h.mem_preorder_iff.mpr hx) (h.mem_preorder_iff.mpr hy) hne hbx hby

/-- A starting node is not below its own successors. -/
theorem not_below_next (h : Separated next start) {node : β} (hnode : node ∈ start) :
    ¬ Below next (next node) node := by
  intro hself
  rcases hself.cases_tail with hmem | ⟨x, hx, hmem⟩
  · exact h.start_disjoint node (.of_mem hnode) hnode hmem
  · exact h.start_disjoint x (hx.of_next hnode) hnode hmem

theorem below (h : Separated next start) {node : β} (hnode : node ∈ start) :
    Separated next (next node) := by
  constructor
  case start_nodup => exact h.next_nodup node (.of_mem hnode)
  case next_nodup => exact fun x hx => h.next_nodup x (hx.of_next hnode)
  case start_disjoint =>
    intro x hx b hb hbx
    obtain rfl := h.next_inj node x b (.of_mem hnode) (hx.of_next hnode) hb hbx
    exact h.not_below_next hnode hx
  case next_inj =>
    exact fun x y b hx hy => h.next_inj x y b (hx.of_next hnode) (hy.of_next hnode)

theorem rest {node : β} {nodes : List β} (h : Separated next (node :: nodes)) :
    Separated next nodes := by
  constructor
  case start_nodup => exact (List.nodup_cons.mp h.start_nodup).2
  case next_nodup => exact fun x hx => h.next_nodup x hx.of_rest
  case start_disjoint =>
    exact fun x hx b hb => h.start_disjoint x hx.of_rest (List.mem_cons_of_mem node hb)
  case next_inj => exact fun x y b hx hy => h.next_inj x y b hx.of_rest hy.of_rest

variable [DecidableEq β]

/-- Separated nodes, finitely many of them, unfold into a forest. -/
theorem exists_unfolds (h : Separated next start) {nodes : Finset β}
    (hnodes : ∀ b, Below next start b → b ∈ nodes) : ∃ forest, Unfolds next start forest := by
  induction hn : nodes.card using Nat.strong_induction_on generalizing start nodes with
  | _ n ih =>
      subst hn
      induction start with
      | nil => exact ⟨.nil, .nil⟩
      | cons node start ihRest =>
          -- below a node there is one node less: the node itself
          have hmem : node ∈ node :: start := List.mem_cons_self
          have hcard : (nodes.erase node).card < nodes.card :=
            Finset.card_erase_lt_of_mem (hnodes node (.of_mem hmem))
          have hfewer : ∀ b, Below next (next node) b → b ∈ nodes.erase node := by
            intro b hb
            refine Finset.mem_erase.mpr ⟨?_, hnodes b (hb.of_next hmem)⟩
            rintro rfl
            exact h.not_below_next hmem hb
          obtain ⟨below, hbelow⟩ := ih _ hcard (h.below hmem) hfewer rfl
          obtain ⟨rest, hrest⟩ := ihRest h.rest fun b hb => hnodes b hb.of_rest
          exact ⟨.cons node below rest, .cons hbelow hrest⟩

/-- What only one node lists occurs no more often than the node. -/
theorem count_flatMap_le {x b : β} {l : List β} (hx : (next x).Nodup)
    (hother : ∀ y ∈ l, b ∈ next y → y = x) : (l.flatMap next).count b ≤ l.count x := by
  induction l with
  | nil => exact Nat.le_refl 0
  | cons y l ih =>
      obtain ⟨hy, hl⟩ := List.forall_mem_cons.mp hother
      have hle := ih hl
      rw [List.flatMap_cons, List.count_append, List.count_cons]
      by_cases heq : y = x
      · subst heq
        have hone := List.nodup_iff_count_le_one.mp hx b
        rw [beq_self_eq_true, if_pos rfl]
        omega
      · rw [List.count_eq_zero_of_not_mem fun hb => heq (hy hb)]
        omega

/-- The unfolding of separated nodes has no repetition. -/
theorem preorder_nodup (h : Separated next start) {forest : Forest β}
    (hforest : Unfolds next start forest) : forest.preorder.Nodup := by
  have hcount : ∀ b, forest.preorder.count b =
      start.count b + (forest.preorder.flatMap next).count b := by
    intro b
    rw [← List.count_append]
    exact hforest.perm.count_eq b
  rw [List.nodup_iff_count_le_one]
  intro b
  by_cases hb : b ∈ forest.preorder
  case neg => exact List.count_eq_zero_of_not_mem hb ▸ Nat.zero_le 1
  refine (hforest.mem_preorder_iff.mp hb).induction (fun x hx => ?_) fun x y hx hle hy => ?_
  · have hnot : x ∉ forest.preorder.flatMap next := by
      intro hmem
      obtain ⟨z, hz, hxz⟩ := List.mem_flatMap.mp hmem
      exact h.start_disjoint z (hforest.mem_preorder_iff.mp hz) hx hxz
    rw [hcount, List.count_eq_zero_of_not_mem hnot]
    exact List.nodup_iff_count_le_one.mp h.start_nodup x
  · have hnot : y ∉ start := fun hmem => h.start_disjoint x hx hmem hy
    rw [hcount, List.count_eq_zero_of_not_mem hnot, Nat.zero_add]
    refine (count_flatMap_le (h.next_nodup x hx) fun z hz hyz => ?_).trans hle
    exact h.next_inj z x y (hforest.mem_preorder_iff.mp hz) hx hyz hy

end Separated

/-- Finitely many nodes unfold into a forest without repetition exactly when they are
separated. -/
theorem exists_unfolds_nodup_iff [DecidableEq β] {next : β → List β} {start : List β}
    {nodes : Finset β} (hnodes : ∀ b, Below next start b → b ∈ nodes) :
    (∃ forest, Unfolds next start forest ∧ forest.preorder.Nodup) ↔ Separated next start := by
  constructor
  · rintro ⟨forest, hforest, hnodup⟩
    exact .of_nodup hforest hnodup
  · intro h
    obtain ⟨forest, hforest⟩ := h.exists_unfolds hnodes
    exact ⟨forest, hforest, h.preorder_nodup hforest⟩

end RerunViz.Unfold
