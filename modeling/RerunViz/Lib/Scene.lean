import Mathlib.Algebra.BigOperators.Group.List.Basic
import Mathlib.Data.List.Infix

set_option autoImplicit false

/-!
# Scenes

A scene is a tree whose nodes are known by the names on the way to them.  A log writes values
at nodes, of which the last one counts (`latest`), and the pose of a node is the product of
the values on the way to it, the outermost first (`pose`).
-/

namespace RerunViz.Scene

/-! ## The last value of a key -/

section Latest

variable {κ ν : Type} [DecidableEq κ]

/-- The last value that a log gives for a key. -/
def latest : List (κ × ν) → κ → Option ν
  | [], _ => none
  | (key', value) :: log, key => (latest log key).or (if key' = key then some value else none)

theorem latest_append (log log' : List (κ × ν)) (key : κ) :
    latest (log ++ log') key = (latest log' key).or (latest log key) := by
  induction log with
  | nil => rw [List.nil_append, latest, Option.or_none]
  | cons entry log ih => rw [List.cons_append, latest, ih, latest, Option.or_assoc]

theorem mem_of_latest {log : List (κ × ν)} {key : κ} {value : ν}
    (h : latest log key = some value) : (key, value) ∈ log := by
  induction log with
  | nil => cases h
  | cons entry log ih =>
      rw [latest, Option.or_eq_some_iff] at h
      rcases h with hlater | ⟨_, hfirst⟩
      · exact List.mem_cons_of_mem entry (ih hlater)
      · split at hfirst
        · rename_i hkey
          rw [← hkey, ← Option.some.inj hfirst]
          exact List.mem_cons_self
        · cases hfirst

theorem latest_eq_none_iff {log : List (κ × ν)} {key : κ} :
    latest log key = none ↔ ∀ value, (key, value) ∉ log := by
  constructor
  · intro h
    induction log with
    | nil => exact fun _ => List.not_mem_nil
    | cons entry log ih =>
        rw [latest, Option.or_eq_none_iff] at h
        intro value hmem
        rcases List.mem_cons.mp hmem with rfl | hlater
        · rw [if_pos rfl] at h
          cases h.2
        · exact ih h.1 value hlater
  · intro h
    by_contra hsome
    obtain ⟨value, hvalue⟩ := Option.ne_none_iff_exists'.mp hsome
    exact h value (mem_of_latest hvalue)

/-- Where a log has one value only for a key, this is the last one. -/
theorem latest_eq_some {log : List (κ × ν)} {key : κ} {value : ν} (hmem : (key, value) ∈ log)
    (hunique : ∀ value', (key, value') ∈ log → value' = value) :
    latest log key = some value := by
  cases h : latest log key with
  | none => exact absurd hmem (latest_eq_none_iff.mp h value)
  | some value' => rw [hunique value' (mem_of_latest h)]

end Latest

/-! ## Poses -/

section Pose

variable {α M : Type} [Monoid M] {value : List α → M}

/-- The product of the values on the way to a node. -/
def pose (value : List α → M) (node : List α) : M := (node.inits.map value).prod

theorem pose_concat (value : List α → M) (node : List α) (name : α) :
    pose value (node ++ [name]) = pose value node * value (node ++ [name]) := by
  simp [pose, List.inits_append]

/-- Nothing on the way leaves the node in place. -/
theorem pose_eq_one {node : List α} (h : ∀ node', node' <+: node → value node' = 1) :
    pose value node = 1 := by
  refine List.prod_eq_one fun x hx => ?_
  obtain ⟨node', hmem, rfl⟩ := List.mem_map.mp hx
  exact h node' ((List.mem_inits node' node).mp hmem)

end Pose

/-! ## Along a path -/

section Along

variable {α M : Type} [Group M] {step : α → α → Option M} {l : List α} {x y : α}

/-- The product of the steps of a path, from its first node on. -/
def along (step : α → α → Option M) : List α → Option M
  | [] => none
  | [_] => some 1
  | x :: y :: l => do
      let first ← step x y
      let rest ← along step (y :: l)
      return first * rest

/-- Steps between nodes with poses make up the way from the first pose to the last. -/
theorem along_eq (pose : α → M)
    (hchain : l.IsChain fun a b => step a b = some ((pose a)⁻¹ * pose b))
    (hhead : l.head? = some x) (hlast : l.getLast? = some y) :
    along step l = some ((pose x)⁻¹ * pose y) := by
  induction l generalizing x with
  | nil => cases hhead
  | cons a l ih =>
      obtain rfl : a = x := Option.some.inj hhead
      cases l with
      | nil =>
          rw [List.getLast?_singleton, Option.some.injEq] at hlast
          rw [hlast, inv_mul_cancel, along]
      | cons b l =>
          obtain ⟨hstep, hrest⟩ := List.isChain_cons_cons.mp hchain
          rw [List.getLast?_cons_cons] at hlast
          rw [along, hstep, ih hrest rfl hlast]
          exact congrArg some (by rw [mul_assoc, mul_inv_cancel_left])

end Along

end RerunViz.Scene
