import Mathlib.Logic.Relation

set_option autoImplicit false

/-!
# Loops with a budget

A `while` loop is a body that either goes on in a new state or leaves with a
result.  `run` gives it a budget of iterations and answers `none` when the
budget is spent.  "The loop terminates with `r`" is "some budget gives `some r`",
and `run_total` is the rule that proves it from an invariant and a decreasing
measure.
-/

namespace RerunViz.Loop

/-- What one iteration of a loop does. -/
inductive Iter (σ β : Type) where
  /-- go on in the new state -/
  | next (s : σ)
  /-- leave the loop with a result -/
  | done (r : β)

variable {σ β : Type} {body : σ → Iter σ β}

/-- Run the loop for at most the given number of iterations. -/
def run (body : σ → Iter σ β) : Nat → σ → Option β
  | 0, _ => none
  | n + 1, s =>
      match body s with
      | .next s' => run body n s'
      | .done r => some r

theorem run_succ_of_next {s s' : σ} (n : Nat) (h : body s = .next s') :
    run body (n + 1) s = run body n s' := by
  simp [run, h]

theorem run_succ_of_done {s : σ} {r : β} (n : Nat) (h : body s = .done r) :
    run body (n + 1) s = some r := by
  simp [run, h]

/-- Total correctness: an invariant that every iteration keeps while the
measure goes down, and that gives the postcondition on leaving. -/
theorem run_total (Inv : σ → Prop) (measure : σ → Nat) {Post : β → Prop}
    (hnext : ∀ s s', Inv s → body s = .next s' → Inv s' ∧ measure s' < measure s)
    (hdone : ∀ s r, Inv s → body s = .done r → Post r) :
    ∀ (n : Nat) (s : σ), Inv s → measure s < n →
      ∃ r, run body n s = some r ∧ Post r := by
  intro n
  induction n with
  | zero => intro s _ hlt; omega
  | succ n ih =>
      intro s hinv hlt
      cases hb : body s with
      | next s' =>
          obtain ⟨hinv', hdec⟩ := hnext s s' hinv hb
          rw [run_succ_of_next n hb]
          exact ih s' hinv' (by omega)
      | done r =>
          exact ⟨r, run_succ_of_done n hb, hdone s r hinv hb⟩

end RerunViz.Loop
