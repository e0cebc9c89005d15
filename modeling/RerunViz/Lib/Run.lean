import Mathlib.Data.List.Induction

set_option autoImplicit false

/-!
# Runs of a state machine

A machine is a step function; a run feeds it a list of operations from a start
state.  `Meets` says that every operation of a run satisfied a condition in the
state in which it was made, and `run_invariant` is the induction that carries
an invariant along such a run.
-/

namespace RerunViz.Run

variable {σ ι : Type} {step : σ → ι → σ} {ok : σ → ι → Prop}

/-- The state after the operations, in order. -/
def run (step : σ → ι → σ) (s : σ) (ops : List ι) : σ := ops.foldl step s

@[simp] theorem run_nil (s : σ) : run step s [] = s := rfl

@[simp] theorem run_append (s : σ) (ops ops' : List ι) :
    run step s (ops ++ ops') = run step (run step s ops) ops' := by
  simp [run]

@[simp] theorem run_singleton (s : σ) (op : ι) : run step s [op] = step s op := rfl

theorem run_cons (s : σ) (op : ι) (ops : List ι) :
    run step s (op :: ops) = run step (step s op) ops := rfl

/-- Every operation of the run satisfies `ok` in the state it is made in. -/
def Meets (step : σ → ι → σ) (ok : σ → ι → Prop) : σ → List ι → Prop
  | _, [] => True
  | s, op :: ops => ok s op ∧ Meets step ok (step s op) ops

instance decidableMeets [∀ s op, Decidable (ok s op)] :
    (s : σ) → (ops : List ι) → Decidable (Meets step ok s ops)
  | _, [] => .isTrue trivial
  | s, op :: ops =>
      have := decidableMeets (step s op) ops
      inferInstanceAs (Decidable (ok s op ∧ Meets step ok (step s op) ops))

@[simp] theorem meets_nil (s : σ) : Meets step ok s [] := trivial

theorem meets_append (s : σ) (ops ops' : List ι) :
    Meets step ok s (ops ++ ops') ↔
      Meets step ok s ops ∧ Meets step ok (run step s ops) ops' := by
  induction ops generalizing s with
  | nil => simp
  | cons op ops ih =>
      simp only [List.cons_append, Meets, ih, run_cons, and_assoc]

theorem meets_concat (s : σ) (ops : List ι) (op : ι) :
    Meets step ok s (ops ++ [op]) ↔
      Meets step ok s ops ∧ ok (run step s ops) op := by
  simp [meets_append, Meets]

/-- A condition that every state satisfies is met by every run. -/
theorem meets_of_forall (s : σ) {ops : List ι} (h : ∀ s, ∀ op ∈ ops, ok s op) :
    Meets step ok s ops := by
  induction ops generalizing s with
  | nil => trivial
  | cons op ops ih =>
      refine ⟨h s op (by simp), ih (step s op) ?_⟩
      intro s' op' hmem
      exact h s' op' (by simp [hmem])

/-- A condition can be replaced by one that follows from it. -/
theorem meets_imp {ok' : σ → ι → Prop} {s : σ} {ops : List ι} (h : Meets step ok s ops)
    (himp : ∀ s op, ok s op → ok' s op) : Meets step ok' s ops := by
  induction ops generalizing s with
  | nil => trivial
  | cons op ops ih => exact ⟨himp s op h.1, ih h.2⟩

/-- A condition on an operation that follows from what holds before and after it is met by
a run that has the property after every prefix. -/
theorem meets_of_prefixes {P : List ι → Prop} {s : σ} {ops : List ι}
    (h : ∀ before, before <+: ops → P before)
    (hok : ∀ before op, P before → P (before ++ [op]) → ok (run step s before) op) :
    Meets step ok s ops := by
  induction ops using List.reverseRecOn with
  | nil => trivial
  | append_singleton ops op ih =>
      have hgrown : ops <+: ops ++ [op] := List.prefix_append ops [op]
      rw [meets_concat]
      exact ⟨ih fun before hbefore => h before (hbefore.trans hgrown),
        hok ops op (h ops hgrown) (h _ (List.prefix_refl _))⟩

/-- An invariant kept by every admitted step holds after every admitted run. -/
theorem run_invariant {Inv : σ → Prop}
    (hstep : ∀ s op, Inv s → ok s op → Inv (step s op))
    {s : σ} (hs : Inv s) {ops : List ι} (hops : Meets step ok s ops) :
    Inv (run step s ops) := by
  induction ops generalizing s with
  | nil => exact hs
  | cons op ops ih => exact ih (hstep s op hs hops.1) hops.2

/-- An invariant kept by every step holds after every run. -/
theorem run_keeps {Inv : σ → Prop} (hstep : ∀ s op, Inv s → Inv (step s op))
    {s : σ} (hs : Inv s) (ops : List ι) : Inv (run step s ops) := by
  have hall : Meets step (fun _ _ => True) s ops := meets_of_forall s fun _ _ _ => trivial
  exact run_invariant (fun s op hinv _ => hstep s op hinv) hs hall

/-- A condition that follows from an invariant is met by every run. -/
theorem meets_of_keeps {Inv : σ → Prop} (hstep : ∀ s op, Inv s → Inv (step s op))
    (hok : ∀ s op, Inv s → ok s op) {s : σ} (hs : Inv s) (ops : List ι) : Meets step ok s ops := by
  induction ops generalizing s with
  | nil => trivial
  | cons op ops ih => exact ⟨hok s op hs, ih (hstep s op hs)⟩

/-! ## What a run has gathered -/

variable {β : Type}

/-- What the operations give, each in the state it is made in, one after the other. -/
def history (step : σ → ι → σ) (give : σ → ι → List β) : σ → List ι → List β
  | _, [] => []
  | s, op :: ops => give s op ++ history step give (step s op) ops

theorem history_concat (give : σ → ι → List β) (s : σ) (ops : List ι) (op : ι) :
    history step give s (ops ++ [op]) =
      history step give s ops ++ give (run step s ops) op := by
  induction ops generalizing s with
  | nil => simp [history]
  | cons op' ops ih =>
      rw [List.cons_append, history, history, ih, run_cons, List.append_assoc]

end RerunViz.Run
