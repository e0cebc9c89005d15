import RerunViz.Lib.Run

set_option autoImplicit false

/-!
# Schedules

A run of a system of several parties is a list of their steps, in the order in which they
were scheduled.  Four rules for such runs: the run of one machine is followed by that of
another (`run_simulates`), a party that is scheduled often enough gets where its measure
leads (`measure_run_le`), a credit bounds what a run gives (`length_history_le`), and the
steps of one kind can be put in front of the others when the others do not mind, up to
what an observer cannot see (`run_first_rest`).
-/

namespace RerunViz.Run

variable {σ τ ι κ : Type} {step : σ → ι → σ}

/-! ## Simulation -/

/-- When every step is followed by the operations it gives, so is every run. -/
theorem run_simulates {step' : τ → κ → τ} {abs : σ → τ} {give : σ → ι → List κ}
    (h : ∀ s op, abs (step s op) = run step' (abs s) (give s op)) (s : σ) (ops : List ι) :
    abs (run step s ops) = run step' (abs s) (history step give s ops) := by
  induction ops generalizing s with
  | nil => rfl
  | cons op ops ih => rw [run_cons, ih, history, run_append, h]

/-- What holds of the operations that each step gives holds along the run that follows. -/
theorem meets_simulates {step' : τ → κ → τ} {ok' : τ → κ → Prop} {abs : σ → τ}
    {give : σ → ι → List κ} (h : ∀ s op, abs (step s op) = run step' (abs s) (give s op))
    (hok : ∀ s op, Meets step' ok' (abs s) (give s op)) (s : σ) (ops : List ι) :
    Meets step' ok' (abs s) (history step give s ops) := by
  induction ops generalizing s with
  | nil => trivial
  | cons op ops ih =>
      rw [history, meets_append, ← h]
      exact ⟨hok s op, ih (step s op)⟩

/-! ## Progress -/

/-- Under an invariant, a measure that no step raises and that the steps of one party lower
is down by as many steps as that party has made. -/
theorem measure_run_le {Inv : σ → Prop} {allowed : ι → Prop} {measure : σ → Nat}
    {own : ι → Bool} (hinv : ∀ s op, Inv s → allowed op → Inv (step s op))
    (hdown : ∀ s op, Inv s → allowed op →
      measure (step s op) ≤ measure s - if own op then 1 else 0)
    {s : σ} (hs : Inv s) {ops : List ι} (hops : ∀ op ∈ ops, allowed op) :
    measure (run step s ops) ≤ measure s - ops.countP own := by
  induction ops generalizing s with
  | nil => exact Nat.le_refl _
  | cons op ops ih =>
      have hop : allowed op := hops op List.mem_cons_self
      have hrest := ih (hinv s op hs hop) fun op' hmem => hops op' (List.mem_cons_of_mem op hmem)
      have hfirst := hdown s op hs hop
      rw [run_cons, List.countP_cons]
      omega

/-- Under an invariant, a credit that pays for all that the steps give bounds what a run
gives. -/
theorem length_history_le {Inv : σ → Prop} {credit : σ → Nat} {give : σ → ι → List κ}
    (hinv : ∀ s op, Inv s → Inv (step s op))
    (hpays : ∀ s op, Inv s → (give s op).length + credit (step s op) ≤ credit s)
    {s : σ} (hs : Inv s) (ops : List ι) :
    (history step give s ops).length ≤ credit s := by
  induction ops generalizing s with
  | nil => exact Nat.zero_le _
  | cons op ops ih =>
      have hrest := ih (hinv s op hs)
      have hfirst := hpays s op hs
      rw [history, List.length_append]
      omega

/-! ## Reordering -/

section Reordering

variable {first : ι → Bool} {ok : σ → ι → Prop} {same : σ → σ → Prop}

theorem run_congr (hstep : ∀ s s' op, same s s' → same (step s op) (step s' op)) {s s' : σ}
    (h : same s s') (ops : List ι) : same (run step s ops) (run step s' ops) := by
  induction ops generalizing s s' with
  | nil => exact h
  | cons op ops ih => exact ih (hstep s s' op h)

/-- A step that minds none of the steps of the first kind can be made after them. -/
theorem run_step_comm (hsame : Equivalence same)
    (hstep : ∀ s s' op, same s s' → same (step s op) (step s' op))
    (hcomm : ∀ s op op', first op = true → first op' = false → ok s op' →
      same (step (step s op') op) (step (step s op) op'))
    (hkeep : ∀ s op op', first op = true → first op' = false → ok s op' → ok (step s op) op')
    {s : σ} {op' : ι} (hop' : first op' = false) (hok : ok s op') {ops : List ι}
    (hops : ∀ op ∈ ops, first op = true) :
    same (run step (step s op') ops) (step (run step s ops) op') := by
  induction ops generalizing s with
  | nil => exact hsame.refl _
  | cons op ops ih =>
      have hop : first op = true := hops op List.mem_cons_self
      have hswapped := run_congr hstep (hcomm s op op' hop hop' hok) ops
      exact hsame.trans hswapped
        (ih (hkeep s op op' hop hop' hok) fun op hmem => hops op (List.mem_cons_of_mem _ hmem))

/-- A run in which every step of the other kind was possible ends, for one who sees only what
is the same, where it would have ended with all steps of the first kind made first. -/
theorem run_first_rest (hsame : Equivalence same)
    (hstep : ∀ s s' op, same s s' → same (step s op) (step s' op))
    (hcomm : ∀ s op op', first op = true → first op' = false → ok s op' →
      same (step (step s op') op) (step (step s op) op'))
    (hkeep : ∀ s op op', first op = true → first op' = false → ok s op' → ok (step s op) op')
    {s : σ} {ops : List ι} (hops : Meets step (fun s op => first op = false → ok s op) s ops) :
    same (run step s ops)
      (run step (run step s (ops.filter first)) (ops.filter fun op => !first op)) := by
  induction ops generalizing s with
  | nil => exact hsame.refl _
  | cons op ops ih =>
      refine hsame.trans (ih hops.2) ?_
      rw [List.filter_cons, List.filter_cons]
      cases hop : first op with
      | true => exact hsame.refl _
      | false =>
          have hfirst : ∀ op ∈ ops.filter first, first op = true :=
            fun op hmem => (List.mem_filter.mp hmem).2
          exact run_congr hstep
            (run_step_comm hsame hstep hcomm hkeep hop (hops.1 hop) hfirst) _

end Reordering

end RerunViz.Run
