import RerunViz.NodeRunner.Refinement

set_option autoImplicit false

/-!
# Stopping the thread

The destructor of the runner sets a flag and waits for the thread.  The thread looks at the
flag and at `rclcpp::ok` before and after it waits for the graph, so that at most one more
update is made and the join returns (`stops_soon`, `shutdown_completes`).  Between the
second look and the call that follows it, `rclcpp::ok` may end and make that call throw:
the process is over then, and `main` does not get through the destructor.
-/

namespace RerunViz.NodeRunner

variable {env : Surroundings} {stream : RecordingStream}

/-! ## What the other parties do to the thread -/

/-- The thread stands where it stood, and no flag that stops it has been taken back. -/
structure ThreadWaits (p p' : Process) : Prop where
  thread : p'.thread = p.thread
  ok : p'.ok = p.ok ∨ p'.ok = false
  stop : p.stop = true → p'.stop = true
  fault : p.fault.isSome = true → p'.fault.isSome = true

theorem ThreadWaits.refl (p : Process) : ThreadWaits p p := ⟨rfl, Or.inl rfl, id, id⟩

theorem threadWaits_mainStep (p : Process) : ThreadWaits p (mainStep p) := by
  unfold mainStep
  split
  · split
    · exact .refl p
    · exact ⟨rfl, Or.inl rfl, id, id⟩
  · exact ⟨rfl, Or.inr rfl, id, id⟩
  · exact ⟨rfl, Or.inl rfl, fun _ => rfl, id⟩
  · split
    · exact ⟨rfl, Or.inl rfl, id, id⟩
    · exact .refl p
  · exact .refl p

/-- An event is a step of the thread, or leaves it where it is; a step in which the thread
throws ends the process. -/
theorem step_thread_cases (env : Surroundings) (p : Process) (event : Event) :
    (event = .thread ∧ p.fault = none ∧ threadThrows env p = none ∧
        step env p event = threadReturns env.toWorld p) ∨
      (ThreadWaits p (step env p event) ∧
        (event = .thread → (step env p event).fault.isSome = true)) := by
  cases hfault : p.fault with
  | some fault =>
      rw [step_of_fault env hfault, hfault]
      exact Or.inr ⟨.refl p, fun _ => rfl⟩
  | none =>
      rw [step_of_alive env hfault]
      have hdead : p.fault.isSome = true → False := by simp [hfault]
      cases event with
      | thread =>
          rw [stepAlive]
          cases hthrows : threadThrows env p with
          | none => exact Or.inl ⟨rfl, rfl, rfl, threadStep_of_returns hthrows⟩
          | some what =>
              rw [threadStep_of_throws hthrows]
              exact Or.inr ⟨⟨rfl, Or.inl rfl, id, fun _ => rfl⟩, fun _ => rfl⟩
      | graphChange topics => exact Or.inr ⟨⟨rfl, Or.inl rfl, id, id⟩, fun h => by cases h⟩
      | interrupt => exact Or.inr ⟨⟨rfl, Or.inr rfl, id, id⟩, fun h => by cases h⟩
      | main => exact Or.inr ⟨threadWaits_mainStep p, fun h => by cases h⟩
      | deliver i msg =>
          refine Or.inr ⟨?_, fun h => by cases h⟩
          rw [stepAlive]
          split
          · exact ⟨rfl, Or.inl rfl, id, fun h => (hdead h).elim⟩
          · exact .refl p
      | onTimer =>
          refine Or.inr ⟨?_, fun h => by cases h⟩
          rw [stepAlive]
          split
          · exact ⟨rfl, Or.inl rfl, id, id⟩
          · exact .refl p

/-! ## The thread stops -/

/-- One of the flags that stop the thread is up. -/
def Stopping (p : Process) : Prop := p.ok = false ∨ p.stop = true

def isThread : Event → Bool
  | .thread => true
  | _ => false

/-- The steps that the thread has yet to make when it is being stopped. -/
def threadSteps (ok : Bool) : ThreadState → Nat
  | .loadStop => 2
  | .askOk stopThread => if canGraphUpdateThreadRun ok stopThread then 4 else 1
  | .waiting => 3
  | .loadStopAgain => 2
  | .askOkAgain stopThread => if canGraphUpdateThreadRun ok stopThread then 5 else 1
  | .query => 4
  | .update _ => 3
  | .finished => 0

/-- The updates that it may still make. -/
def threadUpdates (ok : Bool) : ThreadState → Nat
  | .askOkAgain stopThread => if canGraphUpdateThreadRun ok stopThread then 1 else 0
  | .query => 1
  | .update _ => 1
  | _ => 0

def updatesLeft (p : Process) : Nat := threadUpdates p.ok p.thread

/-- There is nothing left to do for a process that is over. -/
def stepsLeft (p : Process) : Nat := if p.fault.isSome then 0 else threadSteps p.ok p.thread

theorem threadSteps_le_five (ok : Bool) (thread : ThreadState) : threadSteps ok thread ≤ 5 := by
  unfold threadSteps
  split <;> first | omega | (split <;> omega)

/-- Ending `rclcpp::ok` only shortens the way. -/
theorem threadSteps_mono {ok ok' : Bool} (h : ok' = ok ∨ ok' = false) (thread : ThreadState) :
    threadSteps ok' thread ≤ threadSteps ok thread ∧
      threadUpdates ok' thread ≤ threadUpdates ok thread := by
  rcases h with rfl | rfl
  · exact ⟨Nat.le_refl _, Nat.le_refl _⟩
  · cases thread with
    | askOk stopThread | askOkAgain stopThread =>
        cases ok <;> cases stopThread <;> simp [threadSteps, threadUpdates, canGraphUpdateThreadRun]
    | loadStop | waiting | loadStopAgain | query | update | finished =>
        exact ⟨Nat.le_refl _, Nat.le_refl _⟩

theorem stopping_step {p : Process} (h : Stopping p) (event : Event) :
    Stopping (step env p event) := by
  rcases step_thread_cases env p event with ⟨_, _, _, heq⟩ | ⟨hwaits, _⟩
  · obtain ⟨node, graphCalls, thread, hframe⟩ := threadReturns_frame env.toWorld p
    rw [heq, hframe]
    exact h
  · rcases h with hok | hstop
    · left
      rcases hwaits.ok with hsame | hfalse
      · exact hsame.trans hok
      · exact hfalse
    · exact Or.inr (hwaits.stop hstop)

/-- A step of a thread that is being stopped takes it nearer to its end, and pays for an
update. -/
theorem threadReturns_stopping {world : World} {p : Process} (h : Stopping p) :
    threadSteps (threadReturns world p).ok (threadReturns world p).thread ≤
        threadSteps p.ok p.thread - 1 ∧
      (pending p).length + threadUpdates (threadReturns world p).ok (threadReturns world p).thread ≤
        threadUpdates p.ok p.thread := by
  obtain ⟨node, topics, graphCalls, ok, stop, thread, main, fault⟩ := p
  cases thread with
  | loadStop | loadStopAgain =>
      rcases h with rfl | rfl
      · simp [threadSteps, threadUpdates, threadReturns, pending, canGraphUpdateThreadRun]
      · simp [threadSteps, threadUpdates, threadReturns, pending, canGraphUpdateThreadRun]
  | askOk stopThread | askOkAgain stopThread =>
      cases hrun : canGraphUpdateThreadRun ok stopThread with
      | true => simp [threadSteps, threadUpdates, threadReturns, pending, hrun]
      | false => simp [threadSteps, threadUpdates, threadReturns, pending, hrun]
  | waiting | query | update | finished =>
      simp [threadSteps, threadUpdates, threadReturns, pending]

/-- While the thread is being stopped, its own steps take it to its end, and no others keep
it away from there. -/
theorem stepsLeft_step {p : Process} (h : Stopping p) (event : Event) :
    stepsLeft (step env p event) ≤ stepsLeft p - if isThread event then 1 else 0 := by
  unfold stepsLeft
  rcases step_thread_cases env p event with ⟨rfl, halive, _, heq⟩ | ⟨hwaits, hthread⟩
  · rw [heq, halive]
    split
    · exact Nat.zero_le _
    · exact (threadReturns_stopping h).1
  · cases hdead : (step env p event).fault.isSome with
    | true => exact Nat.zero_le _
    | false =>
        have hbefore : p.fault.isSome = false :=
          Bool.eq_false_iff.mpr fun hsome => absurd (hwaits.fault hsome) (by simp [hdead])
        have hother : isThread event = false := by
          cases event with
          | thread => exact absurd (hthread rfl) (Bool.eq_false_iff.mp hdead)
          | graphChange | interrupt | main | deliver | onTimer => rfl
        rw [hother, hwaits.thread, hbefore]
        exact (threadSteps_mono hwaits.ok p.thread).1

/-- A thread that waits, or throws, makes no update. -/
theorem updates_of_waits {p : Process} {event : Event}
    (h : event = .thread → (step env p event).fault.isSome = true) :
    updates env p event = [] := by
  rcases updates_cases env p event with hnone | ⟨rfl, halive, hreturns, _⟩
  · exact hnone
  · have hdead := h rfl
    rw [step_of_alive env halive, stepAlive, threadStep_of_returns hreturns,
      fault_threadReturns, halive] at hdead
    cases hdead

theorem updatesLeft_step {p : Process} (h : Stopping p) (event : Event) :
    (updates env p event).length + updatesLeft (step env p event) ≤ updatesLeft p := by
  unfold updatesLeft
  rcases step_thread_cases env p event with ⟨rfl, halive, hreturns, heq⟩ | ⟨hwaits, hthread⟩
  · have hpaid := (@threadReturns_stopping env.toWorld p h).2
    rw [heq]
    rcases updates_cases env p .thread with hnone | ⟨_, _, _, hpending⟩
    · rw [hnone, List.length_nil]
      omega
    · rw [hpending]
      exact hpaid
  · rw [updates_of_waits hthread, hwaits.thread, List.length_nil, Nat.zero_add]
    exact (threadSteps_mono hwaits.ok p.thread).2

theorem threadUpdates_le_one (ok : Bool) (thread : ThreadState) :
    threadUpdates ok thread ≤ 1 := by
  unfold threadUpdates
  split
  · split
    · exact Nat.le_refl 1
    · exact Nat.zero_le 1
  · exact Nat.le_refl 1
  · exact Nat.le_refl 1
  · exact Nat.zero_le 1

theorem finished_of_stepsLeft {p : Process} (h : stepsLeft p = 0) (halive : p.fault = none) :
    p.thread = .finished := by
  rw [stepsLeft, halive, Option.isSome_none, if_neg Bool.false_ne_true] at h
  unfold threadSteps at h
  split at h
  · cases h
  · split at h <;> cases h
  · cases h
  · cases h
  · split at h <;> cases h
  · cases h
  · cases h
  · assumption

theorem finished_run {p : Process} (h : Stopping p) {later : List Event}
    (hcount : 5 ≤ later.countP isThread) (halive : (Run.run (step env) p later).fault = none) :
    (Run.run (step env) p later).thread = .finished := by
  have hkeep : ∀ (p : Process) (event : Event), Stopping p → True →
      Stopping (step env p event) := fun _ event h _ => stopping_step h event
  have hdown : ∀ (p : Process) (event : Event), Stopping p → True →
      stepsLeft (step env p event) ≤ stepsLeft p - if isThread event then 1 else 0 :=
    fun _ event h _ => stepsLeft_step h event
  have hleft := Run.measure_run_le hkeep hdown h fun _ (_ : _ ∈ later) => trivial
  have hfive : stepsLeft p ≤ 5 := by
    unfold stepsLeft
    split
    · exact Nat.zero_le 5
    · exact threadSteps_le_five _ _
  exact finished_of_stepsLeft (by omega) halive

/-- In every schedule, once `rclcpp::ok` has ended or the destructor has set its flag, the
thread makes at most one more update, and after five of its own steps it has finished,
whatever else happens in between, unless an exception or undefined behaviour has ended the
process. -/
theorem stops_soon (env : Surroundings) (stream : RecordingStream) (events later : List Event)
    (hstopping : Stopping (after env stream events)) :
    (Run.history (step env) (updates env) (after env stream events) later).length ≤ 1 ∧
      (5 ≤ later.countP isThread → (after env stream (events ++ later)).fault = none →
        (after env stream (events ++ later)).thread = .finished) := by
  constructor
  · have hkeep : ∀ (p : Process) (event : Event), Stopping p → Stopping (step env p event) :=
      fun _ event h => stopping_step h event
    have hpays : ∀ (p : Process) (event : Event), Stopping p →
        (updates env p event).length + updatesLeft (step env p event) ≤ updatesLeft p :=
      fun _ event h => updatesLeft_step h event
    exact (Run.length_history_le hkeep hpays hstopping later).trans (threadUpdates_le_one _ _)
  · intro hcount halive
    rw [after_append] at halive ⊢
    exact finished_run hstopping hcount halive

/-- A signal that arrives when the thread is about to make an update. -/
theorem stops_soon_interrupted :
    (after Surroundings.reliable ⟨0⟩
      ([.thread, .thread, .thread, .thread, .thread, .thread, .interrupt] ++
        [.thread, .thread, .thread, .thread, .thread])).thread = .finished :=
  (stops_soon Surroundings.reliable ⟨0⟩
    [.thread, .thread, .thread, .thread, .thread, .thread, .interrupt]
    [.thread, .thread, .thread, .thread, .thread] (Or.inl rfl)).2 (Nat.le_refl 5) rfl

/-! ## `main` ends -/

def isMain : Event → Bool
  | .main => true
  | _ => false

/-- The steps that `main` has yet to make when `rclcpp::ok` has ended. -/
def mainSteps : MainState → Nat
  | .spinning => 4
  | .shutdown => 3
  | .stopping => 2
  | .joining => 1
  | .joined => 0

def mainLeft (p : Process) : Nat := if p.fault.isSome then 0 else mainSteps p.main

/-- Only `main` itself moves on. -/
theorem step_main_cases (env : Surroundings) (p : Process) (event : Event) :
    (event = .main ∧ p.fault = none ∧ step env p event = mainStep p) ∨
      ((step env p event).main = p.main ∧ (event = .main → p.fault.isSome = true)) := by
  cases hfault : p.fault with
  | some fault =>
      rw [step_of_fault env hfault]
      exact Or.inr ⟨rfl, fun _ => rfl⟩
  | none =>
      rw [step_of_alive env hfault]
      cases event with
      | main => exact Or.inl ⟨rfl, rfl, rfl⟩
      | graphChange topics => exact Or.inr ⟨rfl, fun h => by cases h⟩
      | interrupt => exact Or.inr ⟨rfl, fun h => by cases h⟩
      | thread =>
          refine Or.inr ⟨?_, fun h => by cases h⟩
          rw [stepAlive, threadStep]
          split
          · rfl
          · obtain ⟨node, graphCalls, thread, hframe⟩ := threadReturns_frame env.toWorld p
            rw [hframe]
      | deliver i msg =>
          refine Or.inr ⟨?_, fun h => by cases h⟩
          rw [stepAlive]
          split <;> rfl
      | onTimer =>
          refine Or.inr ⟨?_, fun h => by cases h⟩
          rw [stepAlive]
          split <;> rfl

/-- `rclcpp::ok` has ended and the thread has finished. -/
structure Closing (p : Process) : Prop where
  ok : p.ok = false
  thread : p.thread = .finished

theorem threadReturns_of_finished {world : World} {p : Process} (h : p.thread = .finished) :
    threadReturns world p = p := by
  rw [threadReturns, h]

theorem closing_step {p : Process} (h : Closing p) (event : Event) :
    Closing (step env p event) := by
  rcases step_thread_cases env p event with ⟨_, _, _, heq⟩ | ⟨hwaits, _⟩
  · rw [heq, threadReturns_of_finished h.thread]
    exact h
  · refine ⟨?_, hwaits.thread.trans h.thread⟩
    rcases hwaits.ok with hsame | hfalse
    · exact hsame.trans h.ok
    · exact hfalse

/-- With nothing to wait for, every step of `main` takes it further. -/
theorem mainSteps_mainStep {p : Process} (h : Closing p) :
    mainSteps (mainStep p).main ≤ mainSteps p.main - 1 := by
  obtain ⟨node, topics, graphCalls, ok, stop, thread, main, fault⟩ := p
  obtain rfl : ok = false := h.ok
  obtain rfl : thread = .finished := h.thread
  cases main with
  | spinning | shutdown | stopping | joining | joined => exact Nat.le_refl _

theorem mainLeft_step {p : Process} (h : Closing p) (event : Event) :
    mainLeft (step env p event) ≤ mainLeft p - if isMain event then 1 else 0 := by
  unfold mainLeft
  have hkept := (step_thread_cases env p event).elim
    (fun hthread (hsome : p.fault.isSome = true) => absurd hsome (by simp [hthread.2.1]))
    fun hwaits => hwaits.1.fault
  rcases step_main_cases env p event with ⟨rfl, halive, heq⟩ | ⟨hsame, hmain⟩
  · rw [heq, halive]
    split
    · exact Nat.zero_le _
    · exact mainSteps_mainStep h
  · cases hfault : p.fault.isSome with
    | true =>
        rw [if_pos (hkept hfault)]
        exact Nat.zero_le _
    | false =>
        have hother : isMain event = false := by
          cases event with
          | main => exact absurd (hmain rfl) (Bool.eq_false_iff.mp hfault)
          | graphChange | interrupt | thread | deliver | onTimer => rfl
        rw [hother, hsame]
        split
        · exact Nat.zero_le _
        · exact Nat.le_refl _

theorem joined_of_mainLeft {p : Process} (h : mainLeft p = 0) (halive : p.fault = none) :
    p.main = .joined := by
  rw [mainLeft, halive, Option.isSome_none, if_neg Bool.false_ne_true] at h
  cases hmain : p.main with
  | joined => rfl
  | spinning | shutdown | stopping | joining =>
      rw [hmain] at h
      cases h

theorem joined_run {p : Process} (h : Closing p) {last : List Event}
    (hcount : 4 ≤ last.countP isMain) (halive : (Run.run (step env) p last).fault = none) :
    (Run.run (step env) p last).main = .joined := by
  have hkeep : ∀ (p : Process) (event : Event), Closing p → True →
      Closing (step env p event) := fun _ event h _ => closing_step h event
  have hdown : ∀ (p : Process) (event : Event), Closing p → True →
      mainLeft (step env p event) ≤ mainLeft p - if isMain event then 1 else 0 :=
    fun _ event h _ => mainLeft_step h event
  have hleft := Run.measure_run_le hkeep hdown h fun _ (_ : _ ∈ last) => trivial
  have hfour : mainLeft p ≤ 4 := by
    unfold mainLeft
    split
    · exact Nat.zero_le 4
    · cases p.main <;> simp [mainSteps]
  exact joined_of_mainLeft (by omega) halive

theorem ok_step {p : Process} (h : p.ok = false) (event : Event) :
    (step env p event).ok = false := by
  rcases step_thread_cases env p event with ⟨_, _, _, heq⟩ | ⟨hwaits, _⟩
  · obtain ⟨node, graphCalls, thread, hframe⟩ := threadReturns_frame env.toWorld p
    rw [heq, hframe]
    exact h
  · rcases hwaits.ok with hsame | hfalse
    · exact hsame.trans h
    · exact hfalse

/-- In every schedule, once `rclcpp::ok` has ended, `main` gets through the destructor of the
runner: with five more steps of the thread, and four steps of `main` after them, whatever
else happens in between, unless an exception or undefined behaviour has ended the process. -/
theorem shutdown_completes (env : Surroundings) (stream : RecordingStream)
    (events later last : List Event) (hok : (after env stream events).ok = false)
    (hthread : 5 ≤ later.countP isThread) (hmain : 4 ≤ last.countP isMain)
    (halive : (after env stream (events ++ later ++ last)).fault = none) :
    (after env stream (events ++ later ++ last)).main = .joined := by
  rw [after_append, after_append] at halive ⊢
  have hfault : (Run.run (step env) (after env stream events) later).fault = none := by
    by_contra hsome
    obtain ⟨fault, heq⟩ := Option.ne_none_iff_exists'.mp hsome
    rw [run_of_fault env heq] at halive
    exact hsome halive
  have hended : ∀ (p : Process) (event : Event), p.ok = false → (step env p event).ok = false :=
    fun _ event h => ok_step h event
  have hclosing : Closing (Run.run (step env) (after env stream events) later) :=
    ⟨Run.run_keeps hended hok later, finished_run (Or.inl hok) hthread hfault⟩
  exact joined_run hclosing hmain halive

/-- A process that is interrupted while the thread waits for the graph. -/
theorem shutdown_completes_waiting :
    (after Surroundings.reliable ⟨0⟩
      ([.thread, .thread, .interrupt] ++ [.thread, .thread, .thread, .thread, .thread] ++
        [.main, .main, .main, .main])).main = .joined :=
  shutdown_completes Surroundings.reliable ⟨0⟩ [.thread, .thread, .interrupt]
    [.thread, .thread, .thread, .thread, .thread] [.main, .main, .main, .main] rfl
    (Nat.le_refl 5) (Nat.le_refl 4) rfl

end RerunViz.NodeRunner
