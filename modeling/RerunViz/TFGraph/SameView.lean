import RerunViz.TFGraph.Log
import RerunViz.TFGraph.Path

set_option autoImplicit false

/-!
# What a graph remembers of its history

Edges can be entered in many orders, moved and taken away.  The three maps keep traces of
this: lists of children and hash maps are ordered by it.  Apart from such orders, and from
the frames that `getAllFrames` keeps, nothing shows: when two runs come to the same abstract
map, no observer tells the graphs apart, now or after any further calls
(`same_map_same_behaviour`).
-/

namespace RerunViz.TFGraph

open Forest

variable {Time : Type} {rosTime : Stamp → Except Exception Time}

/-- The observers do not tell the graphs apart, up to the order of lists. -/
structure SameView (g g' : TFGraph Time) : Prop where
  parent : ∀ f, g.getParent f = g'.getParent f
  children : ∀ f, (g.getChildren f).Perm (g'.getChildren f)
  transform : ∀ p c, ¬ HasArrow p → (g.getTransform p c).map TransformData.transform =
    (g'.getTransform p c).map TransformData.transform
  cycle : ∀ parent child, g.wouldCreateCycle parent child = g'.wouldCreateCycle parent child
  pathToRoot : ∀ f, g.getPathToRoot f = g'.getPathToRoot f
  path : ∀ source dest, g.getPath source dest = g'.getPath source dest
  count : g.getStatistics.2 = g'.getStatistics.2
  records : ∀ (stream : RecordingStream)
      (entries entries' : List (Sigma fun _ : String => TransformData Time)),
    entries.Perm g.transforms.entries → entries'.Perm g'.transforms.entries →
    ∃ records records', g.logToRerun entries (some stream) = some records ∧
      g'.logToRerun entries' (some stream) = some records' ∧ records.Perm records'

/-! ## What is logged, as a function of the abstract map -/

/-- The frame and the transform of an entry. -/
def loggedEntry (e : Sigma fun _ : String => TransformData Time) : String × TransformStamped :=
  (loggedChild e.1, e.2.transform)

/-- The record of a frame and its transform. -/
def recordOf (g : TFGraph Time) (entry : String × TransformStamped) : Record Transform3D :=
  ⟨entityPathOf ((g.getPathToRoot entry.1).getD []).reverse, loggedTransform entry.2.transform⟩

section OneGraph

variable {g : TFGraph Time} {m : TransformMap}
  {entries : List (Sigma fun _ : String => TransformData Time)}

theorem Refines.acyclic_getParent (h : Refines g m) (hac : Acyclic m.parent) :
    Acyclic g.getParent := by
  rw [show g.getParent = m.parent from funext h.parent_eq]
  exact hac

theorem Refines.mem_loggedEntry_iff (h : Refines g m) (horder : entries.Perm g.transforms.entries)
    (c : String) (tf : TransformStamped) :
    (c, tf) ∈ entries.map loggedEntry ↔ ∃ p, m.lookup c = some (p, tf) := by
  rw [List.mem_map]
  constructor
  · rintro ⟨e, he, heq⟩
    obtain ⟨p, c', hkey, hc'⟩ := h.data.edge_of_entry horder he
    obtain ⟨rfl, rfl⟩ := Prod.mk.inj heq
    rw [h.data.loggedChild_eq hkey hc']
    exact ⟨p, hc'⟩
  · rintro ⟨p, hc⟩
    obtain ⟨data, hdata, rfl⟩ := h.data.kept c p tf hc
    refine ⟨⟨makeTransformKey p c, data⟩, horder.mem_iff.mpr (AList.mem_lookup_iff.mp hdata), ?_⟩
    rw [loggedEntry, h.data.loggedChild_eq rfl hc]

theorem Refines.nodup_loggedEntry (h : Refines g m)
    (horder : entries.Perm g.transforms.entries) : (entries.map loggedEntry).Nodup := by
  apply List.Nodup.of_map Prod.fst
  rw [List.map_map]
  exact h.data.nodup_loggedChild horder

/-- One record is made for each entry, from its frame and its transform. -/
theorem Refines.logToRerun_eq (h : Refines g m) (hac : Acyclic m.parent)
    (stream : RecordingStream) (horder : entries.Perm g.transforms.entries) :
    g.logToRerun entries (some stream) = some ((entries.map loggedEntry).map g.recordOf) := by
  have hedges : ∀ e ∈ entries, ∃ p c, e.1 = makeTransformKey p c ∧
      m.lookup c = some (p, e.2.transform) := fun e he => h.data.edge_of_entry horder he
  rw [logToRerun]
  clear horder
  induction entries with
  | nil => rfl
  | cons e entries ih =>
      obtain ⟨key, data⟩ := e
      obtain ⟨p, c, rfl, hc⟩ := hedges ⟨key, data⟩ List.mem_cons_self
      have hp : ¬ HasArrow p := h.data.arrow_free c p _ hc
      obtain ⟨l, hl, _⟩ := exists_getPathToRoot (h.acyclic_getParent hac) c
      have hrecord : g.logTransformToRerun p c data = some (g.recordOf (c, data.transform)) := by
        rw [logTransformToRerun, recordOf, hl]
        rfl
      rw [logEntries, splitTransformKey_makeTransformKey hp]
      simp only [hrecord, ih fun e he => hedges e (List.mem_cons_of_mem _ he), Option.map_some,
        List.map_cons, loggedEntry, loggedChild_makeTransformKey hp]

end OneGraph

/-! ## Two graphs of one map -/

section TwoGraphs

variable {g g' : TFGraph Time} {m : TransformMap}

theorem Refines.getParent_eq (h : Refines g m) (h' : Refines g' m) :
    g.getParent = g'.getParent := by
  funext f
  rw [h.parent_eq, h'.parent_eq]

theorem Refines.wouldCreateCycle_eq (h : Refines g m) (h' : Refines g' m)
    (parent child : String) :
    g.wouldCreateCycle parent child = g'.wouldCreateCycle parent child := by
  rw [Bool.eq_iff_iff, h.mirror.wouldCreateCycle_iff, h'.mirror.wouldCreateCycle_iff,
    h.getParent_eq h']

theorem Refines.getChildren_perm (h : Refines g m) (h' : Refines g' m) (f : String) :
    (g.getChildren f).Perm (g'.getChildren f) := by
  rw [List.perm_ext_iff_of_nodup (h.mirror.nodup f) (h'.mirror.nodup f)]
  intro c
  rw [h.mem_getChildren_iff, h'.mem_getChildren_iff]

theorem Refines.map_getTransform (h : Refines g m) {p : String} (hp : ¬ HasArrow p) (c : String) :
    (g.getTransform p c).map TransformData.transform =
      ((m.lookup c).filter fun entry => entry.1 = p).map Prod.snd := by
  cases hdata : g.getTransform p c with
  | some data =>
      rw [h.getTransform_eq hp hdata]
      simp
  | none =>
      have hnone : m.parent c ≠ some p := by
        intro hparent
        have hsome := (h.getTransform_isSome_iff hp c).mpr hparent
        rw [hdata] at hsome
        cases hsome
      cases hlookup : m.lookup c with
      | none => rfl
      | some entry =>
          rw [TransformMap.parent, hlookup] at hnone
          have hne : entry.1 ≠ p := fun heq => hnone (congrArg some heq)
          simp [hne]

theorem Refines.getPathToRoot_eq (h : Refines g m) (h' : Refines g' m) (hac : Acyclic m.parent)
    (f : String) : g.getPathToRoot f = g'.getPathToRoot f := by
  obtain ⟨l, hl, hroot⟩ := exists_getPathToRoot (h.acyclic_getParent hac) f
  rw [h.getParent_eq h'] at hroot
  rw [hl, getPathToRoot_eq_some_iff.mpr hroot]

theorem Refines.getPath_eq (h : Refines g m) (h' : Refines g' m) (hac : Acyclic m.parent)
    (source dest : String) : g.getPath source dest = g'.getPath source dest := by
  have hac' := h'.acyclic_getParent hac
  obtain ⟨ls, _, hs⟩ := exists_getPathToRoot hac' source
  obtain ⟨ld, _, hd⟩ := exists_getPathToRoot hac' dest
  rw [h'.mirror.getPath_eq hac' hs hd]
  rw [← h.getParent_eq h'] at hs hd
  exact h.mirror.getPath_eq (h.acyclic_getParent hac) hs hd

theorem Refines.records_perm (h : Refines g m) (h' : Refines g' m) (hac : Acyclic m.parent)
    {entries entries' : List (Sigma fun _ : String => TransformData Time)}
    (horder : entries.Perm g.transforms.entries) (horder' : entries'.Perm g'.transforms.entries) :
    ((entries.map loggedEntry).map g.recordOf).Perm
      ((entries'.map loggedEntry).map g'.recordOf) := by
  have hrecord : g.recordOf = g'.recordOf := by
    funext entry
    rw [recordOf, recordOf, h.getPathToRoot_eq h' hac]
  have hentries : (entries.map loggedEntry).Perm (entries'.map loggedEntry) := by
    rw [List.perm_ext_iff_of_nodup (h.nodup_loggedEntry horder) (h'.nodup_loggedEntry horder')]
    rintro ⟨c, tf⟩
    rw [h.mem_loggedEntry_iff horder, h'.mem_loggedEntry_iff horder']
  rw [hrecord]
  exact hentries.map _

/-- Graphs of one map look the same. -/
theorem Refines.sameView (h : Refines g m) (h' : Refines g' m) (hac : Acyclic m.parent) :
    SameView g g' where
  parent := congrFun (h.getParent_eq h')
  children := h.getChildren_perm h'
  transform := fun _ c hp => (h.map_getTransform hp c).trans (h'.map_getTransform hp c).symm
  cycle := h.wouldCreateCycle_eq h'
  pathToRoot := h.getPathToRoot_eq h' hac
  path := h.getPath_eq h' hac
  count := h.getStatistics_snd.trans h'.getStatistics_snd.symm
  records := fun stream _ _ horder horder' => ⟨_, _, h.logToRerun_eq hac stream horder,
    h'.logToRerun_eq hac stream horder', h.records_perm h' hac horder horder'⟩

/-- Graphs of one map answer a call in the same way. -/
theorem Refines.outcome_eq (h : Refines g m) (h' : Refines g' m) (call : Call) :
    outcome rosTime g call = outcome rosTime g' call := by
  cases call with
  | removeTransform parent child => rfl
  | addTransform tf =>
      have hcheck := h.wouldCreateCycle_eq h' tf.header.frameId tf.childFrameId
      rw [outcome, outcome, addTransform, addTransform, hcheck]
      split
      · rfl
      · cases htime : rosTime tf.header.stamp <;> simp [TransformData.ofStamped, htime]

theorem Refines.regular (h : Refines g m) (h' : Refines g' m) {call : Call}
    (hregular : call.Regular rosTime g) : call.Regular rosTime g' := by
  refine ⟨?_, ?_⟩
  · cases call with
    | addTransform tf => trivial
    | removeTransform parent child =>
        exact (congrFun (h.getParent_eq h') child).symm.trans hregular.1
  · rw [Call.Returns, ← h.outcome_eq h']
    exact hregular.2

end TwoGraphs

/-! ## Further calls -/

/-- The abstract map of a reached graph is a forest. -/
theorem acyclic_abstractMap {calls : List Call}
    (h : Refines (reached rosTime calls) (abstractMap rosTime calls)) :
    Acyclic (abstractMap rosTime calls).parent := by
  rw [show (abstractMap rosTime calls).parent = (reached rosTime calls).getParent from
    funext fun c => (h.parent_eq c).symm]
  exact (sound_reached rosTime calls).acyclic_getParent

/-- What two runs have in common that come to the same map. -/
structure SameMap (rosTime : Stamp → Except Exception Time) (calls calls' : List Call) : Prop where
  left : Refines (reached rosTime calls) (abstractMap rosTime calls)
  right : Refines (reached rosTime calls') (abstractMap rosTime calls')
  eq : abstractMap rosTime calls = abstractMap rosTime calls'

theorem SameMap.concat {calls calls' : List Call} (h : SameMap rosTime calls calls') {call : Call}
    (hregular : call.Regular rosTime (reached rosTime calls)) (harrow : ¬ HasArrow call.parent) :
    outcome rosTime (reached rosTime calls) call = outcome rosTime (reached rosTime calls') call ∧
      SameMap rosTime (calls ++ [call]) (calls' ++ [call]) := by
  have hright := h.right
  rw [← h.eq] at hright
  have houtcome : outcome rosTime (reached rosTime calls) call =
      outcome rosTime (reached rosTime calls') call := h.left.outcome_eq hright call
  refine ⟨houtcome, ?_, ?_, ?_⟩
  · rw [reached_concat, abstractMap_concat]
    exact h.left.exec hregular fun _ => harrow
  · rw [reached_concat, abstractMap_concat]
    exact h.right.exec (h.left.regular hright hregular) fun _ => harrow
  · rw [abstractMap_concat, abstractMap_concat, houtcome, h.eq]

/-- Two regular runs, none with an arrow in a parent, that come to the same abstract map: as long
as the calls that follow are regular and without an arrow in a parent, both answer them in
the same way, and after them no observer tells the two graphs apart. -/
theorem same_map_same_behaviour (rosTime : Stamp → Except Exception Time)
    (calls calls' later : List Call)
    (hregular : Run.Meets (TFGraph.exec rosTime) (fun g call => call.Regular rosTime g) empty
      (calls ++ later))
    (hregular' : Run.Meets (TFGraph.exec rosTime) (fun g call => call.Regular rosTime g) empty
      calls')
    (harrow : ∀ call ∈ calls ++ later, ¬ HasArrow call.parent)
    (harrow' : ∀ call ∈ calls', ¬ HasArrow call.parent)
    (hmap : abstractMap rosTime calls = abstractMap rosTime calls') :
    (∀ before call, before ++ [call] <+: later →
      outcome rosTime (reached rosTime (calls ++ before)) call =
        outcome rosTime (reached rosTime (calls' ++ before)) call) ∧
      SameView (reached rosTime (calls ++ later)) (reached rosTime (calls' ++ later)) := by
  have hstart : SameMap rosTime calls calls' :=
    ⟨refines_reached ((Run.meets_append _ _ _).mp hregular).1
      fun call hmem => harrow call (List.mem_append_left _ hmem),
      refines_reached hregular' harrow', hmap⟩
  have hstep : ∀ before call, before ++ [call] <+: later →
      SameMap rosTime (calls ++ before) (calls' ++ before) →
      outcome rosTime (reached rosTime (calls ++ before)) call =
          outcome rosTime (reached rosTime (calls' ++ before)) call ∧
        SameMap rosTime (calls ++ (before ++ [call])) (calls' ++ (before ++ [call])) := by
    rintro before call ⟨rest, rfl⟩ hsame
    rw [← List.append_assoc, ← List.append_assoc]
    have hcall : call.Regular rosTime (reached rosTime (calls ++ before)) := by
      rw [← List.append_assoc, ← List.append_assoc, Run.meets_append, Run.meets_concat] at hregular
      exact hregular.1.2
    exact hsame.concat hcall (harrow call (by simp))
  have heach : ∀ before, before <+: later →
      SameMap rosTime (calls ++ before) (calls' ++ before) := by
    intro before
    induction before using List.reverseRecOn with
    | nil =>
        intro _
        rw [List.append_nil, List.append_nil]
        exact hstart
    | append_singleton before call ih =>
        intro hbefore
        have hprev := ih ((List.prefix_append before [call]).trans hbefore)
        exact (hstep before call hbefore hprev).2
  constructor
  · intro before call hbefore
    exact (hstep before call hbefore (heach before
      ((List.prefix_append before [call]).trans hbefore))).1
  · have hlast := heach later (List.prefix_refl _)
    have hright := hlast.right
    rw [← hlast.eq] at hright
    exact hlast.left.sameView hright (acyclic_abstractMap hlast.left)

/-- It does not show where `link1` has been. -/
theorem same_map_same_behaviour_moved :
    SameView
      (reached rosTimeNanoseconds ([.addTransform (createTransform "base" "link1" 1 0 0)] ++
        [.addTransform (createTransform "link1" "link2" 0 1 0)]))
      (reached rosTimeNanoseconds ([.addTransform (createTransform "odom" "link1" 0 0 1),
        .addTransform (createTransform "base" "link1" 1 0 0)] ++
          [.addTransform (createTransform "link1" "link2" 0 1 0)])) :=
  (same_map_same_behaviour rosTimeNanoseconds _ _ _ (by decide) (by decide) (by decide)
    (by decide) (by decide)).2

end RerunViz.TFGraph
