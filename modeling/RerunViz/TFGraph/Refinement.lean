import RerunViz.TFGraph.Mirror
import RerunViz.TFGraph.TransformMap

set_option autoImplicit false

/-!
# The three maps refine one

Along every sequence of additions and matching removals in which no parent frame
holds an arrow, the three maps of the graph show one abstract map (`Refines`), which
follows the outcomes of the calls.
-/

namespace RerunViz.TFGraph

open Forest Relation

variable {Time : Type} {rosTime : Stamp → Except Exception Time}

/-! ## Calls and their outcomes -/

section Outcomes

variable (rosTime : Stamp → Except Exception Time)

/-- What a call returns; `removeTransform` returns nothing. -/
def outcome (g : TFGraph Time) : Call → Except Exception Bool
  | .addTransform tf => (g.addTransform rosTime tf).1
  | .removeTransform _ _ => .ok true

/-- The parent frame a call names. -/
def Call.parent : Call → String
  | .addTransform tf => tf.header.frameId
  | .removeTransform parent _ => parent

/-- The call returns, rather than throw from the constructor of the time stamp. -/
def Call.Returns (g : TFGraph Time) (call : Call) : Prop :=
  (outcome rosTime g call).isOk = true

instance (g : TFGraph Time) (call : Call) : Decidable (call.Returns rosTime g) :=
  inferInstanceAs (Decidable (_ = true))

/-- The call returns, and a removal names the child's parent. -/
def Call.Regular (g : TFGraph Time) (call : Call) : Prop :=
  call.Matched g ∧ call.Returns rosTime g

instance (g : TFGraph Time) (call : Call) : Decidable (call.Regular rosTime g) :=
  inferInstanceAs (Decidable (_ ∧ _))

end Outcomes

namespace TransformMap

/-- The abstract map is overridden by an addition that returned `true`, left alone by
one that did not, and loses the child of a removal. -/
def step (m : TransformMap) (call : Call) (outcome : Except Exception Bool) : TransformMap :=
  match call, outcome with
  | .addTransform tf, .ok true => m.insert tf.childFrameId (tf.header.frameId, tf)
  | .addTransform _, _ => m
  | .removeTransform _ child, _ => m.erase child

end TransformMap

/-- The graph and the abstract map, each after one call. -/
def execBoth (rosTime : Stamp → Except Exception Time) (s : TFGraph Time × TransformMap)
    (call : Call) : TFGraph Time × TransformMap :=
  (s.1.exec rosTime call, s.2.step call (outcome rosTime s.1 call))

/-- The abstract map after a sequence of calls on an empty graph. -/
def abstractMap (rosTime : Stamp → Except Exception Time) (calls : List Call) :
    TransformMap :=
  (Run.run (execBoth rosTime) (empty, ∅) calls).2

theorem run_execBoth_fst (s : TFGraph Time × TransformMap) (calls : List Call) :
    (Run.run (execBoth rosTime) s calls).1 = Run.run (exec rosTime) s.1 calls := by
  induction calls generalizing s with
  | nil => rfl
  | cons call calls ih =>
      rw [Run.run_cons, Run.run_cons, ih]
      rfl

theorem reached_concat (calls : List Call) (call : Call) :
    reached rosTime (calls ++ [call]) = (reached rosTime calls).exec rosTime call := by
  rw [reached, Run.run_append, Run.run_singleton]
  rfl

theorem abstractMap_concat (calls : List Call) (call : Call) :
    abstractMap rosTime (calls ++ [call]) =
      (abstractMap rosTime calls).step call (outcome rosTime (reached rosTime calls) call) := by
  rw [abstractMap, Run.run_append, Run.run_singleton, execBoth, run_execBoth_fst]
  rfl

/-! ## The refinement relation -/

/-- The graph shows exactly the abstract map. -/
structure Refines (g : TFGraph Time) (m : TransformMap) : Prop where
  mirror : Mirror g
  parent_eq : ∀ c, g.getParent c = m.parent c
  data : KeepsData g.transforms m

theorem refines_empty : Refines (TFGraph.empty : TFGraph Time) ∅ where
  mirror := mirror_empty
  parent_eq := by simp [TransformMap.parent]
  data := .empty

/-- Dropping the child's old entry keeps the data in step. -/
theorem Refines.transforms_relate {g : TFGraph Time} {m : TransformMap} (h : Refines g m)
    (parent child : String) :
    KeepsData (g.relate parent child).transforms (m.erase child) := by
  rw [TFGraph.transforms_relate]
  cases hlookup : m.lookup child with
  | none =>
      have hnone : g.getParent child = none := by
        rw [h.parent_eq, TransformMap.parent, hlookup]
        rfl
      rw [hnone, TransformMap.erase_of_lookup_eq_none hlookup]
      exact h.data
  | some e =>
      obtain ⟨p, tf⟩ := e
      have hsome : g.getParent child = some p := by
        rw [h.parent_eq, TransformMap.parent_eq_some_iff]
        exact ⟨tf, hlookup⟩
      rw [hsome]
      exact h.data.erase hlookup

/-- An accepted addition overrides the child's entry. -/
theorem Refines.accept {g : TFGraph Time} {m : TransformMap} (h : Refines g m)
    (tf : TransformStamped) (time : Time) (harrow : ¬ HasArrow tf.header.frameId) :
    Refines
      { g.relate tf.header.frameId tf.childFrameId with
        transforms := (g.relate tf.header.frameId tf.childFrameId).transforms.insert
          (makeTransformKey tf.header.frameId tf.childFrameId) ⟨tf, time⟩ }
      (m.insert tf.childFrameId (tf.header.frameId, tf)) where
  mirror := (h.mirror.relate tf.header.frameId tf.childFrameId).of_maps_eq rfl rfl
  parent_eq := by
    intro c
    have hrel := congrFun (getParent_relate g tf.header.frameId tf.childFrameId) c
    refine Eq.trans hrel ?_
    rw [TransformMap.parent_insert, attach_apply, attach_apply, h.parent_eq]
  data := by
    rw [← TransformMap.insert_erase]
    exact (h.transforms_relate tf.header.frameId tf.childFrameId).insert tf time
      (Finmap.lookup_erase _ m) harrow

/-- A matching removal loses the child's entry. -/
theorem Refines.removeTransform {g : TFGraph Time} {m : TransformMap} (h : Refines g m)
    {parent child : String} (hmatch : g.getParent child = some parent) :
    Refines (g.removeTransform parent child) (m.erase child) where
  mirror := h.mirror.removeTransform (Or.inl hmatch)
  parent_eq := by
    intro c
    rw [getParent_removeTransform, TransformMap.parent_erase, h.parent_eq]
  data := by
    rw [h.parent_eq, TransformMap.parent_eq_some_iff] at hmatch
    obtain ⟨tf, hlookup⟩ := hmatch
    exact h.data.erase hlookup

/-- One regular call of an arrow-free parent keeps the refinement. -/
theorem Refines.exec {g : TFGraph Time} {m : TransformMap} (h : Refines g m) {call : Call}
    (hregular : call.Regular rosTime g)
    (harrow : outcome rosTime g call = .ok true → ¬ HasArrow call.parent) :
    Refines (g.exec rosTime call) (m.step call (outcome rosTime g call)) := by
  cases call with
  | removeTransform parent child => exact h.removeTransform hregular.1
  | addTransform tf =>
      have hreturns := hregular.2
      rw [Call.Returns, outcome] at hreturns
      rw [outcome] at harrow ⊢
      rw [TFGraph.exec]
      rcases addTransform_cases rosTime g tf with ⟨_, heq⟩ | ⟨_, e, _, heq⟩ | ⟨_, time, _, heq⟩
      · rw [heq]
        exact h
      · rw [heq] at hreturns
        cases hreturns
      · rw [heq] at harrow ⊢
        exact h.accept tf time (harrow rfl)

theorem refines_reached {calls : List Call}
    (hregular : Run.Meets (TFGraph.exec rosTime) (fun g call => call.Regular rosTime g)
      empty calls)
    (harrow : ∀ call ∈ calls, ¬ HasArrow call.parent) :
    Refines (reached rosTime calls) (abstractMap rosTime calls) := by
  induction calls using List.reverseRecOn with
  | nil => exact refines_empty
  | append_singleton calls call ih =>
      rw [Run.meets_concat] at hregular
      rw [reached_concat, abstractMap_concat]
      have hprev := ih hregular.1 (fun c hc => harrow c (List.mem_append_left _ hc))
      exact hprev.exec hregular.2 (fun _ => harrow call (by simp))

/-! ## What the observers show -/

section Observers

variable {g : TFGraph Time} {m : TransformMap}

theorem Refines.mem_getChildren_iff (h : Refines g m) (c p : String) :
    c ∈ g.getChildren p ↔ m.parent c = some p := by
  rw [h.mirror.listed_iff, h.parent_eq]

theorem Refines.getTransform_isSome_iff (h : Refines g m) {p : String} (hp : ¬ HasArrow p)
    (c : String) : (g.getTransform p c).isSome ↔ m.parent c = some p := by
  rw [Option.isSome_iff_exists, TransformMap.parent_eq_some_iff]
  constructor
  · rintro ⟨data, hdata⟩
    exact ⟨data.transform, h.data.lookup_eq_some_iff hp hdata⟩
  · rintro ⟨tf, hlookup⟩
    obtain ⟨data, hdata, _⟩ := h.data.kept c p tf hlookup
    exact ⟨data, hdata⟩

theorem Refines.getTransform_eq (h : Refines g m) {p : String} (hp : ¬ HasArrow p)
    {c : String} {data : TransformData Time} (hdata : g.getTransform p c = some data) :
    m.lookup c = some (p, data.transform) :=
  h.data.lookup_eq_some_iff hp hdata

theorem Refines.getStatistics_snd (h : Refines g m) : g.getStatistics.2 = m.keys.card :=
  h.data.length_eq

end Observers

/-- After every prefix of a sequence of additions and matching removals, in which no
parent holds an arrow and every call returns, each observer shows the abstract map. -/
theorem observers_eq_abstractMap (rosTime : Stamp → Except Exception Time)
    (calls : List Call)
    (hregular : Run.Meets (TFGraph.exec rosTime) (fun g call => call.Regular rosTime g)
      empty calls)
    (harrow : ∀ call ∈ calls, ¬ HasArrow call.parent) :
    ∀ before, before <+: calls →
      (∀ c, (reached rosTime before).getParent c = (abstractMap rosTime before).parent c) ∧
      (∀ p, ((reached rosTime before).getChildren p).Nodup ∧
        ∀ c, c ∈ (reached rosTime before).getChildren p ↔
          (abstractMap rosTime before).parent c = some p) ∧
      (∀ p c, ¬ HasArrow p →
        (((reached rosTime before).getTransform p c).isSome ↔
          (abstractMap rosTime before).parent c = some p) ∧
        ∀ data, (reached rosTime before).getTransform p c = some data →
          (abstractMap rosTime before).lookup c = some (p, data.transform)) ∧
      (reached rosTime before).getStatistics.2 = (abstractMap rosTime before).keys.card := by
  rintro before ⟨rest, rfl⟩
  have h : Refines (reached rosTime before) (abstractMap rosTime before) :=
    refines_reached ((Run.meets_append _ _ _).mp hregular).1
      (fun call hmem => harrow call (List.mem_append_left rest hmem))
  refine ⟨h.parent_eq, ?_, ?_, h.getStatistics_snd⟩
  · intro p
    exact ⟨h.mirror.nodup p, fun c => h.mem_getChildren_iff c p⟩
  · intro p c hp
    exact ⟨h.getTransform_isSome_iff hp c, fun data hdata => h.getTransform_eq hp hdata⟩

/-- Moving `link1` to another parent replaces its transform. -/
theorem observers_eq_abstractMap_replacement :
    (reached rosTimeNanoseconds
      [.addTransform (createTransform "base" "link1" 1 0 0),
        .addTransform (createTransform "new_parent" "link1" 2 3 4)]).getStatistics.2 =
      (abstractMap rosTimeNanoseconds
        [.addTransform (createTransform "base" "link1" 1 0 0),
          .addTransform (createTransform "new_parent" "link1" 2 3 4)]).keys.card :=
  (observers_eq_abstractMap rosTimeNanoseconds _ (by decide) (by decide) _
    (List.prefix_refl _)).2.2.2

end RerunViz.TFGraph
