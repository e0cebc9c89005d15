import RerunViz.TFGraph.Refinement

set_option autoImplicit false

/-!
# Which transform is stored for an edge

After additions only, the interface describes the data of an edge without the storage
key: there is data for `p` and `c` exactly when `p` is the parent of `c`, and it is the
last accepted message for `c` (`StoresLastAccepted`).  The code keeps to that exactly as
long as no edge that is entered has an arrow in either of its names, and no stamp makes
the constructor of the data throw (`storesLastAccepted_iff`).
-/

namespace RerunViz.TFGraph

open Forest

variable {Time : Type}

section Additions

variable (rosTime : Stamp → Except Exception Time)

/-- The graph after one addition. -/
def add (g : TFGraph Time) (tf : TransformStamped) : TFGraph Time :=
  (g.addTransform rosTime tf).2

/-- The graph after the additions of a list of messages to an empty graph. -/
def added (tfs : List TransformStamped) : TFGraph Time := Run.run (add rosTime) empty tfs

/-- The messages of a list for which `addTransform` returns `true`, from a graph on. -/
def accepted (g : TFGraph Time) : List TransformStamped → List TransformStamped
  | [] => []
  | tf :: tfs =>
      if (g.addTransform rosTime tf).1 = .ok true then tf :: accepted (g.add rosTime tf) tfs
      else accepted (g.add rosTime tf) tfs

/-- The last accepted message of a list with the given child frame. -/
def lastAccepted (tfs : List TransformStamped) (c : String) : Option TransformStamped :=
  ((accepted rosTime empty tfs).filter (·.childFrameId = c)).getLast?

/-- The abstract map after the additions of a list of messages. -/
def addedMap (tfs : List TransformStamped) : TransformMap :=
  abstractMap rosTime (tfs.map Call.addTransform)

end Additions

variable {rosTime : Stamp → Except Exception Time}

theorem reached_map_addTransform (tfs : List TransformStamped) :
    reached rosTime (tfs.map Call.addTransform) = added rosTime tfs := by
  rw [reached, added, Run.run, Run.run, List.foldl_map]
  rfl

theorem added_concat (tfs : List TransformStamped) (tf : TransformStamped) :
    added rosTime (tfs ++ [tf]) = (added rosTime tfs).add rosTime tf := by
  rw [added, Run.run_append, Run.run_singleton]
  rfl

/-- A message that passes the cycle check overrides the parent of its child, whether or not
its stamp is accepted. -/
theorem getParent_add {g : TFGraph Time} {tf : TransformStamped}
    (hcyc : g.wouldCreateCycle tf.header.frameId tf.childFrameId = false) :
    (g.add rosTime tf).getParent = attach g.getParent tf.childFrameId tf.header.frameId := by
  rcases addTransform_structure rosTime g tf with ⟨htrue, _⟩ | ⟨_, hparents, _⟩
  · rw [hcyc] at htrue
    cases htrue
  · rw [TFGraph.add, getParent_eq_of_parents_eq hparents, getParent_relate]

theorem getParent_add_eq_some_iff {g : TFGraph Time} {tf : TransformStamped}
    (hcyc : g.wouldCreateCycle tf.header.frameId tf.childFrameId = false) {c p : String} :
    (g.add rosTime tf).getParent c = some p ↔
      (c = tf.childFrameId ∧ tf.header.frameId = p) ∨
        (c ≠ tf.childFrameId ∧ g.getParent c = some p) := by
  rw [getParent_add hcyc]
  exact up_attach_iff

theorem children_add {g : TFGraph Time} {tf : TransformStamped}
    (hcyc : g.wouldCreateCycle tf.header.frameId tf.childFrameId = false) :
    (g.add rosTime tf).children =
      (g.relate tf.header.frameId tf.childFrameId).children := by
  rcases addTransform_structure rosTime g tf with ⟨htrue, _⟩ | ⟨_, _, hchildren⟩
  · rw [hcyc] at htrue
    cases htrue
  · exact hchildren

/-- A message that does not pass the cycle check changes nothing. -/
theorem add_of_cycle {g : TFGraph Time} {tf : TransformStamped}
    (hcyc : g.wouldCreateCycle tf.header.frameId tf.childFrameId = true) :
    g.add rosTime tf = g := by
  rcases addTransform_structure rosTime g tf with ⟨_, heq⟩ | ⟨hfalse, _⟩
  · exact heq
  · rw [hcyc] at hfalse
    cases hfalse

/-- Additions lead to graphs whose two adjacency maps are mirror images. -/
theorem mirror_added (rosTime : Stamp → Except Exception Time) (tfs : List TransformStamped) :
    Mirror (added rosTime tfs) :=
  Run.run_keeps (fun _ tf h => h.addTransform tf) mirror_empty tfs

theorem acyclic_added (rosTime : Stamp → Except Exception Time)
    (tfs : List TransformStamped) : Acyclic (added rosTime tfs).getParent := by
  rw [← reached_map_addTransform]
  exact (sound_reached rosTime (tfs.map Call.addTransform)).acyclic_getParent

theorem addedMap_concat (tfs : List TransformStamped) (tf : TransformStamped) :
    addedMap rosTime (tfs ++ [tf]) =
      (addedMap rosTime tfs).step (.addTransform tf)
        ((added rosTime tfs).addTransform rosTime tf).1 := by
  rw [addedMap, List.map_append, List.map_singleton, abstractMap_concat,
    reached_map_addTransform]
  rfl

/-! ## The last accepted message -/

theorem accepted_concat (g : TFGraph Time) (tfs : List TransformStamped)
    (tf : TransformStamped) :
    accepted rosTime g (tfs ++ [tf]) =
      accepted rosTime g tfs ++
        (if ((Run.run (add rosTime) g tfs).addTransform rosTime tf).1 = .ok true then [tf]
          else []) := by
  induction tfs generalizing g with
  | nil => rfl
  | cons first tfs ih =>
      rw [List.cons_append, accepted, accepted, Run.run_cons, ih]
      split <;> simp

theorem lastAccepted_concat (tfs : List TransformStamped) (tf : TransformStamped)
    (c : String) :
    lastAccepted rosTime (tfs ++ [tf]) c =
      if ((added rosTime tfs).addTransform rosTime tf).1 = .ok true ∧ tf.childFrameId = c
        then some tf
      else lastAccepted rosTime tfs c := by
  rw [lastAccepted, accepted_concat, lastAccepted, added]
  by_cases hok : ((Run.run (add rosTime) empty tfs).addTransform rosTime tf).1 = .ok true
  · by_cases hc : tf.childFrameId = c <;> simp [hok, hc]
  · simp [hok]

/-- The last accepted message for a frame has that frame as its child. -/
theorem childFrameId_of_lastAccepted {tfs : List TransformStamped} {c : String}
    {tf : TransformStamped} (h : lastAccepted rosTime tfs c = some tf) :
    tf.childFrameId = c := by
  have hmem := List.mem_of_getLast? h
  simpa using (List.mem_filter.mp hmem).2

/-- The abstract map sends a frame to the last accepted message for it. -/
theorem lookup_addedMap (tfs : List TransformStamped) (c : String) :
    (addedMap rosTime tfs).lookup c =
      (lastAccepted rosTime tfs c).map fun tf => (tf.header.frameId, tf) := by
  induction tfs using List.reverseRecOn with
  | nil => rfl
  | append_singleton tfs tf ih =>
      rw [addedMap_concat, lastAccepted_concat]
      by_cases hok : ((added rosTime tfs).addTransform rosTime tf).1 = .ok true
      · by_cases hc : tf.childFrameId = c
        · subst hc
          simp [hok, TransformMap.step]
        · have hc' : c ≠ tf.childFrameId := fun heq => hc heq.symm
          simp [hok, hc, TransformMap.step, Finmap.lookup_insert_of_ne _ hc', ih]
      · have hstep : (addedMap rosTime tfs).step (.addTransform tf)
            ((added rosTime tfs).addTransform rosTime tf).1 = addedMap rosTime tfs := by
          unfold TransformMap.step
          split <;> simp_all
        rw [hstep, ih, if_neg (fun h => hok h.1)]

/-! ## The law and the condition -/

/-- There is data for `p` and `c` exactly when `p` is the parent of `c`, and then it is
the last accepted message for `c`. -/
structure StoresLastAccepted (rosTime : Stamp → Except Exception Time)
    (tfs : List TransformStamped) : Prop where
  isSome_iff : ∀ p c, ((added rosTime tfs).getTransform p c).isSome ↔
    (added rosTime tfs).getParent c = some p
  value : ∀ p c data, (added rosTime tfs).getTransform p c = some data →
    lastAccepted rosTime tfs c = some data.transform

/-- A message that passes the cycle check has no arrow in its names, and a stamp that the
time constructor accepts. -/
def Plain (rosTime : Stamp → Except Exception Time) (g : TFGraph Time)
    (tf : TransformStamped) : Prop :=
  g.wouldCreateCycle tf.header.frameId tf.childFrameId = false →
    ¬ HasArrow tf.header.frameId ∧ ¬ HasArrow tf.childFrameId ∧
      (rosTime tf.header.stamp).isOk = true

/-! ## Plain additions store the last accepted message -/

/-- No frame of the abstract map has an arrow in its name. -/
def TransformMap.ArrowFree (m : TransformMap) : Prop :=
  ∀ c p tf, m.lookup c = some (p, tf) → ¬ HasArrow c

theorem Refines.add {g : TFGraph Time} {m : TransformMap} (h : Refines g m)
    (harrow : m.ArrowFree) {tf : TransformStamped} (hplain : Plain rosTime g tf) :
    Refines (g.add rosTime tf) (m.step (.addTransform tf) (g.addTransform rosTime tf).1) ∧
      (m.step (.addTransform tf) (g.addTransform rosTime tf).1).ArrowFree := by
  rcases addTransform_cases rosTime g tf with
    ⟨_, heq⟩ | ⟨hcyc, e, htime, heq⟩ | ⟨hcyc, time, _, heq⟩
  · rw [TFGraph.add, heq]
    exact ⟨h, harrow⟩
  · have hok := (hplain hcyc).2.2
    rw [htime] at hok
    cases hok
  · obtain ⟨hp, hchild, _⟩ := hplain hcyc
    rw [TFGraph.add, heq]
    refine ⟨h.accept tf time hp, ?_⟩
    intro c p tf' hc
    rcases TransformMap.lookup_insert_eq_some_iff.mp hc with ⟨rfl, _⟩ | ⟨_, hold⟩
    · exact hchild
    · exact harrow c p tf' hold

theorem refines_added {tfs : List TransformStamped}
    (h : Run.Meets (add rosTime) (Plain rosTime) empty tfs) :
    Refines (added rosTime tfs) (addedMap rosTime tfs) ∧
      (addedMap rosTime tfs).ArrowFree := by
  induction tfs using List.reverseRecOn with
  | nil => exact ⟨refines_empty, fun c p tf hc => by cases hc⟩
  | append_singleton tfs tf ih =>
      rw [Run.meets_concat] at h
      obtain ⟨hprev, harrow⟩ := ih h.1
      rw [added_concat, addedMap_concat]
      exact hprev.add harrow h.2

/-- When no name has an arrow, a key leads to the edge it was made for. -/
theorem Refines.lookup_of_getTransform {g : TFGraph Time} {m : TransformMap}
    (h : Refines g m) (harrow : m.ArrowFree) {p c : String} {data : TransformData Time}
    (hdata : g.getTransform p c = some data) : m.lookup c = some (p, data.transform) := by
  obtain ⟨p', c', hkey, hc'⟩ := h.data.stored _ data hdata
  obtain ⟨rfl, rfl⟩ :=
    makeTransformKey_unique (h.data.arrow_free c' p' _ hc') (harrow c' p' _ hc') hkey
  exact hc'

theorem storesLastAccepted_of_plain {tfs : List TransformStamped}
    (h : Run.Meets (add rosTime) (Plain rosTime) empty tfs) :
    StoresLastAccepted rosTime tfs := by
  obtain ⟨hrefines, harrow⟩ := refines_added h
  constructor
  · intro p c
    rw [hrefines.parent_eq, TransformMap.parent_eq_some_iff, Option.isSome_iff_exists]
    constructor
    · rintro ⟨data, hdata⟩
      exact ⟨data.transform, hrefines.lookup_of_getTransform harrow hdata⟩
    · rintro ⟨tf, hlookup⟩
      obtain ⟨data, hdata, _⟩ := hrefines.data.kept c p tf hlookup
      exact ⟨data, hdata⟩
  · intro p c data hdata
    have hlookup := hrefines.lookup_of_getTransform harrow hdata
    rw [lookup_addedMap, Option.map_eq_some_iff] at hlookup
    obtain ⟨tf, hlast, heq⟩ := hlookup
    rw [hlast, (Prod.mk.inj heq).2]

/-- A plain addition does not touch the data of another child. -/
theorem Refines.getTransform_add {g : TFGraph Time} {m : TransformMap} (h : Refines g m)
    (harrow : m.ArrowFree) {tf : TransformStamped} (hplain : Plain rosTime g tf)
    {p c : String} (hc : c ≠ tf.childFrameId) :
    (g.add rosTime tf).getTransform p c = g.getTransform p c := by
  have herase : (g.relate tf.header.frameId tf.childFrameId).getTransform p c =
      g.getTransform p c := by
    rw [getTransform, getTransform, TFGraph.transforms_relate]
    cases hold : g.getParent tf.childFrameId with
    | none => rfl
    | some oldParent =>
        have hlookup := hold
        rw [h.parent_eq, TransformMap.parent_eq_some_iff] at hlookup
        obtain ⟨tf', hlookup⟩ := hlookup
        refine AList.lookup_erase_ne ?_
        intro hkey
        exact hc (makeTransformKey_unique (h.data.arrow_free _ _ _ hlookup)
          (harrow _ _ _ hlookup) hkey).2
  rcases addTransform_cases rosTime g tf with
    ⟨_, heq⟩ | ⟨_, e, _, heq⟩ | ⟨hcyc, time, _, heq⟩
  · rw [TFGraph.add, heq]
  · rw [TFGraph.add, heq, herase]
  · obtain ⟨hp, hchild, _⟩ := hplain hcyc
    rw [TFGraph.add, heq, ← herase]
    refine AList.lookup_insert_ne ?_
    intro hkey
    exact hc (makeTransformKey_unique hp hchild hkey).2

/-! ## Other additions break the law -/

/-- The relationship alone brings no data: what was stored under the key of the new edge
was the data of the old one. -/
theorem getTransform_relate_eq_none {g : TFGraph Time} {parent child : String}
    (h : (g.getTransform parent child).isSome → g.getParent child = some parent) :
    (g.relate parent child).getTransform parent child = none := by
  rw [← Option.not_isSome_iff_eq_none, getTransform, transforms_relate]
  cases hparent : g.getParent child with
  | none =>
      intro hdata
      have hedge := h hdata
      rw [hparent] at hedge
      cases hedge
  | some oldParent =>
      rw [Assoc.lookup_erase]
      split
      · simp
      · rename_i hkey
        intro hdata
        have hedge := (h hdata).symm.trans hparent
        exact hkey (by rw [Option.some.inj hedge])

/-- Two pairs of names with one key share one message, so that they have one child. -/
theorem StoresLastAccepted.child_eq {tfs : List TransformStamped}
    (h : StoresLastAccepted rosTime tfs) {p c p' c' : String}
    (hkey : makeTransformKey p c = makeTransformKey p' c')
    (hup : (added rosTime tfs).getParent c = some p) : c = c' := by
  obtain ⟨data, hdata⟩ := Option.isSome_iff_exists.mp ((h.isSome_iff p c).mpr hup)
  have hdata' : (added rosTime tfs).getTransform p' c' = some data := by
    rw [getTransform, ← hkey]
    exact hdata
  have hchild := childFrameId_of_lastAccepted (h.value _ _ _ hdata)
  have hchild' := childFrameId_of_lastAccepted (h.value _ _ _ hdata')
  exact hchild.symm.trans hchild'

/-- When the law holds before and after a message that passes the cycle check, the message
is plain: a stamp that is not accepted leaves a parent without data, and an arrow lets a
second pair of names find the new data. -/
theorem plain_of_storesLastAccepted {tfs : List TransformStamped} {tf : TransformStamped}
    (hbefore : StoresLastAccepted rosTime tfs)
    (hafter : StoresLastAccepted rosTime (tfs ++ [tf])) :
    Plain rosTime (added rosTime tfs) tf := by
  intro hcyc
  have hisSome := hafter.isSome_iff
  rw [added_concat, TFGraph.add] at hisSome
  rcases addTransform_cases rosTime (added rosTime tfs) tf with
    ⟨hcyc', _⟩ | ⟨_, e, _, heq⟩ | ⟨_, time, htime, heq⟩
  · rw [hcyc] at hcyc'
    cases hcyc'
  · exfalso
    rw [heq] at hisSome
    have hdata := (hisSome tf.header.frameId tf.childFrameId).mpr
      (by rw [getParent_relate, attach_self])
    rw [getTransform_relate_eq_none (hbefore.isSome_iff _ _).mp] at hdata
    cases hdata
  · by_contra hnot
    have harrow : HasArrow tf.header.frameId ∨ HasArrow tf.childFrameId := by
      by_contra hnone
      rw [not_or] at hnone
      exact hnot ⟨hnone.1, hnone.2, by rw [htime]; rfl⟩
    obtain ⟨p, c, hne, hkey⟩ := exists_other_pair harrow
    rw [heq] at hisSome
    have hparent := (hisSome p c).mp (by
      rw [getTransform, hkey, AList.lookup_insert]
      rfl)
    have hrel := congrFun
      (getParent_relate (added rosTime tfs) tf.header.frameId tf.childFrameId) c
    -- the second pair is either the new edge itself or was an edge already
    rcases up_attach_iff.mp (hrel.symm.trans hparent) with ⟨hc, hp⟩ | ⟨hc, hup⟩
    · exact hne (by rw [hc, hp])
    · exact hc (hbefore.child_eq hkey hup)

/-- Along a list of additions, the data of every edge is the last accepted message for its
child, and no addition touches the data of another child, if and only if every addition
that passes the cycle check has no arrow in its names and an accepted stamp. -/
theorem storesLastAccepted_iff (rosTime : Stamp → Except Exception Time)
    (tfs : List TransformStamped) :
    ((∀ before, before <+: tfs → StoresLastAccepted rosTime before) ∧
      ∀ before tf, before ++ [tf] <+: tfs → ∀ p c, c ≠ tf.childFrameId →
        (added rosTime (before ++ [tf])).getTransform p c =
          (added rosTime before).getTransform p c) ↔
      Run.Meets (add rosTime) (Plain rosTime) empty tfs := by
  constructor
  · rintro ⟨hstores, _⟩
    exact Run.meets_of_prefixes hstores fun _ _ hbefore hafter =>
      plain_of_storesLastAccepted hbefore hafter
  · intro hplain
    refine ⟨?_, ?_⟩
    · rintro before ⟨rest, rfl⟩
      exact storesLastAccepted_of_plain ((Run.meets_append _ _ _).mp hplain).1
    · rintro before tf ⟨rest, rfl⟩ p c hc
      have hboth := (Run.meets_append _ _ _).mp hplain
      rw [Run.meets_concat] at hboth
      obtain ⟨hrefines, harrow⟩ := refines_added hboth.1.1
      rw [added_concat]
      exact hrefines.getTransform_add harrow hboth.1.2 hc

/-- The edge from `a->b` to `c` has the key of an edge from `a` to `b->c`. -/
theorem not_storesLastAccepted_arrow :
    ¬ StoresLastAccepted rosTimeNanoseconds [createTransform "a->b" "c" 1 0 0] := by
  intro h
  have hiff := h.isSome_iff "a" "b->c"
  revert hiff
  decide

end RerunViz.TFGraph
