import Mathlib.GroupTheory.FreeGroup.Basic
import RerunViz.Lib.Scene
import RerunViz.TFGraph.Path
import RerunViz.TFGraph.Refinement

set_option autoImplicit false

/-!
# Where frames are

The transforms on the way from the root to a frame give its pose (`FramePose`).  Two frames
are also related by the path between them, whose steps go down an edge or up against it.
After every regular run, whatever transforms mean, both give the same: the transforms along
the path of `getPath` lead from the one pose to the other (`path_leads_between_poses`).
-/

namespace RerunViz.TFGraph

open Forest Relation

variable {Time M : Type} {rosTime : Stamp → Except Exception Time}

/-- Where the graph has a frame with respect to its root: its own transform comes last.  There
is no such pose when the data of an edge on the way is missing. -/
inductive FramePose [Monoid M] (g : TFGraph Time) (interpret : Transform → M) :
    String → M → Prop
  | root {f : String} (h : g.getParent f = none) : FramePose g interpret f 1
  | step {f p : String} {m : M} {data : TransformData Time} (hup : g.getParent f = some p)
      (hdata : g.getTransform p f = some data) (rest : FramePose g interpret p m) :
      FramePose g interpret f (m * interpret data.transform.transform)

section Monoid

variable [Monoid M] {g : TFGraph Time} {interpret : Transform → M} {f : String} {m m' : M}

theorem FramePose.unique (h : FramePose g interpret f m) (h' : FramePose g interpret f m') :
    m = m' := by
  induction h generalizing m' with
  | root hroot =>
      cases h' with
      | root _ => rfl
      | step hup _ _ =>
          rw [hroot] at hup
          cases hup
  | step hup hdata _ ih =>
      cases h' with
      | root hroot =>
          rw [hup] at hroot
          cases hroot
      | step hup' hdata' rest' =>
          obtain rfl := Up.functional hup hup'
          obtain rfl := Option.some.inj (hdata.symm.trans hdata')
          rw [ih rest']

/-- A graph that shows an abstract map has the data of every edge. -/
theorem Refines.exists_getTransform {map : TransformMap} (h : Refines g map) {c p : String}
    (hup : g.getParent c = some p) : ∃ data, g.getTransform p c = some data := by
  rw [h.parent_eq, TransformMap.parent_eq_some_iff] at hup
  obtain ⟨tf, hlookup⟩ := hup
  obtain ⟨data, hdata, _⟩ := h.data.kept c p tf hlookup
  exact ⟨data, hdata⟩

theorem Refines.exists_framePose {map : TransformMap} (h : Refines g map)
    (hac : Acyclic g.getParent) (interpret : Transform → M) (f : String) :
    ∃ m, FramePose g interpret f m := by
  obtain ⟨l, hroot⟩ : ∃ l, RootPath g.getParent f l :=
    (exists_getPathToRoot hac f).imp fun _ hl => hl.2
  induction hroot with
  | root hnone => exact ⟨1, .root hnone⟩
  | step hup _ ih =>
      obtain ⟨m, hm⟩ := ih
      obtain ⟨data, hdata⟩ := h.exists_getTransform hup
      exact ⟨_, .step hup hdata hm⟩

end Monoid

section Group

variable [Group M]

/-- The transform of a step between two frames: that of the edge down to the second, or the
inverse of that of the edge down to the first. -/
def stepTransform (g : TFGraph Time) (interpret : Transform → M) (x y : String) : Option M :=
  if g.getParent y = some x then
    (g.getTransform x y).map fun data => interpret data.transform.transform
  else (g.getTransform y x).map fun data => (interpret data.transform.transform)⁻¹

variable {g : TFGraph Time} {map : TransformMap} {interpret : Transform → M}

/-- A step between adjacent frames leads from the pose of the first to that of the second. -/
theorem Refines.stepTransform_eq (h : Refines g map) (hac : Acyclic g.getParent) {x y : String}
    (hadj : Adj g.getParent x y) {mx my : M} (hx : FramePose g interpret x mx)
    (hy : FramePose g interpret y my) : g.stepTransform interpret x y = some (mx⁻¹ * my) := by
  rw [Adj, Up, Up] at hadj
  rcases hadj with hdown | hup
  · obtain ⟨data, hdata⟩ := h.exists_getTransform hdown
    obtain rfl := hy.unique (.step hdown hdata hx)
    rw [stepTransform, if_pos hdown, hdata, Option.map_some, inv_mul_cancel_left]
  · obtain ⟨data, hdata⟩ := h.exists_getTransform hup
    obtain rfl := hx.unique (.step hup hdata hy)
    -- the edge goes one way only
    have hnot : g.getParent y ≠ some x := fun hdown =>
      hac x (.tail (.single hup) hdown)
    rw [stepTransform, if_neg hnot, hdata, Option.map_some, mul_inv_rev, inv_mul_cancel_right]

/-- After every regular run, none with an arrow in a parent, and for every meaning of transforms
in a group: `getPath` between two frames returns the empty list when they are not connected,
and otherwise a path along which the transforms that `getTransform` returns, inverted where
the path goes up, lead from the pose of the first frame to that of the second. -/
theorem path_leads_between_poses (rosTime : Stamp → Except Exception Time) (calls : List Call)
    (hregular : Run.Meets (exec rosTime) (fun g call => call.Regular rosTime g) empty calls)
    (harrow : ∀ call ∈ calls, ¬ HasArrow call.parent) (interpret : Transform → M)
    (source dest : String) :
    ∃ poseSource poseDest path,
      FramePose (reached rosTime calls) interpret source poseSource ∧
      FramePose (reached rosTime calls) interpret dest poseDest ∧
      (reached rosTime calls).getPath source dest = some path ∧
      (path = [] ↔ ¬ ReflTransGen (Adj (reached rosTime calls).getParent) source dest) ∧
      (path ≠ [] → Scene.along ((reached rosTime calls).stepTransform interpret) path =
        some (poseSource⁻¹ * poseDest)) := by
  have hrefines := refines_reached hregular harrow
  have hac := (sound_reached rosTime calls).acyclic_getParent
  choose pose hpose using hrefines.exists_framePose hac interpret
  refine ⟨pose source, pose dest, ?_⟩
  rcases getPath_spec (reached rosTime calls) source dest with
    ⟨hpath, hreach⟩ | ⟨path, hpath, hsimple⟩
  · rw [hrefines.mirror.mem_neighbours_eq] at hreach
    exact ⟨[], hpose source, hpose dest, hpath, iff_of_true rfl hreach, fun h => absurd rfl h⟩
  · rw [hrefines.mirror.mem_neighbours_eq] at hsimple
    have hne : path ≠ [] := by
      rintro rfl
      cases hsimple.head_eq
    refine ⟨path, hpose source, hpose dest, hpath,
      iff_of_false hne (not_not_intro hsimple.reachable), fun _ => ?_⟩
    have hchain := hsimple.chain.imp fun x y hadj =>
      hrefines.stepTransform_eq hac hadj (hpose x) (hpose y)
    exact Scene.along_eq pose hchain hsimple.head_eq hsimple.getLast_eq

end Group

/-- Two frames beside each other. -/
def siblings : TFGraph Int :=
  reached rosTimeNanoseconds
    [.addTransform (createTransform "base" "link1" 1 0 0),
      .addTransform (createTransform "base" "link2" 0 1 0)]

theorem framePose_siblings {f : String} (tf : TransformStamped)
    (hup : siblings.getParent f = some "base")
    (hdata : siblings.getTransform "base" f = some ⟨tf, 123000456789⟩) :
    FramePose siblings FreeGroup.of f (1 * FreeGroup.of tf.transform) := by
  have hroot : FramePose siblings FreeGroup.of "base" 1 := .root (by decide)
  have hpose := hroot.step hup hdata
  exact hpose

/-- The way leads up against the first transform, and down along the second. -/
theorem path_leads_between_poses_siblings :
    Scene.along (siblings.stepTransform FreeGroup.of) ["link1", "base", "link2"] =
      some ((1 * FreeGroup.of (createTransform "base" "link1" 1 0 0).transform)⁻¹ *
        (1 * FreeGroup.of (createTransform "base" "link2" 0 1 0).transform)) := by
  obtain ⟨_, _, path, hsource, hdest, hpath, _, halong⟩ :=
    path_leads_between_poses rosTimeNanoseconds
      [.addTransform (createTransform "base" "link1" 1 0 0),
        .addTransform (createTransform "base" "link2" 0 1 0)]
      (by decide) (by decide) FreeGroup.of "link1" "link2"
  obtain rfl : ["link1", "base", "link2"] = path :=
    Option.some.inj (Eq.trans (by decide) hpath)
  obtain rfl := hsource.unique
    (framePose_siblings (createTransform "base" "link1" 1 0 0) (by decide) (by decide))
  obtain rfl := hdest.unique
    (framePose_siblings (createTransform "base" "link2" 0 1 0) (by decide) (by decide))
  exact halong (by decide)

end RerunViz.TFGraph
