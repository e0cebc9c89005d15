import Mathlib.Data.Set.Basic
import RerunViz.TFGraph.Log

set_option autoImplicit false

/-!
# Entity paths that clash

`logTransformToRerun` joins the frames between the root and a frame by slashes, and frame
ids may hold slashes themselves.  In one graph, two frames get the same path exactly when
the id of one ends in a slash and the id of the other, and the paths of the parents make up
for what comes before the slash (`distinctPaths_iff_parents`).  Over all graphs, any two ids
related like that clash somewhere (`distinctPaths_iff`).
-/

namespace RerunViz.TFGraph

open Forest Relation

variable {Time : Type} {rosTime : Stamp → Except Exception Time}

/-- Different frames that have a parent are logged at different entities. -/
def DistinctPaths (g : TFGraph Time) : Prop :=
  ∀ x y, x ≠ y → (g.getParent x).isSome = true → (g.getParent y).isSome = true →
    ∀ p p' data data' record record', g.logTransformToRerun p x data = some record →
      g.logTransformToRerun p' y data' = some record' → record.entityPath ≠ record'.entityPath

/-- The frames that have a parent are among the names. -/
def ParentedIn (g : TFGraph Time) (names : Set String) : Prop :=
  ∀ c, (g.getParent c).isSome = true → c ∈ names

/-! ## What two equal paths say about their last frames -/

/-- Two paths that agree end in the same frame, or the longer of the two last frames is the
other one behind a slash and what its own path is short of. -/
theorem eq_or_slash_of_path_eq {a b x y : String} (h : a ++ "/" ++ x = b ++ "/" ++ y) :
    x = y ∨ (∃ u, x = u ++ "/" ++ y ∧ b = a ++ "/" ++ u) ∨
      ∃ u, y = u ++ "/" ++ x ∧ a = b ++ "/" ++ u := by
  have hslash : "/".toList = ['/'] := by decide
  -- the part by which one of the two heads is longer
  have hextra : ∀ (z : List Char) (a b x y : String), b.toList = a.toList ++ z →
      '/' :: x.toList = z ++ '/' :: y.toList →
        x = y ∨ ∃ u, x = u ++ "/" ++ y ∧ b = a ++ "/" ++ u := by
    intro z a b x y hhead hz
    cases z with
    | nil =>
        rw [List.nil_append, List.cons.injEq] at hz
        exact Or.inl (String.toList_inj.mp hz.2)
    | cons ch z =>
        rw [List.cons_append, List.cons.injEq] at hz
        obtain ⟨rfl, hx⟩ := hz
        refine Or.inr ⟨String.ofList z, String.toList_inj.mp ?_, String.toList_inj.mp ?_⟩
        · rw [String.toList_append, String.toList_append, String.toList_ofList, hslash, hx,
            List.append_assoc]
          rfl
        · rw [String.toList_append, String.toList_append, hslash, String.toList_ofList, hhead,
            List.append_assoc]
          rfl
  have hlist := congrArg String.toList h
  simp only [String.toList_append, hslash, List.append_assoc, List.singleton_append] at hlist
  rcases List.append_eq_append_iff.mp hlist with ⟨z, hhead, hz⟩ | ⟨z, hhead, hz⟩
  · exact (hextra z a b x y hhead hz).imp_right Or.inl
  · rcases hextra z b a y x hhead hz with heq | hu
    · exact Or.inl heq.symm
    · exact Or.inr (Or.inr hu)

theorem length_slash (a b : String) : (a ++ "/" ++ b).length = a.length + 1 + b.length := by
  have hslash : "/".length = 1 := by decide
  rw [String.length_append, String.length_append, hslash]

theorem ne_of_length_lt {s t : String} (h : s.length < t.length) : s ≠ t := by
  rintro rfl
  exact Nat.lt_irrefl _ h

/-- `logTransformToRerun` logs at the entity path of the child. -/
theorem entityPath_of_logged {g : TFGraph Time} {p c : String} {data : TransformData Time}
    {record : Record Transform3D} (h : g.logTransformToRerun p c data = some record) :
    EntityPath g.getParent c record.entityPath := by
  unfold logTransformToRerun at h
  split at h
  · cases h
  · rename_i l hl
    obtain rfl := Option.some.inj h
    exact entityPath_of_rootPath (getPathToRoot_eq_some_iff.mp hl)

/-- A frame that has an entity path is logged there. -/
theorem EntityPath.exists_logged {g : TFGraph Time} {c path : String}
    (h : EntityPath g.getParent c path) (p : String) (data : TransformData Time) :
    ∃ record, g.logTransformToRerun p c data = some record ∧ record.entityPath = path := by
  have hroot : ∃ l, RootPath g.getParent c l := by
    induction h with
    | @root f hnone => exact ⟨[f], .root hnone⟩
    | @step f _ _ hup _ ih =>
        obtain ⟨l, hl⟩ := ih
        exact ⟨f :: l, .step hup hl⟩
  obtain ⟨l, hl⟩ := hroot
  refine ⟨_, by rw [logTransformToRerun, getPathToRoot_eq_some_iff.mpr hl], ?_⟩
  exact (entityPath_of_rootPath hl).unique h

/-- The entity path of a frame with a parent stands under that of the parent. -/
theorem EntityPath.exists_parent {parent : String → Option String} {c path : String}
    (h : EntityPath parent c path) (hparent : (parent c).isSome = true) :
    ∃ p path', parent c = some p ∧ EntityPath parent p path' ∧ path = path' ++ "/" ++ c := by
  cases h with
  | root hnone =>
      rw [hnone] at hparent
      cases hparent
  | step hup rest => exact ⟨_, _, hup, rest, rfl⟩

/-- In one graph, different frames are logged at different entities if and only if no frame
`u/x` hangs below the entity `path` while `x` hangs below `path/u`. -/
theorem distinctPaths_iff_parents [Inhabited Time] {g : TFGraph Time} :
    DistinctPaths g ↔ ∀ x u a b path, g.getParent x = some a →
      g.getParent (u ++ "/" ++ x) = some b → EntityPath g.getParent b path →
        ¬ EntityPath g.getParent a (path ++ "/" ++ u) := by
  constructor
  · intro h x u a b path hx hy hb ha
    have hne : x ≠ u ++ "/" ++ x := ne_of_length_lt (by rw [length_slash]; omega)
    have data : TransformData Time := ⟨createTransform "" "" 0 0 0, default⟩
    obtain ⟨record, hlogged, hpath⟩ := (EntityPath.step hx ha).exists_logged "" data
    obtain ⟨record', hlogged', hpath'⟩ := (EntityPath.step hy hb).exists_logged "" data
    refine h x (u ++ "/" ++ x) hne (by rw [hx]; rfl) (by rw [hy]; rfl) "" "" data data
      record record' hlogged hlogged' ?_
    rw [hpath, hpath']
    simp only [String.append_assoc]
  · intro h x y hne hx hy p p' data data' record record' hlogged hlogged' heq
    obtain ⟨a, pathA, hupX, ha, hpath⟩ := (entityPath_of_logged hlogged).exists_parent hx
    obtain ⟨b, pathB, hupY, hb, hpath'⟩ := (entityPath_of_logged hlogged').exists_parent hy
    rw [hpath, hpath'] at heq
    rcases eq_or_slash_of_path_eq heq with hxy | ⟨u, rfl, rfl⟩ | ⟨u, rfl, rfl⟩
    · exact hne hxy
    · exact h y u b a pathA hupY hupX ha hb
    · exact h x u a b pathB hupX hupY hb ha

/-- Names of which none is another one behind a slash give distinct paths. -/
theorem distinctPaths_of_parentedIn [Inhabited Time] {g : TFGraph Time} {names : Set String}
    (hnames : ∀ x ∈ names, ∀ y ∈ names, ∀ u, y ≠ u ++ "/" ++ x) (hin : ParentedIn g names) :
    DistinctPaths g := by
  rw [distinctPaths_iff_parents]
  intro x u a b path hx hy _ _
  exact hnames x (hin x (by rw [hx]; rfl)) (u ++ "/" ++ x) (hin _ (by rw [hy]; rfl)) u rfl

/-! ## Two names that clash -/

/-- A frame without parent becomes the parent of any other frame. -/
theorem Mirror.getParent_add_of_root {g : TFGraph Time} (h : Mirror g)
    (rosTime : Stamp → Except Exception Time) (tf : TransformStamped)
    (hroot : g.getParent tf.header.frameId = none) (hne : tf.header.frameId ≠ tf.childFrameId) :
    (g.add rosTime tf).getParent = attach g.getParent tf.childFrameId tf.header.frameId := by
  refine getParent_add (Bool.eq_false_iff.mpr ?_)
  rw [Ne, h.wouldCreateCycle_iff]
  intro hreach
  rcases hreach.cases_head with heq | ⟨z, hup, _⟩
  · exact hne heq
  · rw [Up, hroot] at hup
    cases hup

/-- The messages `r/u -> x` and `r -> u/x`, which give both children the path `TF/r/u/x`. -/
def clashing (r u x : String) : List TransformStamped :=
  [createTransform (r ++ "/" ++ u) x 0 0 0, createTransform r (u ++ "/" ++ x) 0 0 0]

/-- With a long `r` both parents differ from both children. -/
theorem parents_ne_children {r u x : String} (hr : (u ++ "/" ++ x).length < r.length) :
    (r ++ "/" ++ u ≠ x ∧ r ++ "/" ++ u ≠ u ++ "/" ++ x) ∧ r ≠ x ∧ r ≠ u ++ "/" ++ x := by
  rw [length_slash] at hr
  refine ⟨⟨?_, ?_⟩, ?_, ?_⟩
  · exact (ne_of_length_lt (by rw [length_slash]; omega)).symm
  · exact (ne_of_length_lt (by rw [length_slash, length_slash]; omega)).symm
  · exact (ne_of_length_lt (by omega)).symm
  · exact (ne_of_length_lt (by rw [length_slash]; omega)).symm

/-- When `r` is longer than both children, the two messages are accepted. -/
theorem getParent_clashing (rosTime : Stamp → Except Exception Time) {r u x : String}
    (hr : (u ++ "/" ++ x).length < r.length) :
    (added rosTime (clashing r u x)).getParent =
      attach (attach (fun _ => none) x (r ++ "/" ++ u)) (u ++ "/" ++ x) r := by
  obtain ⟨⟨hlong, _⟩, hrx, hry⟩ := parents_ne_children hr
  have hfirst : (added rosTime [createTransform (r ++ "/" ++ u) x 0 0 0]).getParent =
      attach (fun _ => none) x (r ++ "/" ++ u) :=
    mirror_empty.getParent_add_of_root rosTime (createTransform (r ++ "/" ++ u) x 0 0 0) rfl hlong
  have hroot : (added rosTime [createTransform (r ++ "/" ++ u) x 0 0 0]).getParent r = none := by
    rw [hfirst, attach_apply, if_neg hrx]
  have hsecond := (mirror_added rosTime
    [createTransform (r ++ "/" ++ u) x 0 0 0]).getParent_add_of_root rosTime
      (createTransform r (u ++ "/" ++ x) 0 0 0) hroot hry
  rw [hfirst] at hsecond
  exact hsecond

/-- Both children are logged at the same entity. -/
theorem not_distinctPaths_clashing [Inhabited Time] {r u x : String}
    (hr : (u ++ "/" ++ x).length < r.length) :
    ¬ DistinctPaths (added rosTime (clashing r u x)) := by
  have hparent := getParent_clashing rosTime hr
  obtain ⟨⟨hlongX, hlongY⟩, hrx, hry⟩ := parents_ne_children hr
  have hne : x ≠ u ++ "/" ++ x := ne_of_length_lt (by rw [length_slash]; omega)
  have hrest : ∀ f, f ≠ x → f ≠ u ++ "/" ++ x →
      (added rosTime (clashing r u x)).getParent f = none := by
    intro f hfx hfy
    rw [hparent, attach_apply, if_neg hfy, attach_apply, if_neg hfx]
  have hx : (added rosTime (clashing r u x)).getParent x = some (r ++ "/" ++ u) := by
    rw [hparent, attach_apply, if_neg hne, attach_self]
  have hy : (added rosTime (clashing r u x)).getParent (u ++ "/" ++ x) = some r := by
    rw [hparent, attach_self]
  have hlongRoot : (added rosTime (clashing r u x)).getParent (r ++ "/" ++ u) = none :=
    hrest _ hlongX hlongY
  have hroot : (added rosTime (clashing r u x)).getParent r = none := hrest _ hrx hry
  have hpath : "TF/" ++ (r ++ "/" ++ u) = "TF/" ++ r ++ "/" ++ u := by
    simp only [String.append_assoc]
  rw [distinctPaths_iff_parents]
  intro hdistinct
  refine hdistinct x u (r ++ "/" ++ u) r ("TF/" ++ r) hx hy (.root hroot) ?_
  rw [← hpath]
  exact .root hlongRoot

theorem parentedIn_clashing {names : Set String} {r u x : String}
    (hr : (u ++ "/" ++ x).length < r.length) (hx : x ∈ names) (hy : u ++ "/" ++ x ∈ names) :
    ParentedIn (added rosTime (clashing r u x)) names := by
  intro c hc
  rw [getParent_clashing rosTime hr, attach_apply, attach_apply] at hc
  split at hc
  · rename_i heq
    exact heq ▸ hy
  · split at hc
    · rename_i heq
      exact heq ▸ hx
    · cases hc

/-! ## Which names clash -/

/-- For every set of names: in every graph that additions lead to, and whose frames with a
parent have these names, different such frames are logged at different entities, if and
only if none of the names is another one with something and a slash in front. -/
theorem distinctPaths_iff [Inhabited Time] (rosTime : Stamp → Except Exception Time)
    (names : Set String) :
    (∀ tfs, ParentedIn (added rosTime tfs) names → DistinctPaths (added rosTime tfs)) ↔
      ∀ x ∈ names, ∀ y ∈ names, ∀ u, y ≠ u ++ "/" ++ x := by
  constructor
  · rintro h x hx y hy u rfl
    have hlong : (u ++ "/" ++ x).length < (u ++ "/" ++ x ++ "r").length := by
      have hone : "r".length = 1 := by decide
      rw [String.length_append (u ++ "/" ++ x), hone]
      omega
    exact not_distinctPaths_clashing hlong (h _ (parentedIn_clashing hlong hx hy))
  · intro hnames tfs hin
    exact distinctPaths_of_parentedIn hnames hin

/-- The frames `link` and `arm/link` of `map -> arm -> link` and `map -> arm/link` are both
logged at `TF/map/arm/link`. -/
theorem not_distinctPaths_slash :
    ¬ DistinctPaths (added rosTimeNanoseconds
      [createTransform "map" "arm" 1 0 0, createTransform "arm" "link" 0 1 0,
        createTransform "map" "arm/link" 0 0 1]) := by
  intro h
  have hclash := h "link" "arm/link" (by decide) (by decide) (by decide) "" ""
    ⟨createTransform "" "" 0 0 0, 0⟩ ⟨createTransform "" "" 0 0 0, 0⟩ _ _ rfl rfl
  revert hclash
  decide

end RerunViz.TFGraph
