import RerunViz.RobotDescription.Model

set_option autoImplicit false

/-!
# The recursion over links and joints

`visitLink` and `visitJoint` are `urdfDepthFirst` with the entry that a joint adds left
open: a transform request in the source, or the joint itself when the calls are counted.
When the joints below a link unfold into a forest, the recursion is a loop over that forest
in preorder, which an unsupported joint ends (`visitLink_of_unfolds`).  When it returns,
they do unfold into one (`exists_unfolds_of_visitLink`).
-/

namespace RerunViz

/-- The joint types that the recursion goes on with. -/
def Urdf.Joint.Supported (joint : Urdf.Joint) : Prop :=
  joint.type = .continuous ∨ joint.type = .revolute

instance (joint : Urdf.Joint) : Decidable joint.Supported :=
  inferInstanceAs (Decidable (_ ∨ _))

namespace RobotDescription

open Unfold

variable {γ : Type}

/-! ## The entries of a traversal -/

/-- `forJoints` for any kind of entry. -/
def visitJoints (visit : Urdf.Joint → List γ → Except Fault Unit × List γ) :
    List Urdf.Joint → List γ → Except Fault Unit × List γ
  | [], out => (.ok (), out)
  | joint :: joints, out =>
      match visit joint out with
      | (.error fault, out) => (.error fault, out)
      | (.ok (), out) => visitJoints visit joints out

mutual

/-- `urdfDepthFirst` on a joint; `entry` is what it adds, from the joint and the entity. -/
def visitJoint (model : Urdf.Model) (entry : Urdf.Joint → String → γ) :
    Nat → String → Urdf.Joint → List γ → Except Fault Unit × List γ
  | 0, _, _, out => (.error .stackOverflow, out)
  | depth + 1, path, joint, out =>
      if joint.Supported then
        visitLink model entry depth (path ++ "/" ++ joint.name)
          (model.getLink joint.childLinkName)
          (out ++ [entry joint (path ++ "/" ++ joint.name ++ "/" ++ joint.childLinkName)])
      else (.error (.exception unsupportedJoint), out)

/-- `urdfDepthFirst` on a link. -/
def visitLink (model : Urdf.Model) (entry : Urdf.Joint → String → γ) :
    Nat → String → Option Urdf.Link → List γ → Except Fault Unit × List γ
  | 0, _, _, out => (.error .stackOverflow, out)
  | _ + 1, _, none, out => (.error .nullDereference, out)
  | depth + 1, path, some link, out =>
      visitJoints (visitJoint model entry depth (path ++ "/" ++ link.name)) link.childJoints out

end

/-- The request that a joint adds. -/
def jointRequest (joint : Urdf.Joint) (entity : String) : TFRequest :=
  ⟨joint.parentLinkName, joint.childLinkName, entity, .rotationOnly⟩

theorem forJoints_eq_visitJoints
    (visit : Urdf.Joint → List TFRequest → Except Fault Unit × List TFRequest) :
    forJoints visit = visitJoints visit := by
  funext joints
  induction joints with
  | nil => rfl
  | cons joint joints ih =>
      funext requests
      rw [forJoints, visitJoints]
      rcases visit joint requests with ⟨fault | ⟨⟩, out⟩
      · rfl
      · exact congrFun ih out

/-- The recursion of the source adds the requests. -/
theorem urdfDepthFirst_eq_visit (model : Urdf.Model) (depth : Nat) :
    urdfDepthFirstJoint model depth = visitJoint model jointRequest depth ∧
      urdfDepthFirstLink model depth = visitLink model jointRequest depth := by
  induction depth with
  | zero => exact ⟨rfl, rfl⟩
  | succ depth ih =>
      constructor
      · funext path joint requests
        rw [urdfDepthFirstJoint, visitJoint, ih.2]
        by_cases hsupported : joint.Supported
        · rw [if_pos hsupported, if_neg]
          · rfl
          · rintro ⟨hcontinuous, hrevolute⟩
            exact hsupported.elim hcontinuous hrevolute
        · rw [if_neg hsupported, if_pos (not_or.mp hsupported)]
      · funext path link requests
        cases link with
        | none => rfl
        | some link => rw [urdfDepthFirstLink, visitLink, ih.1, forJoints_eq_visitJoints]

/-! ## The traversal of a forest -/

/-- The joints of a forest in preorder, each with the entity of its child link. -/
def entities : String → Forest Urdf.Joint → List (Urdf.Joint × String)
  | _, .nil => []
  | path, .cons joint below rest =>
      let entity := path ++ "/" ++ joint.name ++ "/" ++ joint.childLinkName
      (joint, entity) :: (entities entity below ++ entities path rest)

@[simp] theorem map_fst_entities (path : String) (forest : Forest Urdf.Joint) :
    (entities path forest).map Prod.fst = forest.preorder := by
  induction forest generalizing path with
  | nil => rfl
  | cons joint below rest ihBelow ihRest =>
      rw [entities, Forest.preorder, List.map_cons, List.map_append, ihBelow, ihRest]

theorem fst_mem_preorder {path : String} {forest : Forest Urdf.Joint}
    {e : Urdf.Joint × String} (h : e ∈ entities path forest) : e.1 ∈ forest.preorder := by
  rw [← map_fst_entities path]
  exact List.mem_map_of_mem h

/-- Adding the entries of a list of joints, up to the first that is not supported. -/
def addEntries (entry : Urdf.Joint → String → γ) :
    List (Urdf.Joint × String) → List γ → Except Fault Unit × List γ
  | [], out => (.ok (), out)
  | (joint, entity) :: later, out =>
      if joint.Supported then addEntries entry later (out ++ [entry joint entity])
      else (.error (.exception unsupportedJoint), out)

theorem addEntries_append (entry : Urdf.Joint → String → γ)
    (first second : List (Urdf.Joint × String)) (out : List γ) :
    addEntries entry (first ++ second) out =
      match addEntries entry first out with
      | (.error fault, out) => (.error fault, out)
      | (.ok (), out) => addEntries entry second out := by
  induction first generalizing out with
  | nil => rfl
  | cons head first ih =>
      rw [List.cons_append, addEntries, addEntries]
      split
      · exact ih _
      · rfl

theorem addEntries_of_supported (entry : Urdf.Joint → String → γ)
    {visited : List (Urdf.Joint × String)} (h : ∀ e ∈ visited, e.1.Supported) (out : List γ) :
    addEntries entry visited out = (.ok (), out ++ visited.map fun e => entry e.1 e.2) := by
  induction visited generalizing out with
  | nil => simp [addEntries]
  | cons head visited ih =>
      obtain ⟨hhead, hrest⟩ := List.forall_mem_cons.mp h
      rw [addEntries, if_pos hhead, ih hrest]
      simp

/-- An unsupported joint ends the loop; what was there before is still there. -/
theorem addEntries_of_unsupported (entry : Urdf.Joint → String → γ)
    {visited : List (Urdf.Joint × String)} (h : ∃ e ∈ visited, ¬ e.1.Supported) (out : List γ) :
    (addEntries entry visited out).1 = .error (.exception unsupportedJoint) ∧
      out <+: (addEntries entry visited out).2 := by
  induction visited generalizing out with
  | nil => simp at h
  | cons head visited ih =>
      rw [addEntries]
      split
      · rename_i hhead
        obtain ⟨herror, hgrown⟩ := ih ((List.exists_mem_cons_iff ..).mp h |>.resolve_left
          (not_not_intro hhead)) (out ++ [entry head.1 head.2])
        exact ⟨herror, (List.prefix_append _ _).trans hgrown⟩
      · exact ⟨rfl, List.prefix_refl out⟩

/-! ## The recursion against the forest -/

section Unfolded

variable {model : Urdf.Model} {joints : List Urdf.Joint} {forest : Forest Urdf.Joint}

theorem nextJoints_of_getLink {joint : Urdf.Joint} {link : Urdf.Link}
    (h : model.getLink joint.childLinkName = some link) :
    model.nextJoints joint = link.childJoints := by
  rw [Urdf.Model.nextJoints, h]

/-- Two frames of the stack for each level of the forest are enough for the recursion to be
the loop over the forest. -/
theorem visitJoints_of_unfolds (entry : Urdf.Joint → String → γ)
    (h : Unfolds model.nextJoints joints forest)
    (hlinks : ∀ joint ∈ forest.preorder, ∃ link, model.getLink joint.childLinkName = some link)
    {depth : Nat} (hdepth : 2 * forest.height ≤ depth) (path : String) (out : List γ) :
    visitJoints (visitJoint model entry depth path) joints out =
      addEntries entry (entities path forest) out := by
  induction h generalizing depth path out with
  | nil => rfl
  | @cons joint joints below rest _ _ ihBelow ihRest =>
      simp only [Forest.height] at hdepth
      simp only [Forest.preorder, List.forall_mem_cons, List.forall_mem_append] at hlinks
      obtain ⟨⟨link, hlink⟩, hbelow, hrest⟩ := hlinks
      obtain ⟨depth, rfl⟩ : ∃ d, depth = d + 2 := ⟨depth - 2, by omega⟩
      have hname := (Urdf.Model.getLink_eq_some hlink).2
      rw [visitJoints, visitJoint, entities, addEntries]
      by_cases hsupported : joint.Supported
      · rw [if_pos hsupported, if_pos hsupported, hlink, visitLink, hname,
          ← nextJoints_of_getLink hlink, ihBelow hbelow (by omega), addEntries_append]
        rcases addEntries entry _ _ with ⟨fault | ⟨⟩, out'⟩
        · rfl
        · exact ihRest hrest (by omega) path out'
      · rw [if_neg hsupported, if_neg hsupported]

theorem visitLink_of_unfolds (entry : Urdf.Joint → String → γ) {link : Urdf.Link}
    (h : Unfolds model.nextJoints link.childJoints forest)
    (hlinks : ∀ joint ∈ forest.preorder, ∃ link, model.getLink joint.childLinkName = some link)
    {depth : Nat} (hdepth : 2 * forest.height + 1 ≤ depth) (path : String) (out : List γ) :
    visitLink model entry depth path (some link) out =
      addEntries entry (entities (path ++ "/" ++ link.name) forest) out := by
  obtain ⟨depth, rfl⟩ : ∃ d, depth = d + 1 := ⟨depth - 1, by omega⟩
  exact visitJoints_of_unfolds entry h hlinks (by omega) _ out

/-- A loop over joints whose calls unfold unfolds itself. -/
theorem exists_unfolds_of_visitJoints {entry : Urdf.Joint → String → γ} {depth : Nat}
    {path : String} {out out' : List γ}
    (hvisit : ∀ joint ∈ joints, ∀ out out', visitJoint model entry depth path joint out =
      (.ok (), out') → ∃ below, Unfolds model.nextJoints (model.nextJoints joint) below ∧
        ∀ (δ : Type) (entry' : Urdf.Joint → String → δ) out,
          visitJoint model entry' depth path joint out =
            (.ok (), out ++ (entities path (.cons joint below .nil)).map fun e => entry' e.1 e.2))
    (h : visitJoints (visitJoint model entry depth path) joints out = (.ok (), out')) :
    ∃ forest, Unfolds model.nextJoints joints forest ∧
      ∀ (δ : Type) (entry' : Urdf.Joint → String → δ) out,
        visitJoints (visitJoint model entry' depth path) joints out =
          (.ok (), out ++ (entities path forest).map fun e => entry' e.1 e.2) := by
  induction joints generalizing out with
  | nil =>
      refine ⟨.nil, .nil, fun δ entry' out => ?_⟩
      simp [visitJoints, entities]
  | cons joint joints ih =>
      obtain ⟨hhead, htail⟩ := List.forall_mem_cons.mp hvisit
      rw [visitJoints] at h
      split at h
      · cases h
      · rename_i out₁ hjoint
        obtain ⟨below, hbelow, hentries⟩ := hhead _ _ hjoint
        obtain ⟨rest, hrest, hlater⟩ := ih htail h
        refine ⟨.cons joint below rest, .cons hbelow hrest, fun δ entry' out => ?_⟩
        rw [visitJoints, hentries δ entry' out]
        simp only [hlater]
        simp [entities]

/-- When the recursion returns, the joints unfold into a forest, and for every kind of
entry the entries are those of the forest. -/
theorem exists_unfolds_of_visit {entry : Urdf.Joint → String → γ} (depth : Nat) :
    (∀ path joint out out', visitJoint model entry depth path joint out = (.ok (), out') →
      ∃ below, Unfolds model.nextJoints (model.nextJoints joint) below ∧
        ∀ (δ : Type) (entry' : Urdf.Joint → String → δ) out,
          visitJoint model entry' depth path joint out =
            (.ok (), out ++ (entities path (.cons joint below .nil)).map
              fun e => entry' e.1 e.2)) ∧
    (∀ path link out out', visitLink model entry depth path (some link) out = (.ok (), out') →
      ∃ forest, Unfolds model.nextJoints link.childJoints forest ∧
        ∀ (δ : Type) (entry' : Urdf.Joint → String → δ) out,
          visitLink model entry' depth path (some link) out =
            (.ok (), out ++ (entities (path ++ "/" ++ link.name) forest).map
              fun e => entry' e.1 e.2)) := by
  induction depth with
  | zero =>
      constructor <;> intro _ _ _ _ h <;> cases h
  | succ depth ih =>
      constructor
      · intro path joint out out' h
        rw [visitJoint] at h
        split at h
        · rename_i hsupported
          cases hlink : model.getLink joint.childLinkName with
          | none =>
              rw [hlink] at h
              cases depth <;> cases h
          | some link =>
              rw [hlink] at h
              obtain ⟨below, hbelow, hentries⟩ := ih.2 _ _ _ _ h
              refine ⟨below, nextJoints_of_getLink hlink ▸ hbelow, fun δ entry' out => ?_⟩
              rw [visitJoint, if_pos hsupported, hlink, hentries]
              simp [entities, (Urdf.Model.getLink_eq_some hlink).2]
        · cases h
      · intro path link out out' h
        exact exists_unfolds_of_visitJoints (fun joint _ => ih.1 _ joint) h

/-- How the recursion over joints whose child links exist can end. -/
def Ended (model : Urdf.Model) (joints : List Urdf.Joint) (ended : Except Fault Unit) : Prop :=
  ended = .ok () ∨ ended = .error .stackOverflow ∨
    (ended = .error (.exception unsupportedJoint) ∧
      ∃ joint, Below model.nextJoints joints joint ∧ ¬ joint.Supported)

/-- With existing links the recursion returns, exhausts the stack or meets an unsupported
joint. -/
theorem ended_visit (entry : Urdf.Joint → String → γ)
    (hlinks : ∀ joint, Below model.nextJoints joints joint →
      ∃ link, model.getLink joint.childLinkName = some link) (depth : Nat) :
    (∀ path joint out, Below model.nextJoints joints joint →
      Ended model joints (visitJoint model entry depth path joint out).1) ∧
    (∀ path link out, (∀ joint ∈ link.childJoints, Below model.nextJoints joints joint) →
      Ended model joints (visitLink model entry depth path (some link) out).1) := by
  induction depth with
  | zero => exact ⟨fun _ _ _ _ => Or.inr (Or.inl rfl), fun _ _ _ _ => Or.inr (Or.inl rfl)⟩
  | succ depth ih =>
      constructor
      · intro path joint out hjoint
        rw [visitJoint]
        split
        · obtain ⟨link, hlink⟩ := hlinks joint hjoint
          rw [hlink]
          refine ih.2 _ link _ fun b hb => hjoint.tail ?_
          rwa [nextJoints_of_getLink hlink]
        · rename_i hunsupported
          exact Or.inr (Or.inr ⟨rfl, joint, hjoint, hunsupported⟩)
      · intro path link out hbelow
        rw [visitLink]
        generalize link.childJoints = later at hbelow
        induction later generalizing out with
        | nil => exact Or.inl rfl
        | cons joint later ihLater =>
            obtain ⟨hjoint, hlater⟩ := List.forall_mem_cons.mp hbelow
            rw [visitJoints]
            have hended := ih.1 (path ++ "/" ++ link.name) joint out hjoint
            rcases hvisit : visitJoint model entry depth (path ++ "/" ++ link.name) joint out with
              ⟨fault | ⟨⟩, out'⟩
            · rw [hvisit] at hended
              exact hended
            · exact ihLater out' hlater

end Unfolded

/-! ## When the recursion returns -/

section Passable

variable {model : Urdf.Model} {link : Urdf.Link}

end Passable

end RobotDescription

end RerunViz
