import Mathlib.Algebra.Ring.Parity
import RerunViz.RobotDescription.Layout
import RerunViz.Utils.Namespace

set_option autoImplicit false

/-!
# The entities of a robot

The entity of a request spells out the way from the root link to the link that it is about,
joints and links in turn.  On a tree whose names hold no slash it can be read back, so that
requests do not share an entity, and one lies below another in the recording exactly when
its link hangs below the other's (`entities_mirror_tree`).
-/

namespace RerunViz.RobotDescription

open Relation Unfold

/-- A joint leads from the second link to the first. -/
def HangsFrom (model : Urdf.Model) (child parent : String) : Prop :=
  ∃ joint ∈ model.joints, joint.childLinkName = child ∧ joint.parentLinkName = parent

/-- The names on the way from the root link to a link: links and joints in turn. -/
inductive Chain (model : Urdf.Model) (root : Urdf.Link) : String → List String → Prop
  | root : Chain model root root.name [root.name]
  | joint {joint : Urdf.Joint} {names : List String} (hjoint : joint ∈ model.joints)
      (above : Chain model root joint.parentLinkName names) :
      Chain model root joint.childLinkName (names ++ [joint.name, joint.childLinkName])

/-- No name of the model holds a slash. -/
structure SlashFree (model : Urdf.Model) (root : Urdf.Link) : Prop where
  model_name : '/' ∉ model.name.toList
  root_name : '/' ∉ root.name.toList
  joint_names : ∀ joint ∈ model.joints,
    '/' ∉ joint.name.toList ∧ '/' ∉ joint.childLinkName.toList

section Chain

variable {model : Urdf.Model} {root : Urdf.Link} {link other : String} {names names' : List String}

/-- A chain ends with its link. -/
theorem Chain.getLast? (h : Chain model root link names) : names.getLast? = some link := by
  cases h with
  | root => rfl
  | joint _ _ => simp

/-- A chain has one link more than joints. -/
theorem Chain.odd_length (h : Chain model root link names) : Odd names.length := by
  induction h with
  | root => exact odd_one
  | joint _ _ ih =>
      rw [List.length_append]
      exact ih.add_even even_two

/-- The way to a link goes on to the links below it. -/
theorem Chain.exists_below (h : Chain model root other names)
    (hbelow : ReflTransGen (HangsFrom model) link other) :
    ∃ names', Chain model root link names' ∧ names <+: names' := by
  induction hbelow using ReflTransGen.head_induction_on with
  | refl => exact ⟨names, h, List.prefix_refl names⟩
  | head hhangs _ ih =>
      obtain ⟨joint, hjoint, rfl, rfl⟩ := hhangs
      obtain ⟨names', habove, hstart⟩ := ih
      exact ⟨_, .joint hjoint habove, hstart.trans (List.prefix_append _ _)⟩

/-- The ways that begin the way to a link are those to the links it hangs below. -/
theorem Chain.below_of_prefix (h : Chain model root link names)
    (h' : Chain model root other names') (hstart : names' <+: names) :
    ReflTransGen (HangsFrom model) link other := by
  have hlast := h'.getLast?
  induction h with
  | root =>
      rcases List.prefix_concat_iff.mp (show names' <+: [] ++ [root.name] from hstart) with
        rfl | hnil
      · rw [List.getLast?_concat] at hlast
        rw [← Option.some.inj hlast]
      · rw [List.prefix_nil.mp hnil] at hlast
        cases hlast
  | @joint joint names hjoint habove ih =>
      have hsplit : names ++ [joint.name, joint.childLinkName] =
          (names ++ [joint.name]) ++ [joint.childLinkName] := by simp
      rw [hsplit, List.prefix_concat_iff, List.prefix_concat_iff] at hstart
      rcases hstart with rfl | rfl | hbefore
      · rw [List.getLast?_concat] at hlast
        rw [← Option.some.inj hlast]
      · -- no way ends with a joint
        have hodd := h'.odd_length
        rw [List.length_append, List.length_singleton] at hodd
        exact absurd hodd (Nat.not_odd_iff_even.mpr habove.odd_length.add_one)
      · exact .head ⟨joint, hjoint, rfl, rfl⟩ (ih hbefore)

/-- In a tree there is one way to a link. -/
theorem Chain.unique (htree : model.IsTree root) (h : Chain model root link names)
    (h' : Chain model root link names') : names = names' := by
  induction h generalizing names' with
  | root =>
      generalize heq : root.name = link at h'
      cases h' with
      | root => rfl
      | joint hjoint _ => exact absurd heq.symm (htree.toParsed.childLinkName_ne_root hjoint)
  | @joint joint names hjoint _ ih =>
      generalize heq : joint.childLinkName = link at h'
      cases h' with
      | root => exact absurd heq (htree.toParsed.childLinkName_ne_root hjoint)
      | @joint joint' _ hjoint' above' =>
          obtain rfl := List.inj_on_of_nodup_map htree.childNames hjoint hjoint' heq
          rw [ih above']

/-- There is a way to every link of a tree that a joint leads to. -/
theorem exists_chain (htree : model.IsTree root) {joint : Urdf.Joint}
    (hjoint : joint ∈ model.joints) : ∃ names, Chain model root joint.childLinkName names := by
  have hparsed := htree.toParsed
  refine (htree.below_iff.mpr hjoint).induction (fun x hx => ?_) fun x y hx ih hy => ?_
  · obtain ⟨hmem, hparent⟩ := (hparsed.mem_childJoints_iff htree.root_mem).mp hx
    have habove : Chain model root x.parentLinkName [root.name] := by
      rw [hparent]
      exact .root
    exact ⟨_, .joint hmem habove⟩
  · obtain ⟨hmem, hparent⟩ := (hparsed.mem_nextJoints_iff (hparsed.mem_joints_of_below hx)).mp hy
    obtain ⟨names, hnames⟩ := ih
    rw [← hparent] at hnames
    exact ⟨_, .joint hmem hnames⟩

end Chain

section Layout

variable {model : Urdf.Model} {root : Urdf.Link} {forest : Forest Urdf.Joint}
  {entity : String → String} {requests : List TFRequest}

/-- The entity of a link spells out the way to it. -/
theorem Layout.slashParts_entity (h : Layout model root forest entity requests)
    (hfree : SlashFree model root) {link : String} {names : List String}
    (hchain : Chain model root link names) :
    slashParts (entity link) = "" :: model.name :: names := by
  induction hchain with
  | root =>
      have hstart : slashParts ("/" ++ model.name) = ["", model.name] :=
        slashParts_concat "" hfree.model_name
      rw [h.root_entity, slashParts_concat _ hfree.root_name, hstart]
      rfl
  | @joint joint names hjoint _ ih =>
      obtain ⟨hname, hchild⟩ := hfree.joint_names joint hjoint
      rw [h.joint_entity joint hjoint, slashParts_concat _ hchild, slashParts_concat _ hname, ih]
      simp

/-- Each request is about a link to which there is a way, at the entity of that link. -/
theorem Layout.exists_chain_request (h : Layout model root forest entity requests)
    (htree : model.IsTree root) {request : TFRequest} (hmem : request ∈ requests) :
    request.rerunEntityPath = entity request.rosChildFrameId ∧
      ∃ names, Chain model root request.rosChildFrameId names := by
  rw [h.requests_eq, List.mem_cons, List.mem_map] at hmem
  rcases hmem with rfl | ⟨joint, hjoint, rfl⟩
  · exact ⟨rfl, _, .root⟩
  · exact ⟨rfl, exists_chain htree (h.joints.mem_iff.mp hjoint)⟩

/-- No two requests are about one link. -/
theorem Layout.nodup_children (h : Layout model root forest entity requests)
    (htree : model.IsTree root) : (requests.map TFRequest.rosChildFrameId).Nodup := by
  have hnames := (h.joints.map Urdf.Joint.childLinkName).nodup_iff.mpr htree.childNames
  rw [h.requests_eq, List.map_cons, List.map_map]
  refine List.nodup_cons.mpr ⟨fun hmem => ?_, hnames⟩
  obtain ⟨joint, hjoint, heq⟩ := List.mem_map.mp hmem
  exact htree.toParsed.childLinkName_ne_root (h.joints.mem_iff.mp hjoint) heq

/-- Every link has its request. -/
theorem Layout.perm_links (h : Layout model root forest entity requests)
    (htree : model.IsTree root) :
    (requests.map TFRequest.rosChildFrameId).Perm (model.links.map Urdf.Link.name) := by
  have hnodup := h.nodup_children htree
  rw [h.requests_eq, List.map_cons, List.map_map] at hnodup ⊢
  rw [List.perm_ext_iff_of_nodup hnodup htree.linkNames]
  intro name
  rw [List.mem_cons, List.mem_map, List.mem_map]
  constructor
  · rintro (rfl | ⟨joint, hjoint, rfl⟩)
    · exact ⟨root, htree.root_mem, rfl⟩
    · exact htree.childLink joint (h.joints.mem_iff.mp hjoint)
  · rintro ⟨link, hlink, rfl⟩
    rcases htree.reachable link hlink with rfl | ⟨joint, hbelow, hname⟩
    · exact Or.inl rfl
    · exact Or.inr ⟨joint, h.joints.mem_iff.mpr (htree.below_iff.mp hbelow), hname⟩

/-- What the entities of a list of requests say about the tree: every link has one request, each
entity spells out the way to its link, no two are the same, and one lies below another when
its link hangs below. -/
structure MirrorsTree (model : Urdf.Model) (root : Urdf.Link) (requests : List TFRequest) :
    Prop where
  links : (requests.map TFRequest.rosChildFrameId).Perm (model.links.map Urdf.Link.name)
  spelled : ∀ request ∈ requests, ∃ names, Chain model root request.rosChildFrameId names ∧
    slashParts request.rerunEntityPath = "" :: model.name :: names
  nodup : (requests.map TFRequest.rerunEntityPath).Nodup
  below_iff : ∀ request ∈ requests, ∀ other ∈ requests,
    slashParts other.rerunEntityPath <+: slashParts request.rerunEntityPath ↔
      ReflTransGen (HangsFrom model) request.rosChildFrameId other.rosChildFrameId

theorem Layout.mirrorsTree (h : Layout model root forest entity requests)
    (htree : model.IsTree root) (hfree : SlashFree model root) :
    MirrorsTree model root requests := by
  have hspelled : ∀ request ∈ requests, ∃ names, Chain model root request.rosChildFrameId names ∧
      slashParts request.rerunEntityPath = "" :: model.name :: names := by
    intro request hmem
    obtain ⟨heq, names, hchain⟩ := h.exists_chain_request htree hmem
    exact ⟨names, hchain, by rw [heq, h.slashParts_entity hfree hchain]⟩
  constructor
  case links => exact h.perm_links htree
  case spelled => exact hspelled
  case nodup =>
    have hnodup := h.nodup_children htree
    refine List.Nodup.map_on (fun request hmem other hother hsame => ?_) hnodup.of_map
    obtain ⟨names, hchain, heq⟩ := hspelled request hmem
    obtain ⟨names', hchain', heq'⟩ := hspelled other hother
    -- the link is the last name that the entity spells out
    rw [hsame, heq'] at heq
    obtain rfl : names' = names := (List.cons.inj (List.cons.inj heq).2).2
    have hlink := hchain.getLast?.symm.trans hchain'.getLast?
    exact List.inj_on_of_nodup_map hnodup hmem hother (Option.some.inj hlink)
  case below_iff =>
    intro request hmem other hother
    obtain ⟨names, hchain, heq⟩ := hspelled request hmem
    obtain ⟨names', hchain', heq'⟩ := hspelled other hother
    rw [heq, heq', List.cons_prefix_cons, List.cons_prefix_cons]
    constructor
    · exact fun hpre => hchain.below_of_prefix hchain' hpre.2.2
    · intro hbelow
      obtain ⟨names'', hchain'', hpre⟩ := hchain'.exists_below hbelow
      rw [hchain.unique htree hchain'']
      exact ⟨rfl, rfl, hpre⟩

end Layout

/-- On every tree with supported joints and names without slash, whatever requests were there
before, the entities of the requests that the callback leaves mirror the tree. -/
theorem entities_mirror_tree {initString : String → Urdf.Model} {stackDepth : Nat}
    {c : Converter} {stream : RecordingStream} {data : String} {root : Urdf.Link}
    (hstream : c.stream = some stream) (htree : (initString data).IsTree root)
    (hsupported : ∀ joint ∈ (initString data).joints, joint.Supported)
    (hdepth : 2 * (initString data).joints.length + 1 ≤ stackDepth)
    (hfree : SlashFree (initString data) root) (members : Members) :
    MirrorsTree (initString data) root
      (topicCallback initString stackDepth c members data).members.tfRequests := by
  obtain ⟨forest, hforest, hperm⟩ := htree.exists_unfolds
  rw [(topicCallback_of_supported hstream htree hforest hperm hdepth hsupported members).2]
  exact (layout_of_unfolds htree hforest hperm).mirrorsTree htree hfree

/-- The entities of the arm. -/
theorem entities_mirror_tree_arm :
    MirrorsTree armModel armBase (topicCallback (fun _ => armModel) 7
      ⟨0, .robotDescription, "/robot_description", some ⟨0⟩⟩ Members.initial
      "<robot/>").members.tfRequests :=
  @entities_mirror_tree (fun _ => armModel) 7
    ⟨0, .robotDescription, "/robot_description", some ⟨0⟩⟩ ⟨0⟩ "<robot/>" armBase rfl
    isTree_armModel (by decide) (by decide)
    { model_name := by decide, root_name := by decide, joint_names := by decide } Members.initial

end RerunViz.RobotDescription
