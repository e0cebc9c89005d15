import Mathlib.Data.Set.Card
import RerunViz.TFGraph.EdgeData

set_option autoImplicit false

/-!
# The frames of the graph

`getAllFrames` reads the keys of `children_` as well as the lists.  `removeTransform`
drops a key whose list it has emptied, while `addTransform` leaves the key when it moves
the last child away.  The frame then stays, although no edge has it any more, unless it
is a child itself (`listsEdgeFrames_iff`).
-/

namespace RerunViz.TFGraph

open Forest

variable {Time : Type} {rosTime : Stamp → Except Exception Time}

/-- The frame is the parent or the child of a current edge. -/
def InEdge (g : TFGraph Time) (f : String) : Prop :=
  ∃ c p, g.getParent c = some p ∧ (f = p ∨ f = c)

/-- `getAllFrames` holds the frames of the current edges, and the statistics count
them. -/
structure ListsEdgeFrames (g : TFGraph Time) : Prop where
  mem_iff : ∀ f, f ∈ g.getAllFrames ↔ g.InEdge f
  count_eq : g.getStatistics.1 = {f | g.InEdge f}.ncard

/-- The message is rejected, or the parent it takes the child from keeps an edge: another
child, or a parent of its own. -/
def KeepsOldParent (g : TFGraph Time) (tf : TransformStamped) : Prop :=
  g.wouldCreateCycle tf.header.frameId tf.childFrameId = false →
    ∀ oldParent, g.getParent tf.childFrameId = some oldParent →
      oldParent ≠ tf.header.frameId →
        g.getChildren oldParent ≠ [tf.childFrameId] ∨ (g.getParent oldParent).isSome = true

/-! ## What `getAllFrames` collects -/

theorem mem_foldl_insert {frames : Finset String} {children : List String} {f : String} :
    f ∈ children.foldl (fun frames child => insert child frames) frames ↔
      f ∈ frames ∨ f ∈ children := by
  induction children generalizing frames with
  | nil => simp
  | cons child children ih =>
      rw [List.foldl_cons, ih, Finset.mem_insert, List.mem_cons]
      tauto

theorem mem_collected {entries : List (Sigma fun _ : String => List String)}
    {frames : Finset String} {f : String} :
    f ∈ entries.foldl (fun frames entry => entry.2.foldl
        (fun frames child => insert child frames) (insert entry.1 frames)) frames ↔
      f ∈ frames ∨ ∃ e ∈ entries, f = e.1 ∨ f ∈ e.2 := by
  induction entries generalizing frames with
  | nil => simp
  | cons entry entries ih =>
      rw [List.foldl_cons, ih, mem_foldl_insert, Finset.mem_insert, List.exists_mem_cons_iff]
      simp only [or_assoc, or_left_comm]

/-- The frames are the keys of `children_` and what is listed under them. -/
theorem mem_getAllFrames_iff {g : TFGraph Time} {f : String} :
    f ∈ g.getAllFrames ↔ f ∈ g.children ∨ ∃ p, f ∈ g.getChildren p := by
  have hentries : f ∈ g.getAllFrames ↔ ∃ e ∈ g.children.entries, f = e.1 ∨ f ∈ e.2 := by
    rw [getAllFrames, mem_collected]
    simp
  rw [hentries]
  constructor
  · rintro ⟨⟨p, children⟩, he, rfl | hf⟩
    · exact Or.inl (Assoc.mem_of_lookup (AList.mem_lookup_iff.mpr he))
    · refine Or.inr ⟨p, ?_⟩
      rw [getChildren_eq_getD, AList.mem_lookup_iff.mpr he]
      exact hf
  · rintro (hkey | ⟨p, hf⟩)
    · obtain ⟨children, hlookup⟩ := Option.isSome_iff_exists.mp (AList.lookup_isSome.mpr hkey)
      exact ⟨⟨f, children⟩, AList.mem_lookup_iff.mp hlookup, Or.inl rfl⟩
    · rw [getChildren_eq_getD] at hf
      cases hlookup : g.children.lookup p with
      | none =>
          rw [hlookup] at hf
          cases hf
      | some children =>
          rw [hlookup] at hf
          exact ⟨⟨p, children⟩, AList.mem_lookup_iff.mp hlookup, Or.inr hf⟩

theorem mem_children_of_mem_getChildren {g : TFGraph Time} {c p : String}
    (h : c ∈ g.getChildren p) : p ∈ g.children :=
  AList.mem_keys.mpr (mem_keys_of_getChildren_ne_nil (List.ne_nil_of_mem h))

/-- A mirrored graph lists at least the frames of its edges, and lists no others exactly
when every key of `children_` has an edge. -/
theorem Mirror.listsEdgeFrames_iff_keys {g : TFGraph Time} (h : Mirror g) :
    ListsEdgeFrames g ↔ ∀ f, f ∈ g.children → g.InEdge f := by
  have hchild : ∀ f, (∃ p, f ∈ g.getChildren p) → g.InEdge f := by
    rintro f ⟨p, hf⟩
    exact ⟨f, p, (h.listed_iff f p).mp hf, Or.inr rfl⟩
  have hedge : ∀ f, g.InEdge f → f ∈ g.getAllFrames := by
    rintro f ⟨c, p, hcp, hf⟩
    have hlisted := (h.listed_iff c p).mpr hcp
    rw [mem_getAllFrames_iff]
    rcases hf with rfl | rfl
    · exact Or.inl (mem_children_of_mem_getChildren hlisted)
    · exact Or.inr ⟨p, hlisted⟩
  constructor
  · intro hlists f hf
    exact (hlists.mem_iff f).mp (mem_getAllFrames_iff.mpr (Or.inl hf))
  · intro hkeys
    have hmem : ∀ f, f ∈ g.getAllFrames ↔ g.InEdge f := by
      intro f
      refine ⟨fun hf => ?_, hedge f⟩
      rcases mem_getAllFrames_iff.mp hf with hkey | hlisted
      · exact hkeys f hkey
      · exact hchild f hlisted
    refine ⟨hmem, ?_⟩
    have hset : {f | g.InEdge f} = (g.getAllFrames : Set String) := by
      ext f
      exact (hmem f).symm
    rw [hset, Set.ncard_coe_finset]
    rfl

/-! ## The keys after an addition -/

/-- The keys of `children_` are never dropped by an addition. -/
theorem Mirror.mem_children_relate {g : TFGraph Time} (h : Mirror g) {parent child f : String} :
    f ∈ (g.relate parent child).children ↔ f ∈ g.children ∨ f = parent := by
  have hold : f ∈ (g.removeExistingParent child).children ↔ f ∈ g.children := by
    unfold removeExistingParent
    split
    · rfl
    · rename_i oldParent hlookup
      have hlisted : child ∈ g.getChildren oldParent := (h.listed_iff _ _).mpr hlookup
      rw [AList.mem_insert]
      refine ⟨?_, Or.inr⟩
      rintro (rfl | hf)
      · exact mem_children_of_mem_getChildren hlisted
      · exact hf
  rw [TFGraph.relate, addRelationship, AList.mem_insert, hold, or_comm]

theorem inEdge_relate_iff {g : TFGraph Time} {parent child f : String} :
    (g.relate parent child).InEdge f ↔
      f = parent ∨ f = child ∨ ∃ c p, c ≠ child ∧ g.getParent c = some p ∧ (f = p ∨ f = c) := by
  unfold InEdge
  rw [getParent_relate]
  constructor
  · rintro ⟨c, p, hcp, hf⟩
    rcases up_attach_iff.mp hcp with ⟨rfl, rfl⟩ | ⟨hne, hup⟩
    · exact hf.imp_right Or.inl
    · exact Or.inr (Or.inr ⟨c, p, hne, hup, hf⟩)
  · rintro (rfl | rfl | ⟨c, p, hne, hup, hf⟩)
    · exact ⟨child, f, attach_self child f, Or.inl rfl⟩
    · exact ⟨f, parent, attach_self f parent, Or.inr rfl⟩
    · exact ⟨c, p, up_attach_iff.mpr (Or.inr ⟨hne, hup⟩), hf⟩

/-- A list without repetition that is not the singleton of one of its elements has
another. -/
theorem exists_mem_ne {children : List String} {c : String} (hnodup : children.Nodup)
    (hmem : c ∈ children) (hne : children ≠ [c]) : ∃ c' ∈ children, c' ≠ c := by
  match children with
  | [x] =>
      rw [List.mem_singleton] at hmem
      exact absurd (by rw [hmem]) hne
  | x :: y :: rest =>
      by_cases hx : x = c
      · have hxy : x ≠ y := fun heq => (List.nodup_cons.mp hnodup).1 (by simp [heq])
        exact ⟨y, by simp, fun heq => hxy (hx.trans heq.symm)⟩
      · exact ⟨x, List.mem_cons_self, hx⟩

/-- An accepted message keeps the law exactly when the parent it takes the child from keeps
an edge. -/
theorem Mirror.keys_inEdge_relate_iff {g : TFGraph Time} (h : Mirror g)
    (hac : Acyclic g.getParent) (hkeys : ∀ f, f ∈ g.children → g.InEdge f)
    {parent child : String} :
    (∀ f, f ∈ (g.relate parent child).children → (g.relate parent child).InEdge f) ↔
      ∀ oldParent, g.getParent child = some oldParent → oldParent ≠ parent →
        g.getChildren oldParent ≠ [child] ∨ (g.getParent oldParent).isSome = true := by
  constructor
  · intro hafter oldParent hold hne
    have hlisted : child ∈ g.getChildren oldParent := (h.listed_iff _ _).mpr hold
    have hkey : oldParent ∈ (g.relate parent child).children :=
      h.mem_children_relate.mpr (Or.inl (mem_children_of_mem_getChildren hlisted))
    rcases inEdge_relate_iff.mp (hafter oldParent hkey) with
      heq | rfl | ⟨c, p, hc, hup, rfl | rfl⟩
    · exact absurd heq hne
    · exact absurd (.single hold) (hac oldParent)
    · refine Or.inl ?_
      intro hsingle
      have hmem := (h.listed_iff _ _).mpr hup
      rw [hsingle, List.mem_singleton] at hmem
      exact hc hmem
    · exact Or.inr (by rw [hup]; rfl)
  · intro hkeeps f hf
    rw [inEdge_relate_iff]
    rcases h.mem_children_relate.mp hf with hkey | rfl
    · obtain ⟨c, p, hup, hfp⟩ := hkeys f hkey
      by_cases hc : c = child
      · subst hc
        rcases hfp with rfl | rfl
        · by_cases hparent : f = parent
          · exact Or.inl hparent
          · -- the child leaves `f`, which must have another edge
            rcases hkeeps f hup hparent with hother | hsome
            · have hlisted : c ∈ g.getChildren f := (h.listed_iff _ _).mpr hup
              obtain ⟨c', hc', hne⟩ := exists_mem_ne (h.nodup f) hlisted hother
              exact Or.inr (Or.inr ⟨c', f, hne, (h.listed_iff _ _).mp hc', Or.inl rfl⟩)
            · obtain ⟨p, hp⟩ := Option.isSome_iff_exists.mp hsome
              have hne : f ≠ c := by
                rintro rfl
                exact hac f (.single hup)
              exact Or.inr (Or.inr ⟨f, p, hne, hp, Or.inr rfl⟩)
        · exact Or.inr (Or.inl rfl)
      · exact Or.inr (Or.inr ⟨c, p, hc, hup, hfp⟩)
    · exact Or.inl rfl

theorem Mirror.listsEdgeFrames_add_iff {g : TFGraph Time} (h : Mirror g)
    (hac : Acyclic g.getParent) (hlists : ListsEdgeFrames g) (tf : TransformStamped) :
    ListsEdgeFrames (g.add rosTime tf) ↔ KeepsOldParent g tf := by
  cases hcyc : g.wouldCreateCycle tf.header.frameId tf.childFrameId with
  | true =>
      rw [add_of_cycle hcyc]
      refine ⟨fun _ hno => ?_, fun _ => hlists⟩
      rw [hcyc] at hno
      cases hno
  | false =>
      have hmirror : Mirror (g.add rosTime tf) := h.addTransform tf
      have hedge : (g.add rosTime tf).InEdge =
          (g.relate tf.header.frameId tf.childFrameId).InEdge := by
        funext f
        unfold InEdge
        rw [getParent_add hcyc, getParent_relate]
      rw [hmirror.listsEdgeFrames_iff_keys, hedge, children_add hcyc,
        h.keys_inEdge_relate_iff hac (h.listsEdgeFrames_iff_keys.mp hlists)]
      exact ⟨fun hkeeps _ => hkeeps, fun hkeeps => hkeeps hcyc⟩

theorem listsEdgeFrames_empty : ListsEdgeFrames (empty : TFGraph Time) :=
  mirror_empty.listsEdgeFrames_iff_keys.mpr fun f hf => absurd hf (AList.notMem_empty f)

/-- Along a list of additions `getAllFrames` holds the frames of the current edges, and the
statistics count them, after every prefix, if and only if no accepted message takes the
only child of a frame without parent to another frame. -/
theorem listsEdgeFrames_iff (rosTime : Stamp → Except Exception Time)
    (tfs : List TransformStamped) :
    (∀ before, before <+: tfs → ListsEdgeFrames (added rosTime before)) ↔
      Run.Meets (add rosTime) KeepsOldParent empty tfs := by
  have hstep : ∀ before tf, ListsEdgeFrames (added rosTime before) →
      (ListsEdgeFrames (added rosTime (before ++ [tf])) ↔
        KeepsOldParent (added rosTime before) tf) := by
    intro before tf hlists
    rw [added_concat]
    exact (mirror_added rosTime before).listsEdgeFrames_add_iff (acyclic_added rosTime before)
      hlists tf
  constructor
  · intro hall
    exact Run.meets_of_prefixes hall fun before tf hbefore hafter =>
      (hstep before tf hbefore).mp hafter
  · rintro hkeeps before ⟨rest, rfl⟩
    have hmet := ((Run.meets_append _ _ _).mp hkeeps).1
    clear hkeeps
    induction before using List.reverseRecOn with
    | nil => exact listsEdgeFrames_empty
    | append_singleton before tf ih =>
        rw [Run.meets_concat] at hmet
        exact (hstep before tf (ih hmet.1)).mpr hmet.2

/-- After `link1` has moved to another parent, `base` is still counted as a frame. -/
theorem not_listsEdgeFrames_moved :
    ¬ ListsEdgeFrames (added rosTimeNanoseconds
      [createTransform "base" "link1" 1 0 0, createTransform "new_parent" "link1" 2 3 4]) := by
  intro h
  obtain ⟨c, p, hcp, hbase⟩ := (h.mem_iff "base").mp (by decide)
  have hentry : (⟨c, p⟩ : Sigma fun _ : String => String) ∈
      [⟨"link1", "new_parent"⟩] := AList.mem_lookup_iff.mp hcp
  obtain ⟨rfl, rfl⟩ : c = "link1" ∧ p = "new_parent" := by simpa using hentry
  revert hbase
  decide

end RerunViz.TFGraph
