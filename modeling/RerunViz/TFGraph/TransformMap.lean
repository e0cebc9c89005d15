import Mathlib.Data.Finmap
import RerunViz.Lib.Assoc
import RerunViz.TFGraph.Key
import RerunViz.TFGraph.Reached

set_option autoImplicit false

/-!
# The abstract map of transforms

What the graph is for, in one map: each frame that has a parent is sent to that
parent and to the transform between them.  `KeepsData` relates the string-keyed map
of the code to it: the two hold the same transforms, each under the key of its edge.
The keys tell edges apart because no parent holds an arrow.
-/

namespace RerunViz.TFGraph

variable {Time : Type}

/-- Child frame to parent frame and transform. -/
abbrev TransformMap := Finmap (fun _ : String => String × TransformStamped)

namespace TransformMap

/-- The abstract parent of a frame. -/
def parent (m : TransformMap) (c : String) : Option String := (m.lookup c).map Prod.fst

theorem parent_eq_some_iff {m : TransformMap} {c p : String} :
    m.parent c = some p ↔ ∃ tf, m.lookup c = some (p, tf) := by
  simp [parent]

theorem mem_keys_iff {m : TransformMap} {c : String} :
    c ∈ m.keys ↔ ∃ p tf, m.lookup c = some (p, tf) := by
  rw [Finmap.mem_keys, Finmap.mem_iff]
  exact Prod.exists

theorem lookup_erase (m : TransformMap) (c x : String) :
    Finmap.lookup x (m.erase c) = if x = c then none else m.lookup x := by
  split
  · rename_i hx
    subst hx
    exact Finmap.lookup_erase x m
  · rename_i hx
    exact Finmap.lookup_erase_ne hx

theorem lookup_insert (m : TransformMap) (c x : String) (e : String × TransformStamped) :
    Finmap.lookup x (m.insert c e) = if x = c then some e else m.lookup x := by
  split
  · rename_i hx
    subst hx
    exact Finmap.lookup_insert m
  · rename_i hx
    exact Finmap.lookup_insert_of_ne m hx

theorem lookup_erase_eq_some_iff {m : TransformMap} {c x : String}
    {e : String × TransformStamped} :
    Finmap.lookup x (m.erase c) = some e ↔ x ≠ c ∧ m.lookup x = some e := by
  rw [lookup_erase]
  split <;> simp_all

theorem lookup_insert_eq_some_iff {m : TransformMap} {c x : String}
    {e e' : String × TransformStamped} :
    Finmap.lookup x (m.insert c e') = some e ↔
      (x = c ∧ e' = e) ∨ (x ≠ c ∧ m.lookup x = some e) := by
  rw [lookup_insert]
  split <;> simp_all

theorem parent_erase (m : TransformMap) (c x : String) :
    TransformMap.parent (m.erase c) x = if x = c then none else m.parent x := by
  rw [parent, lookup_erase]
  split <;> rfl

theorem parent_insert (m : TransformMap) (c p : String) (tf : TransformStamped) :
    TransformMap.parent (m.insert c (p, tf)) = Forest.attach m.parent c p := by
  funext x
  rw [parent, lookup_insert, Forest.attach_apply]
  split <;> rfl

/-- Overriding a frame's entry is entering it after losing the old one. -/
theorem insert_erase (m : TransformMap) (c : String) (e : String × TransformStamped) :
    (m.erase c).insert c e = m.insert c e := by
  apply Finmap.ext_lookup
  intro x
  rw [lookup_insert, lookup_insert, lookup_erase]
  split <;> rfl

theorem erase_of_lookup_eq_none {m : TransformMap} {c : String} (h : m.lookup c = none) :
    m.erase c = m := by
  apply Finmap.ext_lookup
  intro x
  rw [lookup_erase]
  split
  · rename_i hx
    rw [hx, h]
  · rfl

end TransformMap

/-- The code's map holds exactly the transforms of the abstract one, each under the
key of its edge. -/
structure KeepsData (transforms : AList (fun _ : String => TransformData Time))
    (m : TransformMap) : Prop where
  arrow_free : ∀ c p tf, m.lookup c = some (p, tf) → ¬ HasArrow p
  stored : ∀ key data, transforms.lookup key = some data →
    ∃ p c, key = makeTransformKey p c ∧ m.lookup c = some (p, data.transform)
  kept : ∀ c p tf, m.lookup c = some (p, tf) →
    ∃ data, transforms.lookup (makeTransformKey p c) = some data ∧ data.transform = tf

namespace KeepsData

variable {transforms : AList (fun _ : String => TransformData Time)} {m : TransformMap}

theorem empty : KeepsData (∅ : AList (fun _ : String => TransformData Time)) ∅ where
  arrow_free := by simp
  stored := by simp
  kept := by simp

/-- Different frames have different keys. -/
theorem key_ne (h : KeepsData transforms m) {c c' p p' : String} {tf : TransformStamped}
    (hc' : m.lookup c' = some (p', tf)) (hp : ¬ HasArrow p) (hne : c' ≠ c) :
    makeTransformKey p' c' ≠ makeTransformKey p c := by
  intro hkey
  exact hne (makeTransformKey_injective (h.arrow_free c' p' tf hc') hp hkey).2

/-- Erasing an edge's key loses that edge and no other. -/
theorem erase (h : KeepsData transforms m) {c p : String} {tf : TransformStamped}
    (hc : m.lookup c = some (p, tf)) :
    KeepsData (transforms.erase (makeTransformKey p c)) (m.erase c) where
  arrow_free := by
    intro c' p' tf' hc'
    obtain ⟨_, hold⟩ := TransformMap.lookup_erase_eq_some_iff.mp hc'
    exact h.arrow_free c' p' tf' hold
  stored := by
    intro key data hkey
    obtain ⟨hne, hold⟩ := Assoc.lookup_erase_eq_some_iff.mp hkey
    obtain ⟨p', c', rfl, hc'⟩ := h.stored key data hold
    refine ⟨p', c', rfl, TransformMap.lookup_erase_eq_some_iff.mpr ⟨?_, hc'⟩⟩
    rintro rfl
    rw [hc, Option.some.injEq, Prod.mk.injEq] at hc'
    exact hne (by rw [hc'.1])
  kept := by
    intro c' p' tf' hc'
    obtain ⟨hne, hold⟩ := TransformMap.lookup_erase_eq_some_iff.mp hc'
    obtain ⟨data, hdata, htf⟩ := h.kept c' p' tf' hold
    have hkey := h.key_ne hold (h.arrow_free c p tf hc) hne
    exact ⟨data, Assoc.lookup_erase_eq_some_iff.mpr ⟨hkey, hdata⟩, htf⟩

/-- Entering a frame that has no entry. -/
theorem insert (h : KeepsData transforms m) {c p : String} (tf : TransformStamped)
    (time : Time) (hc : m.lookup c = none) (hp : ¬ HasArrow p) :
    KeepsData (transforms.insert (makeTransformKey p c) ⟨tf, time⟩) (m.insert c (p, tf)) where
  arrow_free := by
    intro c' p' tf' hc'
    rcases TransformMap.lookup_insert_eq_some_iff.mp hc' with ⟨_, heq⟩ | ⟨_, hold⟩
    · rw [Prod.mk.injEq] at heq
      exact heq.1 ▸ hp
    · exact h.arrow_free c' p' tf' hold
  stored := by
    intro key data hkey
    rcases Assoc.lookup_insert_eq_some_iff.mp hkey with ⟨rfl, rfl⟩ | ⟨_, hold⟩
    · exact ⟨p, c, rfl, Finmap.lookup_insert m⟩
    · obtain ⟨p', c', rfl, hc'⟩ := h.stored key data hold
      refine ⟨p', c', rfl, TransformMap.lookup_insert_eq_some_iff.mpr (Or.inr ⟨?_, hc'⟩)⟩
      rintro rfl
      rw [hc] at hc'
      cases hc'
  kept := by
    intro c' p' tf' hc'
    rcases TransformMap.lookup_insert_eq_some_iff.mp hc' with ⟨rfl, heq⟩ | ⟨hne, hold⟩
    · obtain ⟨rfl, rfl⟩ := Prod.mk.inj heq
      exact ⟨⟨tf, time⟩, AList.lookup_insert transforms, rfl⟩
    · obtain ⟨data, hdata, htf⟩ := h.kept c' p' tf' hold
      have hkey := h.key_ne hold hp hne
      exact ⟨data, Assoc.lookup_insert_eq_some_iff.mpr (Or.inr ⟨hkey, hdata⟩), htf⟩

/-- The lookup of an edge by a parent without arrow. -/
theorem lookup_eq_some_iff (h : KeepsData transforms m) {c p : String}
    {data : TransformData Time} (hp : ¬ HasArrow p)
    (hdata : transforms.lookup (makeTransformKey p c) = some data) :
    m.lookup c = some (p, data.transform) := by
  obtain ⟨p', c', hkey, hc'⟩ := h.stored _ data hdata
  obtain ⟨rfl, rfl⟩ := makeTransformKey_injective hp (h.arrow_free c' p' _ hc') hkey
  exact hc'

/-- The keys of the code's map are those of the abstract edges. -/
theorem keys_eq_image (h : KeepsData transforms m) :
    transforms.keys.toFinset =
      m.keys.image (fun c => makeTransformKey ((m.parent c).getD "") c) := by
  ext key
  rw [List.mem_toFinset, Finset.mem_image, ← AList.mem_keys, ← AList.lookup_isSome,
    Option.isSome_iff_exists]
  constructor
  · rintro ⟨data, hdata⟩
    obtain ⟨p, c, rfl, hc⟩ := h.stored key data hdata
    refine ⟨c, TransformMap.mem_keys_iff.mpr ⟨p, _, hc⟩, ?_⟩
    simp [TransformMap.parent, hc]
  · rintro ⟨c, hc, rfl⟩
    obtain ⟨p, tf, hlookup⟩ := TransformMap.mem_keys_iff.mp hc
    obtain ⟨data, hdata, _⟩ := h.kept c p tf hlookup
    have hparent := TransformMap.parent_eq_some_iff.mpr ⟨tf, hlookup⟩
    exact ⟨data, by rw [hparent, Option.getD_some, hdata]⟩

/-- The two maps have the same size. -/
theorem length_eq (h : KeepsData transforms m) : transforms.entries.length = m.keys.card := by
  have hlen : transforms.entries.length = transforms.keys.toFinset.card := by
    rw [List.toFinset_card_of_nodup transforms.keys_nodup]
    simp [AList.keys, List.keys]
  rw [hlen, h.keys_eq_image, Finset.card_image_of_injOn]
  intro c hc c' hc' hkey
  obtain ⟨p, tf, hlookup⟩ := TransformMap.mem_keys_iff.mp (Finset.mem_coe.mp hc)
  obtain ⟨p', tf', hlookup'⟩ := TransformMap.mem_keys_iff.mp (Finset.mem_coe.mp hc')
  simp only [TransformMap.parent, hlookup, hlookup', Option.map_some, Option.getD_some] at hkey
  exact (makeTransformKey_injective (h.arrow_free c p tf hlookup)
    (h.arrow_free c' p' tf' hlookup') hkey).2

end KeepsData

end RerunViz.TFGraph
