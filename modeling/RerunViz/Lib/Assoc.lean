import Mathlib.Data.List.AList

set_option autoImplicit false

/-!
# Lookups in association lists

What an edit does to the lookup of any key, in one statement, and what a loop of edits
does: a map can be built entry by entry from another one, and keys can be erased one after
the other.  `find?_of_nodup_map` is the lookup in a list of records with a key field.
-/

namespace RerunViz.Assoc

variable {α β γ : Type} [DecidableEq α]

theorem mem_of_lookup {m : AList (fun _ : α => β)} {x : α} {y : β}
    (h : m.lookup x = some y) : x ∈ m := by
  rw [← AList.lookup_isSome, h]
  rfl

/-! ## One edit -/

theorem lookup_erase (m : AList (fun _ : α => β)) (x y : α) :
    (m.erase y).lookup x = if x = y then none else m.lookup x := by
  split
  · rename_i hx
    subst hx
    exact AList.lookup_erase x m
  · rename_i hx
    exact AList.lookup_erase_ne hx

theorem lookup_insert (m : AList (fun _ : α => β)) (x y : α) (b : β) :
    (m.insert y b).lookup x = if x = y then some b else m.lookup x := by
  split
  · rename_i hx
    subst hx
    exact AList.lookup_insert m
  · rename_i hx
    exact AList.lookup_insert_ne hx

theorem lookup_erase_eq_some_iff {m : AList (fun _ : α => β)} {x y : α} {b : β} :
    (m.erase y).lookup x = some b ↔ x ≠ y ∧ m.lookup x = some b := by
  rw [lookup_erase]
  split <;> simp_all

theorem lookup_insert_eq_some_iff {m : AList (fun _ : α => β)} {x y : α} {b b' : β} :
    (m.insert y b').lookup x = some b ↔
      (x = y ∧ b' = b) ∨ (x ≠ y ∧ m.lookup x = some b) := by
  rw [lookup_insert]
  split <;> simp_all

/-- In a list with distinct keys the first entry with the key of a member is that member. -/
theorem find?_of_nodup_map {key : β → α} {l : List β} (hkeys : (l.map key).Nodup) {b : β}
    (hb : b ∈ l) : l.find? (fun b' => key b' = key b) = some b := by
  cases hfind : l.find? (fun b' => key b' = key b) with
  | none =>
      have hnot := List.find?_eq_none.mp hfind b hb
      simp at hnot
  | some b' =>
      have hkey : key b' = key b := by simpa using List.find?_some hfind
      rw [List.inj_on_of_nodup_map hkeys (List.mem_of_find?_eq_some hfind) hb hkey]

/-! ## Loops -/

/-- Erasing keys one after the other. -/
theorem lookup_foldl_erase (keys : List α) (m : AList (fun _ : α => β)) (x : α) :
    (keys.foldl (fun m key => m.erase key) m).lookup x =
      if x ∈ keys then none else m.lookup x := by
  induction keys generalizing m with
  | nil => simp
  | cons key keys ih =>
      rw [List.foldl_cons, ih, lookup_erase]
      by_cases hx : x = key <;> simp [hx]

/-- Entering the image of every entry of a list with distinct keys. -/
theorem lookup_foldl_insert (f : β → γ) (entries : List (Sigma fun _ : α => β))
    (hkeys : entries.NodupKeys) (m : AList (fun _ : α => γ)) (x : α) :
    (entries.foldl (fun m entry => m.insert entry.1 (f entry.2)) m).lookup x =
      ((entries.dlookup x).map f).or (m.lookup x) := by
  induction entries generalizing m with
  | nil => simp
  | cons entry entries ih =>
      obtain ⟨hnot, hrest⟩ := List.nodupKeys_cons.mp hkeys
      rw [List.foldl_cons, ih hrest]
      by_cases hx : x = entry.1
      · subst hx
        have hnone : entries.dlookup entry.1 = none := List.dlookup_eq_none.mpr hnot
        rw [hnone, List.dlookup_cons_eq, AList.lookup_insert]
        rfl
      · rw [List.dlookup_cons_ne _ _ hx, AList.lookup_insert_ne hx]

end RerunViz.Assoc
