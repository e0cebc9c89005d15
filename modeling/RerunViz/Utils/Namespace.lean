import RerunViz.Lib.Components
import RerunViz.Utils

set_option autoImplicit false

/-!
# Topics in namespaces

`isInNamespace` compares characters, and what it decides is whether the components of the
namespace begin those of the topic.  It does so for namespaces that have a character other
than a slash; on the others the recursion ends in `back()` of an empty string
(`isInNamespace_global`).
-/

namespace RerunViz

open Components

/-- The namespace has a character other than a slash. -/
def Named (ns : String) : Prop := ∃ ch ∈ ns.toList, ch ≠ '/'

theorem named_iff {ns : String} : Named ns ↔ trimRight '/' ns.toList ≠ [] :=
  trimRight_ne_nil_iff.symm

/-! ## The recursion -/

/-- The recursion passes over the slashes at the back. -/
theorem isInNamespaceBack_dropWhile (topic rev : List Char) :
    isInNamespaceBack topic rev = isInNamespaceBack topic (rev.dropWhile (· == '/')) := by
  induction rev with
  | nil => rfl
  | cons back rest ih =>
      by_cases hback : back = '/'
      · rw [isInNamespaceBack, if_pos hback, ih, List.dropWhile_cons_of_pos (by simpa using hback)]
      · rw [List.dropWhile_cons_of_neg (by simpa using hback)]

/-- On a namespace that does not end in a slash the topic is compared with it and with it
followed by a slash. -/
theorem isInNamespaceBack_cons {topic : List Char} {back : Char} (hback : back ≠ '/')
    (rest : List Char) :
    ∃ answer, isInNamespaceBack topic (back :: rest) = some answer ∧ (answer = true ↔
      topic = (back :: rest).reverse ∨ (back :: rest).reverse ++ ['/'] <+: topic) := by
  have hlast : (back :: rest).reverse.getLast? = some back := by simp
  simp only [isInNamespaceBack, if_neg hback]
  generalize (back :: rest).reverse = ns at hlast
  have hguard : ¬ (ns = [] ∨ ns = ['/']) := by
    rintro (rfl | rfl)
    · cases hlast
    · exact hback (Option.some.inj hlast).symm
  rw [if_neg hguard, append_singleton_prefix_iff]
  split
  · rename_i heq
    exact ⟨true, rfl, by simp [heq]⟩
  · rename_i hne
    split
    · rename_i hshort
      exact ⟨false, rfl, by simp [hne, hshort]⟩
    · split
      · rename_i htake
        exact ⟨_, rfl, by simp [hne, htake]⟩
      · rename_i htake
        exact ⟨false, rfl, by simp [hne, htake]⟩

/-- A namespace of slashes only leaves nothing to call `back()` on. -/
theorem isInNamespace_eq_none (topic : String) {ns : String} (hns : ¬ Named ns) :
    isInNamespace topic ns = none := by
  rw [named_iff, not_not, trimRight, List.rdropWhile, List.reverse_eq_nil_iff] at hns
  rw [isInNamespace, isInNamespaceBack_dropWhile, hns]
  rfl

/-- On every other namespace the answer is whether its components begin those of the
topic. -/
theorem exists_isInNamespace (topic : String) {ns : String} (hns : Named ns) :
    ∃ answer, isInNamespace topic ns = some answer ∧
      (answer = true ↔ Within '/' topic.toList ns.toList) := by
  rw [within_iff]
  rw [named_iff] at hns
  rw [isInNamespace, isInNamespaceBack_dropWhile]
  have hrev : trimRight '/' ns.toList = (ns.toList.reverse.dropWhile (· == '/')).reverse := rfl
  rw [hrev] at hns ⊢
  match hback : ns.toList.reverse.dropWhile (· == '/') with
  | [] =>
      rw [hback] at hns
      exact absurd rfl hns
  | back :: rest =>
      have hne : back ≠ '/' := by
        have hnot := List.head?_dropWhile_not (· == '/') ns.toList.reverse
        rw [hback] at hnot
        simpa using hnot
      exact isInNamespaceBack_cons hne rest

/-- The call is defined on the namespaces with a character other than a slash. -/
theorem isSome_isInNamespace_iff {topic ns : String} :
    (isInNamespace topic ns).isSome ↔ Named ns := by
  constructor
  · intro hsome
    by_contra hns
    rw [isInNamespace_eq_none topic hns] at hsome
    cases hsome
  · intro hns
    obtain ⟨answer, hanswer, _⟩ := exists_isInNamespace topic hns
    rw [hanswer]
    rfl

/-! ## Components -/

/-- For every topic and every namespace with a character other than a slash, the call
answers whether the components of the namespace, without its trailing slashes, are the
first components of the topic; and the relation is transitive. -/
theorem isInNamespace_components :
    (∀ topic ns : String, Named ns →
      ∃ answer, isInNamespace topic ns = some answer ∧ (answer = true ↔
        (ns.toList.rdropWhile (· == '/')).splitOn '/' <+: topic.toList.splitOn '/')) ∧
    ∀ a b c : String, Named b → Named c → isInNamespace a b = some true →
      isInNamespace b c = some true → isInNamespace a c = some true := by
  constructor
  · exact fun topic ns hns => exists_isInNamespace topic hns
  · intro a b c hb hc hab hbc
    obtain ⟨_, hab', hwithin⟩ := exists_isInNamespace a hb
    obtain ⟨_, hbc', hwithin'⟩ := exists_isInNamespace b hc
    obtain ⟨answer, hac, hgoal⟩ := exists_isInNamespace a hc
    rw [hab, Option.some.injEq] at hab'
    rw [hbc, Option.some.injEq] at hbc'
    rw [hac, hgoal.mpr ((hwithin.mp hab'.symm).trans (hwithin'.mp hbc'.symm))]

/-! ## The global namespace -/

/-- The last slash of a list splits it. -/
theorem findLastOf_split {ch : Char} {l : List Char} {i : Nat} (h : findLastOf ch l = some i) :
    l = l.take i ++ ch :: l.drop (i + 1) := by
  induction l generalizing i with
  | nil => cases h
  | cons x l ih =>
      rw [findLastOf] at h
      split at h
      · rename_i j hj
        obtain rfl : j + 1 = i := Option.some.inj h
        simpa using ih hj
      · split at h
        · rename_i hx
          obtain rfl : 0 = i := Option.some.inj h
          simp [hx]
        · cases h

/-- A topic is its camera namespace, a slash and what follows. -/
theorem toList_of_getCameraNamespaceFromTopic {topic ns : String}
    (h : getCameraNamespaceFromTopic topic = .ok ns) :
    ∃ rest, topic.toList = ns.toList ++ '/' :: rest := by
  unfold getCameraNamespaceFromTopic at h
  split at h
  · cases h
  · cases h
  · rename_i i hlast
    obtain rfl := Except.ok.inj h
    rw [String.toList_ofList]
    exact ⟨_, findLastOf_split hlast⟩

/-- For every topic and namespace, the call is defined, and true when the namespace is
global, if and only if the namespace has a character other than a slash.  So it answers
`true` about a topic and its camera namespace exactly when that has one. -/
theorem isInNamespace_global (topic ns : String) :
    (((isInNamespace topic ns).isSome ∧
        ((∀ ch ∈ ns.toList, ch = '/') → isInNamespace topic ns = some true)) ↔ Named ns) ∧
      (getCameraNamespaceFromTopic topic = .ok ns →
        (isInNamespace topic ns = some true ↔ Named ns)) := by
  constructor
  · rw [isSome_isInNamespace_iff]
    refine ⟨fun h => h.1, fun hns => ⟨hns, fun hslashes => ?_⟩⟩
    obtain ⟨ch, hmem, hch⟩ := hns
    exact absurd (hslashes ch hmem) hch
  · intro hspace
    constructor
    · intro htrue
      apply isSome_isInNamespace_iff.mp
      rw [htrue]
      rfl
    · intro hns
      obtain ⟨rest, hrest⟩ := toList_of_getCameraNamespaceFromTopic hspace
      obtain ⟨answer, hanswer, hwithin⟩ := exists_isInNamespace topic hns
      have hin : Within '/' topic.toList ns.toList := by
        rw [hrest]
        exact within_append ns.toList rest
      rw [hanswer, hwithin.mpr hin]

/-- On the global namespace, empty or not, `back()` is called on an empty string; the topic
`//image` has it as its camera namespace. -/
theorem isInNamespace_slashes :
    isInNamespace "/image" "" = none ∧ isInNamespace "/image" "/" = none ∧
      (getCameraNamespaceFromTopic "//image").toOption = some "/" ∧
      isInNamespace "//image" "/" = none := by
  decide

/-! ## The parts of a path -/

/-- What stands between the slashes of a path. -/
def slashParts (path : String) : List String := (path.toList.splitOn '/').map String.ofList

/-- A slash and a name without one are one part more. -/
theorem slashParts_concat (path : String) {name : String} (h : '/' ∉ name.toList) :
    slashParts (path ++ "/" ++ name) = slashParts path ++ [name] := by
  have hlist : (path ++ "/" ++ name).toList = path.toList ++ '/' :: name.toList := by
    rw [String.toList_append, String.toList_append, List.append_assoc]
    rfl
  rw [slashParts, hlist, List.splitOn_append_cons_self, List.splitOn_eq_singleton h,
    List.map_append, List.map_singleton, String.ofList_toList]
  rfl

end RerunViz
