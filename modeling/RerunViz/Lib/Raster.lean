import Mathlib.Tactic.ByContra

set_option autoImplicit false

/-!
# Rows of elements in a list of bytes

A grid of `height` rows with `width` elements of `size` bytes each is stored with its rows
`stride` bytes apart.  A reader that takes the elements one after the other, `size` bytes
apart, finds each where it is stored when the rows leave no gaps between them (`Packed`),
and otherwise there is content that it gets wrong (`samePicture_self_iff`).
-/

namespace RerunViz.Raster

/-- The rows of a grid follow each other without gaps. -/
def Packed (height width stride size : Nat) : Prop :=
  height ≤ 1 ∨ width = 0 ∨ stride = width * size

instance (height width stride size : Nat) : Decidable (Packed height width stride size) :=
  inferInstanceAs (Decidable (_ ∨ _))

section Addresses

variable {height width stride size v u : Nat}

/-- In packed rows an element is where a reader without rows expects it. -/
theorem Packed.address (h : Packed height width stride size) (hv : v < height)
    (hu : u < width) : v * stride + u * size = (v * width + u) * size := by
  rcases h with hheight | hwidth | hstride
  · obtain rfl : v = 0 := by omega
    simp
  · omega
  · rw [hstride, Nat.add_mul, Nat.mul_assoc]

/-- Rows that are not packed are at least two, not empty, and apart. -/
theorem not_packed_iff (hstride : width * size ≤ stride) :
    ¬ Packed height width stride size ↔ 1 < height ∧ 0 < width ∧ width * size < stride := by
  unfold Packed
  omega

/-- The bytes of an element are inside the rows. -/
theorem address_lt (hstride : width * size ≤ stride) (hv : v < height) (hu : u < width) {b : Nat}
    (hb : b < size) : v * stride + u * size + b < height * stride := by
  have hrow : (u + 1) * size ≤ width * size := Nat.mul_le_mul_right size hu
  have hrows : (v + 1) * stride ≤ height * stride := Nat.mul_le_mul_right stride hv
  rw [Nat.add_mul, Nat.one_mul] at hrow hrows
  omega

/-- So are those that a reader without rows takes for the `i`-th element. -/
theorem packed_address_lt (hstride : width * size ≤ stride) {i : Nat} (hi : i < height * width)
    {b : Nat} (hb : b < size) : i * size + b < height * stride := by
  have hnext : (i + 1) * size ≤ height * width * size := Nat.mul_le_mul_right size hi
  have hrows : height * (width * size) ≤ height * stride := Nat.mul_le_mul_left height hstride
  rw [Nat.add_mul, Nat.one_mul, Nat.mul_assoc] at hnext
  omega

end Addresses

/-! ## One byte that tells two places apart -/

/-- `n` bytes, all zero but for the one at `index`. -/
def marked (n index : Nat) : List UInt8 := (List.replicate n 0).set index 1

@[simp] theorem length_marked (n index : Nat) : (marked n index).length = n := by
  simp [marked]

theorem getElem?_marked_self {n index : Nat} (h : index < n) :
    (marked n index)[index]? = some 1 := by
  simp [marked, h]

theorem getElem?_marked_of_ne {n index i : Nat} (hne : index ≠ i) (h : i < n) :
    (marked n index)[i]? = some 0 := by
  rw [marked, List.getElem?_set_ne hne, List.getElem?_replicate_of_lt h]

/-! ## Pictures -/

/-- The bytes of every element are in `buffer` without gaps what they are in `data` with
rows `stride` apart. -/
def SamePicture (height width stride size : Nat) (buffer data : List UInt8) : Prop :=
  ∀ v < height, ∀ u < width, ∀ b < size, ∃ byte,
    buffer[(v * width + u) * size + b]? = some byte ∧
      data[v * stride + u * size + b]? = some byte

/-- Data can be handed on as it is, whatever it is, exactly when its rows are packed. -/
theorem samePicture_self_iff {height width stride size : Nat} (hsize : 0 < size)
    (hstride : width * size ≤ stride) :
    (∀ data : List UInt8, data.length = height * stride →
        SamePicture height width stride size data data) ↔
      Packed height width stride size := by
  constructor
  · intro h
    by_contra hgaps
    obtain ⟨hheight, hwidth, hgap⟩ := (not_packed_iff hstride).mp hgaps
    -- the first byte of the second row is the marked one
    have hinside : stride < height * stride := by
      have hrows := Nat.mul_le_mul_right stride hheight
      omega
    obtain ⟨byte, hbuffer, hdata⟩ :=
      h (marked (height * stride) stride) (length_marked _ _) 1 hheight 0 hwidth 0 hsize
    have hfirst : (1 * width + 0) * size + 0 = width * size := by simp
    have hsecond : 1 * stride + 0 * size + 0 = stride := by simp
    rw [hfirst, getElem?_marked_of_ne (by omega) (by omega)] at hbuffer
    rw [hsecond, getElem?_marked_self hinside, ← hbuffer] at hdata
    cases hdata
  · intro h data hlength v hv u hu b hb
    have hlt := address_lt hstride hv hu hb
    rw [← hlength] at hlt
    rw [← h.address hv hu]
    exact ⟨data[v * stride + u * size + b], List.getElem?_eq_getElem hlt,
      List.getElem?_eq_getElem hlt⟩

/-! ## Reading the elements one after the other -/

section Read

variable {α β : Type} {read : α → Option β}

/-- Reading every element fails when reading one of them does. -/
theorem mapM_eq_none_iff {l : List α} : l.mapM read = none ↔ ∃ a ∈ l, read a = none := by
  induction l with
  | nil => simp
  | cons a l ih =>
      simp only [List.mapM_cons, List.mem_cons, exists_eq_or_imp, ← ih]
      cases hread : read a <;> cases hrest : l.mapM read <;> simp

/-- What is read is read element by element. -/
theorem getElem?_of_mapM {l : List α} {r : List β} (h : l.mapM read = some r) :
    r.length = l.length ∧ ∀ i : Nat, r[i]? = l[i]?.bind read := by
  induction l generalizing r with
  | nil =>
      obtain rfl : [] = r := Option.some.inj h
      simp
  | cons a l ih =>
      rw [List.mapM_cons, Option.bind_eq_bind, Option.bind_eq_some_iff] at h
      obtain ⟨b, hb, h⟩ := h
      rw [Option.bind_eq_bind, Option.bind_eq_some_iff] at h
      obtain ⟨rest, hrest, heq⟩ := h
      obtain rfl : b :: rest = r := Option.some.inj heq
      obtain ⟨hlength, hget⟩ := ih hrest
      refine ⟨by rw [List.length_cons, List.length_cons, hlength], fun i => ?_⟩
      cases i with
      | zero => simp [hb]
      | succ i => simpa using hget i

/-- Reading the first elements of a list by their indices. -/
theorem mapM_range_eq_take {read : Nat → Option β} {l : List β} {n : Nat} (hn : n ≤ l.length)
    (h : ∀ i < n, read i = l[i]?) : (List.range n).mapM read = some (l.take n) := by
  induction n with
  | zero => rfl
  | succ n ih =>
      have hlast : read n = some l[n] :=
        (h n (Nat.lt_succ_self n)).trans (List.getElem?_eq_getElem hn)
      rw [List.range_succ, List.mapM_append, ih (by omega) fun i hi => h i (by omega),
        List.take_succ_eq_append_getElem hn]
      simp [hlast]

end Read

/-! ## Records of one size -/

section Records

variable {α : Type} {records : List (List α)} {size : Nat}

theorem length_flatten_of_length (h : ∀ record ∈ records, record.length = size) :
    records.flatten.length = records.length * size := by
  induction records with
  | nil => simp
  | cons record records ih =>
      obtain ⟨hrecord, hrest⟩ := List.forall_mem_cons.mp h
      rw [List.flatten_cons, List.length_append, hrecord, ih hrest, List.length_cons,
        Nat.succ_mul, Nat.add_comm]

/-- In records that follow each other, an element of the `i`-th is found at its index. -/
theorem getElem?_flatten_of_length (h : ∀ record ∈ records, record.length = size) {i b : Nat}
    (hb : b < size) {record : List α} (hrecord : records[i]? = some record) :
    records.flatten[i * size + b]? = record[b]? := by
  induction records generalizing i with
  | nil => simp at hrecord
  | cons first records ih =>
      obtain ⟨hfirst, hrest⟩ := List.forall_mem_cons.mp h
      rw [List.flatten_cons]
      cases i with
      | zero =>
          obtain rfl : first = record := Option.some.inj hrecord
          rw [Nat.zero_mul, Nat.zero_add, List.getElem?_append_left (by omega)]
      | succ i =>
          have hskip : (i + 1) * size + b - first.length = i * size + b := by
            rw [Nat.succ_mul, hfirst]
            omega
          rw [List.getElem?_append_right (by rw [Nat.succ_mul, hfirst]; omega), hskip]
          exact ih hrest hrecord

end Records

end RerunViz.Raster
