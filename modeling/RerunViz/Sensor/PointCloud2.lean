import RerunViz.Converter.Sensor
import RerunViz.Lib.Raster

set_option autoImplicit false

/-!
# The positions that `PointCloud2` reads

The three iterators go through the data in steps of one point, from the first point to the
last, whether or not a row has padding behind its last point.  So the positions are those of
the grid when its rows are packed, and only then for all contents (`toRerunType_grid_iff`).
-/

namespace RerunViz.PointCloud2

open Raster

/-! ## Reading a float -/

theorem readFloat_eq_none_iff {data : List UInt8} {index : Nat} :
    readFloat data index = none ↔ data.length < index + 4 := by
  constructor
  · intro h
    by_contra hlt
    rw [readFloat, List.getElem?_eq_getElem (by omega : index < data.length),
      List.getElem?_eq_getElem (by omega : index + 1 < data.length),
      List.getElem?_eq_getElem (by omega : index + 2 < data.length),
      List.getElem?_eq_getElem (by omega : index + 3 < data.length)] at h
    cases h
  · intro h
    have hlast : data[index + 3]? = none := List.getElem?_eq_none (by omega)
    rw [readFloat, hlast]
    cases data[index]? <;> cases data[index + 1]? <;> cases data[index + 2]? <;> rfl

/-- Before the marked byte every float is zero. -/
theorem readFloat_marked_before {n mark index : Nat} (hmark : mark < n)
    (h : index + 4 ≤ mark) : readFloat (marked n mark) index = some 0 := by
  rw [readFloat, getElem?_marked_of_ne (i := index) (by omega) (by omega),
    getElem?_marked_of_ne (i := index + 1) (by omega) (by omega),
    getElem?_marked_of_ne (i := index + 2) (by omega) (by omega),
    getElem?_marked_of_ne (i := index + 3) (by omega) (by omega)]
  rfl

/-- The float that ends with the marked byte is not. -/
theorem readFloat_marked_last {n index : Nat} (h : index + 4 ≤ n) :
    readFloat (marked n (index + 3)) index = some 0x01000000 := by
  rw [readFloat, getElem?_marked_self (by omega),
    getElem?_marked_of_ne (i := index) (by omega) (by omega),
    getElem?_marked_of_ne (i := index + 1) (by omega) (by omega),
    getElem?_marked_of_ne (i := index + 2) (by omega) (by omega)]
  rfl

/-! ## Reading a position -/

/-- The position of a point that begins at a byte index. -/
def positionAt (data : List UInt8) (offsetX offsetY offsetZ start : Nat) : Option Position3D := do
  let x ← readFloat data (start + offsetX)
  let y ← readFloat data (start + offsetY)
  let z ← readFloat data (start + offsetZ)
  return ⟨x, y, z⟩

theorem readPosition_eq_positionAt (msg : SensorMsgs.PointCloud2)
    (offsetX offsetY offsetZ i : Nat) :
    readPosition msg offsetX offsetY offsetZ i =
      positionAt msg.data offsetX offsetY offsetZ (i * msg.pointStep.toNat) := by
  rw [readPosition, positionAt, Nat.add_comm offsetX, Nat.add_comm offsetY, Nat.add_comm offsetZ]

theorem positionAt_eq_none_iff {data : List UInt8} {offsetX offsetY offsetZ start : Nat} :
    positionAt data offsetX offsetY offsetZ start = none ↔
      ∃ offset ∈ [offsetX, offsetY, offsetZ], data.length < start + offset + 4 := by
  simp only [List.mem_cons, List.not_mem_nil, or_false, exists_eq_or_imp, exists_eq_left,
    ← readFloat_eq_none_iff, positionAt]
  rcases readFloat data (start + offsetX) with _ | x
  · simp
  · rcases readFloat data (start + offsetY) with _ | y
    · simp
    · rcases readFloat data (start + offsetZ) with _ | z <;> simp

/-- The first float of a position. -/
theorem readFloat_of_positionAt {data : List UInt8} {offsetX offsetY offsetZ start : Nat}
    {position : Position3D}
    (h : positionAt data offsetX offsetY offsetZ start = some position) :
    readFloat data (start + offsetX) = some position.x := by
  simp only [positionAt, Option.bind_eq_bind, Option.bind_eq_some_iff] at h
  obtain ⟨x, hx, y, _, z, _, hposition⟩ := h
  obtain rfl := Option.some.inj hposition
  exact hx

/-! ## The conversion -/

/-- Where a message has its three fields. -/
structure Offsets (msg : SensorMsgs.PointCloud2) (offsetX offsetY offsetZ : Nat) : Prop where
  x : fieldOffset msg "x" = .ok offsetX
  y : fieldOffset msg "y" = .ok offsetY
  z : fieldOffset msg "z" = .ok offsetZ

section Conversion

variable {msg : SensorMsgs.PointCloud2} {offsetX offsetY offsetZ : Nat}

theorem toRerunType_of_none (h : Offsets msg offsetX offsetY offsetZ)
    (hread : (List.range (pointCount msg)).mapM (readPosition msg offsetX offsetY offsetZ) =
      none) : toRerunType msg = .error .outOfBounds := by
  simp only [toRerunType, h.x, h.y, h.z, hread]

theorem toRerunType_of_some (h : Offsets msg offsetX offsetY offsetZ) {positions : List Position3D}
    (hread : (List.range (pointCount msg)).mapM (readPosition msg offsetX offsetY offsetZ) =
      some positions) : toRerunType msg = .ok positions := by
  simp only [toRerunType, h.x, h.y, h.z, hread]

/-- The conversion reads beyond the data as soon as one of its floats ends beyond it. -/
theorem toRerunType_outOfBounds_iff (h : Offsets msg offsetX offsetY offsetZ) :
    toRerunType msg = .error .outOfBounds ↔
      ∃ i < pointCount msg, ∃ offset ∈ [offsetX, offsetY, offsetZ],
        msg.data.length < i * msg.pointStep.toNat + offset + 4 := by
  have hnone : (List.range (pointCount msg)).mapM (readPosition msg offsetX offsetY offsetZ) =
      none ↔ ∃ i ∈ List.range (pointCount msg),
        readPosition msg offsetX offsetY offsetZ i = none := mapM_eq_none_iff
  simp only [List.mem_range, readPosition_eq_positionAt, positionAt_eq_none_iff] at hnone
  rw [← hnone]
  constructor
  · intro hout
    by_contra hread
    obtain ⟨positions, hpositions⟩ := Option.ne_none_iff_exists'.mp hread
    rw [toRerunType_of_some h hpositions] at hout
    cases hout
  · exact toRerunType_of_none h

/-- Otherwise it returns the position read at each step. -/
theorem exists_positions (h : Offsets msg offsetX offsetY offsetZ)
    (hbounds : toRerunType msg ≠ .error .outOfBounds) :
    ∃ positions, toRerunType msg = .ok positions ∧ positions.length = pointCount msg ∧
      ∀ i < pointCount msg, positions[i]? =
        positionAt msg.data offsetX offsetY offsetZ (i * msg.pointStep.toNat) := by
  cases hread : (List.range (pointCount msg)).mapM (readPosition msg offsetX offsetY offsetZ) with
  | none => exact absurd (toRerunType_of_none h hread) hbounds
  | some positions =>
      obtain ⟨hlength, hget⟩ := getElem?_of_mapM hread
      rw [List.length_range] at hlength
      refine ⟨positions, toRerunType_of_some h hread, hlength, fun i hi => ?_⟩
      rw [hget i, List.getElem?_range hi, Option.bind_some, readPosition_eq_positionAt]

end Conversion

/-! ## Organised clouds -/

/-- The field of a name is a `float` whose bytes lie inside a point. -/
def FloatField (msg : SensorMsgs.PointCloud2) (name : String) (offset : Nat) : Prop :=
  ∃ field, msg.fields.find? (fun field => field.name = name) = some field ∧
    field.datatype = 7 ∧ field.offset.toNat = offset ∧ offset + 4 ≤ msg.pointStep.toNat

/-- The layout of a cloud whose rows hold their points. -/
structure WellFormed (msg : SensorMsgs.PointCloud2) (offsetX offsetY offsetZ : Nat) : Prop where
  x : FloatField msg "x" offsetX
  y : FloatField msg "y" offsetY
  z : FloatField msg "z" offsetZ
  rowStep : msg.width.toNat * msg.pointStep.toNat ≤ msg.rowStep.toNat
  count : msg.height.toNat * msg.width.toNat < 2 ^ 32

theorem FloatField.fieldOffset {msg : SensorMsgs.PointCloud2} {name : String} {offset : Nat}
    (h : FloatField msg name offset) (data : List UInt8) :
    PointCloud2.fieldOffset { msg with data := data } name = .ok offset := by
  obtain ⟨field, hfind, -, rfl, -⟩ := h
  simp only [PointCloud2.fieldOffset, hfind]

section WellFormed

variable {msg : SensorMsgs.PointCloud2} {offsetX offsetY offsetZ : Nat}

theorem WellFormed.offsets (h : WellFormed msg offsetX offsetY offsetZ) (data : List UInt8) :
    Offsets { msg with data := data } offsetX offsetY offsetZ :=
  ⟨h.x.fieldOffset data, h.y.fieldOffset data, h.z.fieldOffset data⟩

theorem WellFormed.pointCount_eq (h : WellFormed msg offsetX offsetY offsetZ)
    (data : List UInt8) :
    pointCount { msg with data := data } = msg.height.toNat * msg.width.toNat := by
  rw [pointCount, UInt32.toNat_mul, Nat.mod_eq_of_lt h.count]

theorem WellFormed.offset_le (h : WellFormed msg offsetX offsetY offsetZ) {offset : Nat}
    (hoffset : offset ∈ [offsetX, offsetY, offsetZ]) : offset + 4 ≤ msg.pointStep.toNat := by
  obtain ⟨_, _, _, _, hx⟩ := h.x
  obtain ⟨_, _, _, _, hy⟩ := h.y
  obtain ⟨_, _, _, _, hz⟩ := h.z
  simp only [List.mem_cons, List.not_mem_nil, or_false] at hoffset
  rcases hoffset with rfl | rfl | rfl
  · exact hx
  · exact hy
  · exact hz

/-- Rows that hold their points keep every read inside the data. -/
theorem WellFormed.inBounds (h : WellFormed msg offsetX offsetY offsetZ) {data : List UInt8}
    (hlength : data.length = msg.height.toNat * msg.rowStep.toNat) :
    toRerunType { msg with data := data } ≠ .error .outOfBounds := by
  intro hout
  rw [toRerunType_outOfBounds_iff (h.offsets data), h.pointCount_eq data] at hout
  obtain ⟨i, hi, offset, hoffset, hbeyond⟩ := hout
  have hle := h.offset_le hoffset
  have hlt := packed_address_lt h.rowStep hi (b := offset + 3) (by omega)
  dsimp only at hbeyond
  omega

/-- With gaps between the rows there is content whose second row is not where the iterators
look for it. -/
theorem WellFormed.exists_misread (h : WellFormed msg offsetX offsetY offsetZ)
    (hgaps : ¬ Packed msg.height.toNat msg.width.toNat msg.rowStep.toNat msg.pointStep.toNat) :
    ∃ data : List UInt8, data.length = msg.height.toNat * msg.rowStep.toNat ∧
      readFloat data (msg.width.toNat * msg.pointStep.toNat + offsetX) ≠
        readFloat data (msg.rowStep.toNat + offsetX) := by
  obtain ⟨hheight, hwidth, hgap⟩ := (not_packed_iff h.rowStep).mp hgaps
  have hx : offsetX + 4 ≤ msg.pointStep.toNat := h.offset_le (by simp)
  have hpoint : msg.pointStep.toNat ≤ msg.width.toNat * msg.pointStep.toNat :=
    Nat.le_mul_of_pos_left _ hwidth
  have hrows : 2 * msg.rowStep.toNat ≤ msg.height.toNat * msg.rowStep.toNat :=
    Nat.mul_le_mul_right _ hheight
  -- the last byte of the first float of the second row is the marked one
  refine ⟨marked (msg.height.toNat * msg.rowStep.toNat) (msg.rowStep.toNat + offsetX + 3),
    length_marked _ _, ?_⟩
  rw [readFloat_marked_before (by omega) (by omega), readFloat_marked_last (by omega)]
  decide

end WellFormed

/-- For every well-formed layout of a cloud: whatever the data, the conversion returns
`height * width` positions of which the `i`-th is stored in row `i / width` at column
`i % width`, if and only if the rows are packed. -/
theorem toRerunType_grid_iff {msg : SensorMsgs.PointCloud2} {offsetX offsetY offsetZ : Nat}
    (h : WellFormed msg offsetX offsetY offsetZ) :
    (∀ data : List UInt8, data.length = msg.height.toNat * msg.rowStep.toNat →
      ∃ positions, toRerunType { msg with data := data } = .ok positions ∧
        positions.length = msg.height.toNat * msg.width.toNat ∧
        ∀ i < msg.height.toNat * msg.width.toNat, ∃ position,
          positions[i]? = some position ∧
          positionAt data offsetX offsetY offsetZ (i / msg.width.toNat * msg.rowStep.toNat +
            i % msg.width.toNat * msg.pointStep.toNat) = some position) ↔
      Packed msg.height.toNat msg.width.toNat msg.rowStep.toNat msg.pointStep.toNat := by
  constructor
  · intro hgrid
    by_contra hgaps
    obtain ⟨hheight, hwidth, -⟩ := (not_packed_iff h.rowStep).mp hgaps
    have hpoints : 2 * msg.width.toNat ≤ msg.height.toNat * msg.width.toNat :=
      Nat.mul_le_mul_right _ hheight
    obtain ⟨data, hlength, hmisread⟩ := h.exists_misread hgaps
    obtain ⟨positions, hok, -, hstored⟩ := hgrid data hlength
    obtain ⟨positions', hok', -, hget⟩ := exists_positions (h.offsets data) (h.inBounds hlength)
    obtain rfl : positions = positions' := Except.ok.inj (hok.symm.trans hok')
    obtain ⟨position, hposition, hsecond⟩ := hstored msg.width.toNat (by omega)
    rw [hget _ (by rw [h.pointCount_eq data]; omega)] at hposition
    rw [Nat.div_self hwidth, Nat.mod_self, Nat.one_mul, Nat.zero_mul, Nat.add_zero] at hsecond
    refine hmisread ?_
    rw [readFloat_of_positionAt hposition, readFloat_of_positionAt hsecond]
  · intro hpacked data hlength
    obtain ⟨positions, hok, hcount, hget⟩ :=
      exists_positions (h.offsets data) (h.inBounds hlength)
    rw [h.pointCount_eq data] at hcount hget
    refine ⟨positions, hok, hcount, fun i hi => ?_⟩
    have hwidth : 0 < msg.width.toNat := Nat.pos_of_mul_pos_left (Nat.zero_lt_of_lt hi)
    have haddress := hpacked.address (Nat.div_lt_of_lt_mul (by rwa [Nat.mul_comm]))
      (Nat.mod_lt i hwidth)
    rw [Nat.div_add_mod'] at haddress
    rw [haddress, ← hget i hi]
    exact ⟨positions[i], List.getElem?_eq_getElem (by omega), List.getElem?_eq_getElem (by omega)⟩

/-- The fields of a cloud of packed floats. -/
def xyzFields : List SensorMsgs.PointField :=
  [⟨"x", 0, 7, 1⟩, ⟨"y", 4, 7, 1⟩, ⟨"z", 8, 7, 1⟩]

/-- A cloud of points of twelve bytes. -/
def xyzCloud (height width rowStep : UInt32) (data : List UInt8) : SensorMsgs.PointCloud2 where
  height := height
  width := width
  fields := xyzFields
  isBigendian := false
  pointStep := 12
  rowStep := rowStep
  data := data

/-- The points `(1, 2, 3)` and `(4, 5, 6)`. -/
def twoPoints : List UInt8 :=
  [0, 0, 0x80, 0x3F, 0, 0, 0, 0x40, 0, 0, 0x40, 0x40] ++
    [0, 0, 0x80, 0x40, 0, 0, 0xA0, 0x40, 0, 0, 0xC0, 0x40]

/-- One row of two points. -/
theorem toRerunType_grid_iff_row :
    ∃ positions, toRerunType (xyzCloud 1 2 24 twoPoints) = .ok positions ∧
      positions.length = 2 ∧ positions[1]? = some ⟨0x40800000, 0x40A00000, 0x40C00000⟩ := by
  have hrow : WellFormed (xyzCloud 1 2 24 []) 0 4 8 :=
    ⟨⟨_, rfl, by decide⟩, ⟨_, rfl, by decide⟩, ⟨_, rfl, by decide⟩, by decide, by decide⟩
  obtain ⟨positions, hok, hlength, hstored⟩ :=
    (toRerunType_grid_iff hrow).mpr (by decide) twoPoints (by decide)
  obtain ⟨position, hget, hposition⟩ := hstored 1 (by decide)
  have hsecond : positionAt twoPoints 0 4 8 12 = some ⟨0x40800000, 0x40A00000, 0x40C00000⟩ := by
    decide
  exact ⟨positions, hok, hlength, hget.trans (hposition.symm.trans hsecond)⟩

/-- The data of two rows of one point, each followed by four bytes of padding; the second
point is `(1, 0, 0)`. -/
def paddedData : List UInt8 := List.replicate 16 0 ++ [0, 0, 0x80, 0x3F] ++ List.replicate 12 0

/-- The second position is read four bytes early, and comes out as `(0, 1, 0)`. -/
theorem toRerunType_padded :
    WellFormed (xyzCloud 2 1 16 paddedData) 0 4 8 ∧ paddedData.length = 2 * 16 ∧
      (toRerunType (xyzCloud 2 1 16 paddedData)).toOption =
        some [⟨0, 0, 0⟩, ⟨0, 0x3F800000, 0⟩] ∧
      positionAt paddedData 0 4 8 16 = some ⟨0x3F800000, 0, 0⟩ := by
  refine ⟨?_, by decide, by decide, by decide⟩
  exact ⟨⟨_, rfl, by decide⟩, ⟨_, rfl, by decide⟩, ⟨_, rfl, by decide⟩, by decide, by decide⟩

end RerunViz.PointCloud2
