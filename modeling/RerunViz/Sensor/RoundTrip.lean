import Mathlib.Data.List.Forall2
import RerunViz.Sensor.PointCloud2

set_option autoImplicit false

/-!
# Clouds as they are stored

A publisher stores a point as a record of `point_step` bytes: its three floats at the offsets
of the fields, least significant byte first, and anything in between.  The callback logs the
points of such a cloud, as many as the header counts; when it counts more than there are, it
reads beyond the data (`topicCallback_stored`).
-/

namespace RerunViz.PointCloud2

open Raster

/-! ## The bytes of a float -/

/-- The bytes of a `float`, the least significant first. -/
def floatBytes (x : Binary32) : List UInt8 :=
  [UInt8.ofNat x.toNat, UInt8.ofNat (x.toNat / 2 ^ 8), UInt8.ofNat (x.toNat / 2 ^ 16),
    UInt8.ofNat (x.toNat / 2 ^ 24)]

/-- The float at an index of a record. -/
def Holds (record : List UInt8) (offset : Nat) (x : Binary32) : Prop :=
  ∃ before after, record = before ++ floatBytes x ++ after ∧ before.length = offset

theorem Holds.offset_le {record : List UInt8} {offset : Nat} {x : Binary32}
    (h : Holds record offset x) : offset + 4 ≤ record.length := by
  obtain ⟨before, after, rfl, rfl⟩ := h
  simp [floatBytes]

/-- What follows a record does not matter. -/
theorem Holds.append {record : List UInt8} {offset : Nat} {x : Binary32}
    (h : Holds record offset x) (more : List UInt8) : Holds (record ++ more) offset x := by
  obtain ⟨before, after, rfl, hbefore⟩ := h
  exact ⟨before, after ++ more, by rw [List.append_assoc _ after], hbefore⟩

/-- What the bytes of a float are read as. -/
theorem ofNat_floatBytes (x : Binary32) :
    BitVec.ofNat 32 ((UInt8.ofNat x.toNat).toNat + (UInt8.ofNat (x.toNat / 2 ^ 8)).toNat * 2 ^ 8 +
      (UInt8.ofNat (x.toNat / 2 ^ 16)).toNat * 2 ^ 16 +
      (UInt8.ofNat (x.toNat / 2 ^ 24)).toNat * 2 ^ 24) = x := by
  have hlt : x.toNat < 2 ^ 32 := x.isLt
  apply BitVec.eq_of_toNat_eq
  simp only [BitVec.toNat_ofNat, UInt8.toNat_ofNat']
  omega

theorem readFloat_of_holds {record : List UInt8} {offset : Nat} {x : Binary32}
    (h : Holds record offset x) : readFloat record offset = some x := by
  obtain ⟨before, after, rfl, rfl⟩ := h
  have hbyte : ∀ b : Nat, b < 4 →
      (before ++ floatBytes x ++ after)[before.length + b]? = (floatBytes x)[b]? := by
    intro b hb
    rw [List.append_assoc, List.getElem?_append_right (Nat.le_add_right _ b),
      Nat.add_sub_cancel_left, List.getElem?_append_left hb]
  have hfirst := hbyte 0 (by decide)
  rw [Nat.add_zero] at hfirst
  rw [readFloat, hfirst, hbyte 1 (by decide), hbyte 2 (by decide), hbyte 3 (by decide)]
  exact congrArg some (ofNat_floatBytes x)

/-! ## Records of points -/

/-- A record of `size` bytes that stores a point. -/
structure Stores (size offsetX offsetY offsetZ : Nat) (record : List UInt8)
    (position : Position3D) : Prop where
  length_eq : record.length = size
  x : Holds record offsetX position.x
  y : Holds record offsetY position.y
  z : Holds record offsetZ position.z

section Records

variable {size offsetX offsetY offsetZ : Nat} {records : List (List UInt8)}
  {positions : List Position3D}

/-- A float of the `i`-th record is found in the data. -/
theorem readFloat_flatten (hlength : ∀ record ∈ records, record.length = size) {i : Nat}
    {record : List UInt8} (hrecord : records[i]? = some record) {offset : Nat} {x : Binary32}
    (h : Holds record offset x) : readFloat records.flatten (i * size + offset) = some x := by
  have hle := h.offset_le
  rw [hlength record (List.mem_of_getElem? hrecord)] at hle
  have hbyte : ∀ b : Nat, b < 4 →
      records.flatten[i * size + offset + b]? = record[offset + b]? := by
    intro b hb
    rw [Nat.add_assoc]
    exact getElem?_flatten_of_length hlength (by omega) hrecord
  have hfirst := hbyte 0 (by decide)
  rw [Nat.add_zero, Nat.add_zero] at hfirst
  rw [← readFloat_of_holds h, readFloat, readFloat, hfirst, hbyte 1 (by decide),
    hbyte 2 (by decide), hbyte 3 (by decide)]

theorem length_of_stores
    (h : List.Forall₂ (Stores size offsetX offsetY offsetZ) records positions) :
    ∀ record ∈ records, record.length = size := by
  induction h with
  | nil => nofun
  | cons hstores _ ih => exact List.forall_mem_cons.mpr ⟨hstores.length_eq, ih⟩

/-- The position at a step is that of the record. -/
theorem positionAt_flatten
    (h : List.Forall₂ (Stores size offsetX offsetY offsetZ) records positions) {i : Nat}
    (hi : i < positions.length) :
    positionAt records.flatten offsetX offsetY offsetZ (i * size) = some positions[i] := by
  have hlength := length_of_stores h
  have hrecords : i < records.length := by rwa [h.length_eq]
  have hstores := (List.forall₂_iff_get.mp h).2 i hrecords hi
  have hrecord : records[i]? = some records[i] := List.getElem?_eq_getElem hrecords
  rw [positionAt, readFloat_flatten hlength hrecord hstores.x,
    readFloat_flatten hlength hrecord hstores.y, readFloat_flatten hlength hrecord hstores.z]
  rfl

end Records

section Cloud

variable {msg : SensorMsgs.PointCloud2} {offsetX offsetY offsetZ : Nat}
  {records : List (List UInt8)} {positions : List Position3D}

/-- The conversion returns as many of the stored points as the header counts, and reads beyond
the data when it counts more. -/
theorem toRerunType_stored (hoffsets : Offsets msg offsetX offsetY offsetZ)
    (h : List.Forall₂ (Stores msg.pointStep.toNat offsetX offsetY offsetZ) records positions)
    (hdata : msg.data = records.flatten) :
    toRerunType msg =
      if pointCount msg ≤ positions.length then .ok (positions.take (pointCount msg))
      else .error .outOfBounds := by
  have hbytes : msg.data.length = positions.length * msg.pointStep.toNat := by
    rw [hdata, length_flatten_of_length (length_of_stores h), h.length_eq]
  split
  · rename_i hcount
    refine toRerunType_of_some hoffsets (mapM_range_eq_take hcount fun i hi => ?_)
    rw [readPosition_eq_positionAt, hdata, positionAt_flatten h (by omega),
      List.getElem?_eq_getElem]
  · rename_i hcount
    rw [toRerunType_outOfBounds_iff hoffsets]
    exact ⟨positions.length, by omega, offsetX, List.mem_cons_self, by omega⟩

end Cloud

/-- Whatever stands between the floats and whatever the other parts of the header say: when
there are as many points as `height * width` in 32 bits, the callback logs the first so many
of them, and when there are fewer, it reads beyond the data. -/
theorem topicCallback_stored {c : Converter} {stream : RecordingStream}
    (hstream : c.stream = some stream) (members : Members) {msg : SensorMsgs.PointCloud2}
    {offsetX offsetY offsetZ : Nat} (hoffsets : Offsets msg offsetX offsetY offsetZ)
    {records : List (List UInt8)} {positions : List Position3D}
    (hstores : List.Forall₂ (Stores msg.pointStep.toNat offsetX offsetY offsetZ) records positions)
    (hdata : msg.data = records.flatten) :
    (pointCount msg ≤ positions.length →
      topicCallback c members msg =
        ⟨members, [.log ⟨c.topicName ++ "/PointCloud2",
          .points3D (positions.take (pointCount msg))⟩], .ok ()⟩) ∧
      (positions.length < pointCount msg →
        (topicCallback c members msg).ended = .error .outOfBounds) := by
  simp only [topicCallback, hstream, toRerunType_stored hoffsets hstores hdata]
  constructor
  · intro hcount
    simp only [if_pos hcount]
  · intro hcount
    simp only [if_neg (Nat.not_le_of_lt hcount)]

/-! ## Packed clouds -/

/-- A point of twelve bytes. -/
def xyzRecord (position : Position3D) : List UInt8 :=
  floatBytes position.x ++ floatBytes position.y ++ floatBytes position.z

theorem stores_xyzRecord (position : Position3D) :
    Stores 12 0 4 8 (xyzRecord position) position where
  length_eq := rfl
  x := ⟨[], floatBytes position.y ++ floatBytes position.z, by simp [xyzRecord], rfl⟩
  y := ⟨floatBytes position.x, floatBytes position.z, rfl, rfl⟩
  z := ⟨floatBytes position.x ++ floatBytes position.y, [], by simp [xyzRecord], rfl⟩

/-- Two points, each with a colour after its position. -/
def colouredCloud : SensorMsgs.PointCloud2 where
  height := 1
  width := 2
  fields := xyzFields
  isBigendian := false
  pointStep := 16
  rowStep := 32
  data := [xyzRecord ⟨0x3F800000, 0, 0⟩ ++ [1, 2, 3, 4],
    xyzRecord ⟨0, 0x3F800000, 0⟩ ++ [5, 6, 7, 8]].flatten

theorem stores_coloured (position : Position3D) {colour : List UInt8} (h : colour.length = 4) :
    Stores 16 0 4 8 (xyzRecord position ++ colour) position := by
  obtain ⟨hlength, hx, hy, hz⟩ := stores_xyzRecord position
  have hsum : (xyzRecord position ++ colour).length = 16 := by
    rw [List.length_append, hlength, h]
  exact ⟨hsum, hx.append colour, hy.append colour, hz.append colour⟩

theorem topicCallback_stored_coloured :
    (topicCallback ⟨0, .pointCloud2, "/points", some ⟨0⟩⟩ Members.initial colouredCloud).calls =
      [.log ⟨"/points/PointCloud2", .points3D [⟨0x3F800000, 0, 0⟩, ⟨0, 0x3F800000, 0⟩]⟩] := by
  have hresult := (@topicCallback_stored ⟨0, .pointCloud2, "/points", some ⟨0⟩⟩ ⟨0⟩ rfl
    Members.initial colouredCloud 0 4 8 ⟨rfl, rfl, rfl⟩ _ _
    (.cons (stores_coloured ⟨0x3F800000, 0, 0⟩ rfl)
      (.cons (stores_coloured ⟨0, 0x3F800000, 0⟩ rfl) .nil)) rfl).1 (by decide)
  rw [hresult]
  rfl

end RerunViz.PointCloud2
