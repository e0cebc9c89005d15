import RerunViz.Sensor.Image
import RerunViz.Sensor.PointCloud2

set_option autoImplicit false

/-!
# Reads beyond the payload

Neither converter compares the sizes in the header with the length of the data.  The reads
stay inside the data exactly when the last of them does (`reads_inBounds_iff`).
-/

namespace RerunViz

/-- `rerun::DepthImage` reads `width * height` samples of two bytes from its pointer. -/
def DepthImage.Consumes (image : DepthImage) (index : Nat) : Prop :=
  index < 2 * (image.width.toNat * image.height.toNat)

/-- The last point decides about a cloud. -/
theorem PointCloud2.inBounds_iff {msg : SensorMsgs.PointCloud2} {offsetX offsetY offsetZ : Nat}
    (h : Offsets msg offsetX offsetY offsetZ) :
    toRerunType msg ≠ .error .outOfBounds ↔
      pointCount msg = 0 ∨ ∀ offset ∈ [offsetX, offsetY, offsetZ],
        offset + (pointCount msg - 1) * msg.pointStep.toNat + 4 ≤ msg.data.length := by
  rw [Ne, toRerunType_outOfBounds_iff h]
  constructor
  · intro hreads
    by_cases hcount : pointCount msg = 0
    · exact Or.inl hcount
    · refine Or.inr fun offset hoffset => ?_
      by_contra hbeyond
      exact hreads ⟨pointCount msg - 1, by omega, offset, hoffset, by omega⟩
  · rintro hlast ⟨i, hi, offset, hoffset, hbeyond⟩
    rcases hlast with hnone | hlast
    · omega
    · have hstep := Nat.mul_le_mul_right msg.pointStep.toNat
        (by omega : i ≤ pointCount msg - 1)
      have hinside := hlast offset hoffset
      omega

/-- The depth image of a `16UC1` message is read inside the data when its samples fit. -/
theorem Image.inBounds_iff {c : Converter} {stream : RecordingStream}
    (hstream : c.stream = some stream) (members : Members) {msg : SensorMsgs.Image}
    (hencoding : msg.encoding = "16UC1") (htopic : containsSubstring c.topicName "depth" = true) :
    (∀ path image, .log ⟨path, .depthImage image⟩ ∈ (topicCallback c members msg).calls →
        ∀ index, image.Consumes index → index < msg.data.length) ↔
      2 * (msg.width.toNat * msg.height.toNat) ≤ msg.data.length := by
  have hcalls : (topicCallback c members msg).calls = [.log ⟨c.topicName ++ "/DepthImage",
      .depthImage ⟨msg.data, msg.width, msg.height, 0x447A0000, .viridis⟩⟩] := by
    simp [topicCallback, hstream, archetypeFor, hencoding, htopic]
  rw [hcalls]
  constructor
  · intro hreads
    by_contra hshort
    have hbeyond := hreads _ _ (List.mem_singleton_self _) msg.data.length
      (Nat.lt_of_not_le hshort)
    exact absurd hbeyond (Nat.lt_irrefl _)
  · intro hfits path image hmem index hindex
    cases List.mem_singleton.mp hmem
    exact Nat.lt_of_lt_of_le hindex hfits

/-- For every cloud with fields `x`, `y` and `z`, all reads are inside the data if and only
if there are no points or the floats of the last point are inside; and for every `16UC1`
image on a depth topic, if and only if the data holds two bytes for every pixel. -/
theorem reads_inBounds_iff {cloud : SensorMsgs.PointCloud2} {offsetX offsetY offsetZ : Nat}
    (hfields : PointCloud2.Offsets cloud offsetX offsetY offsetZ)
    {c : Converter} {stream : RecordingStream} (hstream : c.stream = some stream)
    (members : Members) {image : SensorMsgs.Image} (hencoding : image.encoding = "16UC1")
    (htopic : containsSubstring c.topicName "depth" = true) :
    (PointCloud2.toRerunType cloud ≠ .error .outOfBounds ↔
        (cloud.height * cloud.width).toNat = 0 ∨ ∀ offset ∈ [offsetX, offsetY, offsetZ],
          offset + ((cloud.height * cloud.width).toNat - 1) * cloud.pointStep.toNat + 4 ≤
            cloud.data.length) ∧
      ((∀ path depth,
          .log ⟨path, .depthImage depth⟩ ∈ (Image.topicCallback c members image).calls →
          ∀ index, depth.Consumes index → index < image.data.length) ↔
        2 * (image.width.toNat * image.height.toNat) ≤ image.data.length) :=
  ⟨PointCloud2.inBounds_iff hfields, Image.inBounds_iff hstream members hencoding htopic⟩

/-- A cloud of two points in 24 bytes, and a depth image of one pixel in two. -/
theorem reads_inBounds_iff_exact :
    PointCloud2.toRerunType (PointCloud2.xyzCloud 1 2 24 PointCloud2.twoPoints) ≠
        .error .outOfBounds ∧
      ∀ path depth, .log ⟨path, .depthImage depth⟩ ∈
          (Image.topicCallback ⟨0, .image, "/depth/image", some ⟨0⟩⟩ Members.initial
            ⟨1, 1, "16UC1", 0, 2, [0, 4]⟩).calls →
        ∀ index, depth.Consumes index → index < 2 := by
  have hfields : PointCloud2.Offsets (PointCloud2.xyzCloud 1 2 24 PointCloud2.twoPoints) 0 4 8 :=
    ⟨by rfl, by rfl, by rfl⟩
  have hreads := @reads_inBounds_iff _ 0 4 8 hfields
    ⟨0, .image, "/depth/image", some ⟨0⟩⟩ ⟨0⟩ rfl Members.initial ⟨1, 1, "16UC1", 0, 2, [0, 4]⟩
    rfl (by decide)
  exact ⟨hreads.1.mpr (by decide), hreads.2.mpr (by decide)⟩

/-- A cloud of one point and a depth image of one pixel, both without data. -/
theorem reads_outOfBounds :
    PointCloud2.Offsets (PointCloud2.xyzCloud 1 1 12 []) 0 4 8 ∧
      PointCloud2.toRerunType (PointCloud2.xyzCloud 1 1 12 []) = .error .outOfBounds ∧
      (Image.topicCallback ⟨0, .image, "/depth/image", some ⟨0⟩⟩ Members.initial
          ⟨1, 1, "16UC1", 0, 2, []⟩).calls =
        [.log ⟨"/depth/image/DepthImage", .depthImage ⟨[], 1, 1, 0x447A0000, .viridis⟩⟩] ∧
      (⟨[], 1, 1, 0x447A0000, .viridis⟩ : DepthImage).Consumes 0 := by
  refine ⟨⟨by rfl, by rfl, by rfl⟩, by rfl, by decide, ?_⟩
  rw [DepthImage.Consumes]
  decide

end RerunViz
