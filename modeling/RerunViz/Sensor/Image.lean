import RerunViz.Converter.Sensor
import RerunViz.Lib.Raster

set_option autoImplicit false

/-!
# The picture that `Image` hands on

The callback passes the bytes of the message on as they are, with the width and the height.
Rerun takes them as packed rows, so the picture is that of the message whenever the rows of
the message are packed, and only then for all contents (`topicCallback_same_picture_iff`).
-/

namespace RerunViz

open Raster

/-- What Rerun reads a picture from. -/
structure Picture where
  buffer : List UInt8
  width : UInt32
  height : UInt32
  bytesPerPixel : Nat
  deriving DecidableEq

def ImageFormat.bytesPerPixel : ImageFormat → Nat
  | .rgb24 => 3
  | .rgba32 => 4
  | .grayscale8 => 1
  | .l16 => 2

/-- The picture of an archetype that is an image. -/
def Archetype.picture : Archetype → Option Picture
  | .image i => some ⟨i.buffer, i.width, i.height, i.format.bytesPerPixel⟩
  | .depthImage i => some ⟨i.memory, i.width, i.height, 2⟩
  | .transform3D _ => none
  | .points3D _ => none
  | .scalars _ => none
  | .pinhole _ => none

namespace Image

/-- The bytes of a pixel, for the encodings that are logged. -/
def bytesPerPixel (encoding : String) : Option Nat :=
  if encoding = "rgb8" then some 3
  else if encoding = "rgba8" then some 4
  else if encoding = "mono8" then some 1
  else if encoding = "16UC1" then some 2
  else none

theorem bytesPerPixel_pos {encoding : String} {size : Nat}
    (h : bytesPerPixel encoding = some size) : 0 < size := by
  unfold bytesPerPixel at h
  split_ifs at h
  all_goals
    obtain rfl := Option.some.inj h
    decide

/-- On every topic the picture has the bytes, the width and the height of the message. -/
theorem exists_archetypeFor (topicName : String) {msg : SensorMsgs.Image} {size : Nat}
    (h : bytesPerPixel msg.encoding = some size) :
    ∃ suffix archetype, archetypeFor topicName msg = some (suffix, archetype) ∧
      archetype.picture = some ⟨msg.data, msg.width, msg.height, size⟩ := by
  unfold bytesPerPixel at h
  unfold archetypeFor
  split_ifs at h ⊢
  all_goals
    obtain rfl := Option.some.inj h
    exact ⟨_, _, rfl, rfl⟩

/-- With a stream the callback logs one archetype, with that picture. -/
theorem exists_logged {c : Converter} {stream : RecordingStream} (hstream : c.stream = some stream)
    (members : Members) (msg : SensorMsgs.Image) {size : Nat}
    (h : bytesPerPixel msg.encoding = some size) :
    ∃ path archetype, (topicCallback c members msg).calls = [.log ⟨path, archetype⟩] ∧
      archetype.picture = some ⟨msg.data, msg.width, msg.height, size⟩ := by
  obtain ⟨suffix, archetype, hfor, hpicture⟩ := exists_archetypeFor c.topicName h
  refine ⟨c.topicName ++ suffix, archetype, ?_, hpicture⟩
  simp only [topicCallback, hstream, hfor]

/-- For every layout of an image in one of the logged encodings, on every topic: whatever the
data, the callback logs one picture of the message's size which agrees with the message byte
for byte, if and only if the rows of the message are packed. -/
theorem topicCallback_same_picture_iff {c : Converter} {stream : RecordingStream}
    (hstream : c.stream = some stream) (members : Members) (msg : SensorMsgs.Image) {size : Nat}
    (hencoding : bytesPerPixel msg.encoding = some size)
    (hstep : msg.width.toNat * size ≤ msg.step.toNat) :
    (∀ data : List UInt8, data.length = msg.step.toNat * msg.height.toNat →
      ∃ path archetype buffer,
        (topicCallback c members { msg with data := data }).calls = [.log ⟨path, archetype⟩] ∧
        archetype.picture = some ⟨buffer, msg.width, msg.height, size⟩ ∧
        SamePicture msg.height.toNat msg.width.toNat msg.step.toNat size buffer data) ↔
      Packed msg.height.toNat msg.width.toNat msg.step.toNat size := by
  rw [← samePicture_self_iff (bytesPerPixel_pos hencoding) hstep]
  constructor
  · intro h data hlength
    obtain ⟨path, archetype, buffer, hcalls, hpicture, hsame⟩ :=
      h data (by rw [hlength, Nat.mul_comm])
    obtain ⟨path', archetype', hcalls', hpicture'⟩ :=
      exists_logged hstream members { msg with data := data } hencoding
    rw [hcalls'] at hcalls
    cases hcalls
    rw [hpicture'] at hpicture
    cases hpicture
    exact hsame
  · intro h data hlength
    obtain ⟨path, archetype, hcalls, hpicture⟩ :=
      exists_logged hstream members { msg with data := data } hencoding
    exact ⟨path, archetype, data, hcalls, hpicture, h data (by rw [hlength, Nat.mul_comm])⟩

/-- A grey image of two rows with three pixels, the rows padded to `step` bytes. -/
def greyImage (step : UInt32) (data : List UInt8) : SensorMsgs.Image where
  height := 2
  width := 3
  encoding := "mono8"
  isBigendian := 0
  step := step
  data := data

theorem topicCallback_same_picture_iff_grey :
    ∃ path archetype buffer,
      (topicCallback ⟨0, .image, "/camera/image", some ⟨0⟩⟩ Members.initial
        (greyImage 3 [1, 2, 3, 4, 5, 6])).calls = [.log ⟨path, archetype⟩] ∧
      archetype.picture = some ⟨buffer, 3, 2, 1⟩ ∧
      SamePicture 2 3 3 1 buffer [1, 2, 3, 4, 5, 6] :=
  (topicCallback_same_picture_iff (c := ⟨0, .image, "/camera/image", some ⟨0⟩⟩) rfl
    Members.initial (greyImage 3 []) (by decide : bytesPerPixel "mono8" = some 1)
    (by decide)).mpr (by decide) [1, 2, 3, 4, 5, 6] (by decide)

/-- Rows padded to four bytes are shown sheared: the second row begins with a byte of
padding. -/
theorem topicCallback_padded :
    (topicCallback ⟨0, .image, "/camera/image", some ⟨0⟩⟩ Members.initial
        (greyImage 4 [1, 2, 3, 0, 4, 5, 6, 0])).calls =
      [.log ⟨"/camera/image/Image", .image ⟨[1, 2, 3, 0, 4, 5, 6, 0], 3, 2, .grayscale8⟩⟩] ∧
      ¬ SamePicture 2 3 4 1 [1, 2, 3, 0, 4, 5, 6, 0] [1, 2, 3, 0, 4, 5, 6, 0] := by
  refine ⟨by decide, fun hsame => ?_⟩
  obtain ⟨byte, hbuffer, hdata⟩ := hsame 1 (by decide) 0 (by decide) 0 (by decide)
  rw [← hdata] at hbuffer
  revert hbuffer
  decide

end Image

end RerunViz
