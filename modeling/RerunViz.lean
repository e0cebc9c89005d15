import RerunViz.Node.Recorded
import RerunViz.TFGraph.Poses
import RerunViz.Sensor.RoundTrip
import RerunViz.RobotDescription.Entities
import RerunViz.NodeRunner.Faults
import RerunViz.Node.Entities
import RerunViz.TFMessage.Restore
import RerunViz.TFGraph.SameView
import RerunViz.TFMessage.Scene
import RerunViz.TFMessage.Deliveries
import RerunViz.NodeRunner.Convergence
import RerunViz.NodeRunner.Shutdown
import RerunViz.NodeRunner.Refinement
import RerunViz.NodeRunner.Basic
import RerunViz.Node.Polling
import RerunViz.Node.Robot
import RerunViz.Node.Replay
import RerunViz.Node.Duplicates
import RerunViz.Node.NullStream
import RerunViz.Node.Camera
import RerunViz.Node.Identity
import RerunViz.Node.Subscriptions
import RerunViz.Node.Basic
import RerunViz.Converter.Factory
import RerunViz.Utils.Namespace
import RerunViz.SensorMsg
import RerunViz.Sensor.Bounds
import RerunViz.RobotDescription.Delivery
import RerunViz.RobotDescription.Loops
import RerunViz.RobotDescription.Rejected
import RerunViz.TFMessage.Redelivery
import RerunViz.TFMessage.Order
import RerunViz.TFGraph.EntityPath
import RerunViz.TFGraph.Frames
import RerunViz.TFGraph.HasPath
import RerunViz.TFGraph.Log
import RerunViz.TFGraph.Path
import RerunViz.TFGraph.ShortestPath
import RerunViz.TFGraph.EdgeData
import RerunViz.TFGraph.Removal
import RerunViz.TFGraph.Tree
