import Fabric.Lib.Machine
import Fabric.Lib.Signed
import Fabric.Lib.Text
import Fabric.Isa
import Fabric.Tools
import Fabric.Processor
import Fabric.Control
import Fabric.Decode
import Fabric.Lib.Power
import Fabric.Lib.Sentinel
import Fabric.Lib.AdditionChain
import Fabric.Lib.ChordTangent
import Fabric.FieldOps
import Fabric.Inverse
import Fabric.Addition
import Fabric.Isolation
import Fabric.Subroutine
import Fabric.Halting
import Fabric.Overflow
import Fabric.FieldProgram
import Fabric.FieldEquality
import Fabric.EcZero
import Fabric.Labels
import Fabric.Reference
import Fabric.Compose
import Fabric.Group
import Fabric.Lib.Bitwise
import Fabric.Lib.Reorder
import Fabric.Progress
import Fabric.Ideal
import Fabric.Footprint
import Fabric.Schedule
import Fabric.Renaming
import Fabric.Calls
import Fabric.Linking
import Fabric.Assembly
import Fabric.Cost
import Fabric.FieldMachine
import Fabric.Session
import Fabric.GroupLaws
import Fabric.Rerun
import Fabric.Outcome
