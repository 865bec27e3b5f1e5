import Lathe.Scalar.Binary64
import Lathe.Text.Blank
import Lathe.Text.Capital
import Lathe.Text.Lines
import Lathe.Decimal.Notation
import Lathe.Program.Basic
import Lathe.Program.Message
import Lathe.Trace.Basic
import Lathe.Motion.Finishing
import Lathe.Motion.Subdivision
import Lathe.Playback.Player
import Lathe.Playback.Host
import Lathe.Document.Json.Reader
import Lathe.Document.Json.Printer
import Lathe.Document.Decode
import Lathe.Settings.Document
import Lathe.Trace.Document
import Lathe.Motion.Message
import Lathe.Playback.Message
import Lathe.Engine.Run
import Lathe.Document.Toml.Printer
import Lathe.Document.Toml.Reader
import Lathe.Main
import Lathe.Proofs.Playback.Operation
import Lathe.Proofs.Playback.Halts
import Lathe.Proofs.Playback.Invariant
import Lathe.Proofs.Playback.Stops
import Lathe.Proofs.Playback.LastBlock
import Lathe.Proofs.Playback.Schedule
import Lathe.Proofs.Motion.Polyline
import Lathe.Proofs.Motion.Gouging
import Lathe.Proofs.Playback.Delivery
import Lathe.Proofs.Program.Reading
import Lathe.Proofs.Motion.Stamps
import Lathe.Proofs.Motion.Emission
import Lathe.Proofs.Motion.Visits
import Lathe.Proofs.Motion.Order
import Lathe.Proofs.Motion.Modes
import Lathe.Proofs.Motion.AuxCodes
import Lathe.Proofs.Motion.Renumbering
import Lathe.Proofs.Motion.Padding
import Lathe.Proofs.Motion.Remarks
import Lathe.Proofs.Motion.ContourWalk
import Lathe.Proofs.Program.Texts
import Lathe.Proofs.Engine.Request
import Lathe.Proofs.Engine.Coherence
import Lathe.Proofs.Engine.Failure
import Lathe.Proofs.Playback.Rewind
import Lathe.Proofs.Playback.Rounds
import Lathe.Proofs.Engine.Completion
import Lathe.Proofs.Playback.SingleBlock
import Lathe.Proofs.Settings.File
import Lathe.Proofs.Motion.Continuity
import Lathe.Proofs.Motion.LookBack
import Lathe.Proofs.Motion.Announcements
import Lathe.Proofs.Motion.Skipping
import Lathe.Proofs.Motion.Spacing
import Lathe.Proofs.Motion.Measures
import Lathe.Proofs.Playback.Budget
import Lathe.Proofs.Motion.PassPlan
import Lathe.Proofs.Motion.FinishingBlocks
import Lathe.Proofs.Motion.ArcSteps
import Lathe.Proofs.Motion.StopPlaces
import Lathe.Proofs.Program.Grammar
import Lathe.Proofs.Motion.BlockCounter
