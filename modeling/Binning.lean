import Binning.Axis.Basic
import Binning.Axis.Error
import Binning.Axis.Json
import Binning.Axis.Unit
import Binning.Capacity
import Binning.CommandLine.Arguments
import Binning.CommandLine.Report
import Binning.Config.Basic
import Binning.Config.Json
import Binning.Coordinate
import Binning.CutSet
import Binning.DescribeOptions
import Binning.Double.Basic
import Binning.Double.Layout
import Binning.Double.Reading
import Binning.Double.Shortest
import Binning.Error
import Binning.Event
import Binning.Grouping
import Binning.Json.Basic
import Binning.Json.Decode
import Binning.Json.Printer
import Binning.Json.ReadError
import Binning.Json.Reader
import Binning.Node.Append
import Binning.Node.Basic
import Binning.Node.Contiguity
import Binning.Node.Describe
import Binning.Node.Flatten
import Binning.Node.InPlace
import Binning.Numeral
import Binning.Proofs.Attempts
import Binning.Proofs.Exact
import Binning.Proofs.Outcome
import Binning.Proofs.Range
import Binning.Run
import Binning.Text.Blank
import Binning.Text.Quoted
import Binning.Text.Unprinted
import Binning.Main
import Binning.Proofs.Placement
import Binning.Proofs.Contiguity
import Binning.Proofs.Building
import Binning.Proofs.Gap
import Binning.Proofs.Lookup
import Binning.Proofs.Growth
import Binning.Proofs.Containment
import Binning.Proofs.Opaque
import Binning.Proofs.Acceptance
import Binning.Proofs.Printing
import Binning.Proofs.Usable
import Binning.Proofs.Moderate
import Binning.Proofs.Envelope
import Binning.Proofs.Rollback
import Binning.Proofs.Numerals
import Binning.Proofs.JsonText
import Binning.Proofs.Finite
import Binning.Proofs.Codec
import Binning.Proofs.RoundTrip
import Binning.Proofs.AxisRuns
import Binning.Proofs.Extent
import Binning.Proofs.Sequence
import Binning.Proofs.Independence
import Binning.Proofs.JsonScalars
import Binning.Proofs.Verdicts
import Binning.Proofs.Reporting
import Binning.Proofs.Flattening
import Binning.Proofs.Commands
import Binning.Proofs.HalfOpen
import Binning.Proofs.OpenEnded
import Binning.Proofs.Intervals
import Binning.Proofs.Room
import Binning.Proofs.Indentation
import Binning.Proofs.Warnings
import Binning.Proofs.Aborting
import Binning.Proofs.Frame
import Binning.Proofs.Flags
import Binning.Proofs.Partition
