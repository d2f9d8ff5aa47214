import Artwork.Scalar
import Artwork.Scalar.Exact
import Artwork.Scalar.Binary
import Artwork.Decimal.Numeral
import Artwork.Decimal.Shortest
import Artwork.Decimal.Notation
import Artwork.Json.Value
import Artwork.Json.Token
import Artwork.Json.Outline
import Artwork.Json.Reader
import Artwork.Json.Writer
import Artwork.Geometry.Matrix
import Artwork.Geometry.Segment
import Artwork.Geometry.Box
import Artwork.Color
import Artwork.Operator
import Artwork.Operand
import Artwork.Text.Run
import Artwork.GraphicsState
import Artwork.Path
import Artwork.Machine
import Artwork.Shape
import Artwork.Forest
import Artwork.Grouping
import Artwork.Text.Blank
import Artwork.Text.Genuine
import Artwork.Text.Label
import Artwork.Failure
import Artwork.Page
import Artwork.Import
import Artwork.Buckets
import Artwork.Wire.Canvas
import Artwork.Wire.Document
import Artwork.Wire.Drawing
import Artwork.Recorder
import Artwork.Command.Arguments
import Artwork.Command.Shelf
import Artwork.Command.Run
import Artwork.Main
import Artwork.Proofs.Buckets
import Artwork.Proofs.Forest.Roots
import Artwork.Proofs.Forest.Table
import Artwork.Proofs.Grouping.Components
import Artwork.Proofs.Command.Delivery
import Artwork.Proofs.Machine.Blocks
import Artwork.Proofs.Machine.Batch
import Artwork.Proofs.Machine.Nesting
import Artwork.Proofs.Machine.Matrices
import Artwork.Proofs.Double.Rounding
import Artwork.Proofs.Double.Canonical
import Artwork.Proofs.Double.Arithmetic
import Artwork.Proofs.Double.Packing
import Artwork.Proofs.Double.Line
import Artwork.Proofs.Grouping.MinSide
import Artwork.Proofs.Double.Scientific
import Artwork.Proofs.Decimal.Shortest
import Artwork.Proofs.Double.Nearest
import Artwork.Proofs.Double.Notation
import Artwork.Proofs.Double.Range
import Artwork.Proofs.Machine.Cancellation
import Artwork.Proofs.Json.Spelling
import Artwork.Proofs.Wire.Records
import Artwork.Proofs.Wire.Kept
import Artwork.Proofs.Wire.RoundTrip
import Artwork.Proofs.Import.Endings
import Artwork.Proofs.Import.Range
import Artwork.Proofs.Wire.Doubles
import Artwork.Proofs.Double.Extremes
import Artwork.Proofs.Geometry.Reach
import Artwork.Proofs.Geometry.Hull
import Artwork.Proofs.Grouping.Members
import Artwork.Proofs.Import.Boxes
import Artwork.Proofs.Grouping.Order
import Artwork.Proofs.Geometry.Translation
import Artwork.Proofs.Machine.Translation
import Artwork.Proofs.Import.Translation
import Artwork.Proofs.Double.Halves
import Artwork.Proofs.Double.Hundredths
import Artwork.Proofs.Grouping.Colors
import Artwork.Proofs.Text.Placeholders
import Artwork.Proofs.Text.Share
import Artwork.Proofs.Grouping.Growth
import Artwork.Proofs.Machine.Tidying
import Artwork.Proofs.Import.Tidying
import Artwork.Proofs.Machine.Points
import Artwork.Proofs.Machine.Exchange
import Artwork.Proofs.Import.Looks
import Artwork.Proofs.Import.Colors
import Artwork.Proofs.Wire.Operands
