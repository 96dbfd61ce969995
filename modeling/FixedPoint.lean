import FixedPoint.Error
import FixedPoint.Event
import FixedPoint.Fixed.Basic
import FixedPoint.Fixed.Dot
import FixedPoint.Fixed.Lemmas
import FixedPoint.Fixed.Mul
import FixedPoint.Fixed.Narrow
import FixedPoint.Fixed.Order
import FixedPoint.Mac.Basic
import FixedPoint.Mac.Lemmas
import FixedPoint.Mac.Sum
import FixedPoint.Mac.Variants
import FixedPoint.Machine.Run
import FixedPoint.Machine.Step
import FixedPoint.Numeral
import FixedPoint.Profile
import FixedPoint.Serial.Binary
import FixedPoint.Serial.Json
import FixedPoint.Span
import FixedPoint.Table
import FixedPoint.Width
import FixedPoint.Word.Codec
import FixedPoint.Word.Shift
import FixedPoint.Proofs.Residue
import FixedPoint.Proofs.Steps
import FixedPoint.Proofs.Mac.Calls
import FixedPoint.Proofs.Mac.Commuting
import FixedPoint.Proofs.Mac.Precision
import FixedPoint.Proofs.Dot.Exact
import FixedPoint.Proofs.Dot.Units
import FixedPoint.Proofs.Dot.Blocks
import FixedPoint.Proofs.Dot.Superposition
import FixedPoint.Proofs.Dot.Protocol
import FixedPoint.Proofs.Dot.Permutation
import FixedPoint.Proofs.Table.RoundTrip
import FixedPoint.Proofs.Machine.Footprint
import FixedPoint.Proofs.Machine.Failures
import FixedPoint.Proofs.Machine.Persistence
import FixedPoint.Proofs.Dot.Whole
import FixedPoint.Proofs.Dot.Formats
import FixedPoint.Proofs.Dot.Verdict
import FixedPoint.Proofs.Table.Pieces
import FixedPoint.Proofs.Serial.Layout
import FixedPoint.Proofs.Dot.Range
import FixedPoint.Proofs.Dot.Affine
import FixedPoint.Proofs.Dot.Doubling
import FixedPoint.Proofs.Dot.Mean
import FixedPoint.Proofs.Dot.Negation
import FixedPoint.Proofs.Dot.Monotone
import FixedPoint.Proofs.Combination
import FixedPoint.Proofs.Mul.Range
import FixedPoint.Proofs.Mul.Decay
import FixedPoint.Proofs.Mul.Associativity
import FixedPoint.Proofs.Parts
import FixedPoint.Proofs.Mul.Parts
import FixedPoint.Proofs.Table.Positions
import FixedPoint.Proofs.Numeral
import FixedPoint.Proofs.Error
import FixedPoint.Proofs.Serial.Document
import FixedPoint.Proofs.Floor
import FixedPoint.Proofs.Narrow
import FixedPoint.Proofs.Table.Packed
