import TimeSignal.Decimal.Style
import TimeSignal.Random.SplitMix
import TimeSignal.Fault
import TimeSignal.Signal.Fold
import TimeSignal.Signal.Eval
import TimeSignal.Signal.Substitute
import TimeSignal.Signal.Lower
import TimeSignal.Signal.Shader
import TimeSignal.Formula.Parse
import TimeSignal.Sampler.Compile
import TimeSignal.Sampler.Pool
import TimeSignal.Sampler.Batch
import TimeSignal.Json.Tree
import TimeSignal.Main
import TimeSignal.Proofs.Binary32.Value
import TimeSignal.Proofs.Binary32.Rounding
import TimeSignal.Proofs.Binary32.Agreement
import TimeSignal.Proofs.Binary32.Sign
import TimeSignal.Proofs.Signal.Constants
import TimeSignal.Proofs.Signal.Draws
import TimeSignal.Proofs.Signal.Value
import TimeSignal.Proofs.Signal.Lower
import TimeSignal.Proofs.Signal.Substitute
import TimeSignal.Proofs.Formula.Grammar
import TimeSignal.Proofs.Formula.Lexer
import TimeSignal.Proofs.Formula.Parser
import TimeSignal.Proofs.Formula.Places
import TimeSignal.Proofs.Formula.Refusal
import TimeSignal.Proofs.Formula.Accepted
import TimeSignal.Proofs.Formula.Evaluation
import TimeSignal.Proofs.Formula.Shader
import TimeSignal.Proofs.Decimal.Shortest
import TimeSignal.Proofs.Decimal.Layout
import TimeSignal.Proofs.Decimal.Argument
import TimeSignal.Proofs.Decimal.Scan
import TimeSignal.Proofs.Poly.Value
import TimeSignal.Proofs.Poly.Optimize
import TimeSignal.Proofs.Poly.Signal
import TimeSignal.Proofs.Poly.Agreement
import TimeSignal.Proofs.Poly.Expansion
import TimeSignal.Proofs.Poly.NormalForm
import TimeSignal.Proofs.Poly.Degree
import TimeSignal.Proofs.Poly.Simplify
import TimeSignal.Proofs.Sampler.Compile
import TimeSignal.Proofs.Sampler.Poly
import TimeSignal.Proofs.Sampler.Lanes
import TimeSignal.Proofs.Sampler.Chunks
import TimeSignal.Proofs.Sampler.Batch
import TimeSignal.Proofs.Sampler.Schedule
import TimeSignal.Proofs.Binary32.Spacing
import TimeSignal.Proofs.Decimal.Grid
import TimeSignal.Proofs.Decimal.Midpoint
import TimeSignal.Proofs.Json.Narrow
import TimeSignal.Proofs.Json.Number
import TimeSignal.Proofs.Json.Lexer
import TimeSignal.Proofs.Json.Parser
import TimeSignal.Proofs.Json.Nesting
import TimeSignal.Proofs.Json.Tree
import TimeSignal.Proofs.Sampler.Layout
import TimeSignal.Proofs.Sampler.Retime
import TimeSignal.Proofs.Poly.Algebra
import TimeSignal.Proofs.Random.Fraction
import TimeSignal.Proofs.Random.Mix
import TimeSignal.Proofs.Random.Period
import TimeSignal.Proofs.Sampler.Streams
import TimeSignal.Proofs.Sampler.Horner
import TimeSignal.Proofs.Signal.Visits
import TimeSignal.Proofs.Poly.Conversion
import TimeSignal.Proofs.Binary32.Order
import TimeSignal.Proofs.Sampler.EvenTimes
import TimeSignal.Proofs.Sampler.TimeRange
import TimeSignal.Proofs.Poly.Calls
import TimeSignal.Proofs.Binary32.Distance
import TimeSignal.Proofs.Poly.Tolerance
import TimeSignal.Proofs.Signal.Compose
import TimeSignal.Proofs.Formula.Markers
import TimeSignal.Proofs.Sampler.Blend
import TimeSignal.Proofs.Sampler.Exact
import TimeSignal.Proofs.Sampler.Midpoint
import TimeSignal.Proofs.Json.Readable
import TimeSignal.Proofs.Formula.Tiling
