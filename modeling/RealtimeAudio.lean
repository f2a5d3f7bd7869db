import RealtimeAudio.Arithmetic
import RealtimeAudio.Arithmetic.Single
import RealtimeAudio.Binary.Format
import RealtimeAudio.Bytes
import RealtimeAudio.Compressor
import RealtimeAudio.Compressor.Crest
import RealtimeAudio.Compressor.Delay
import RealtimeAudio.Compressor.Gain
import RealtimeAudio.Compressor.Parameters
import RealtimeAudio.Compressor.Record
import RealtimeAudio.Decibel
import RealtimeAudio.Decimal.Layout
import RealtimeAudio.Decimal.Shortest
import RealtimeAudio.Engine
import RealtimeAudio.Fault
import RealtimeAudio.Files.Path
import RealtimeAudio.Files.Search
import RealtimeAudio.Files.Tree
import RealtimeAudio.Json.Codec
import RealtimeAudio.Json.Number
import RealtimeAudio.Json.Reader
import RealtimeAudio.Json.Record
import RealtimeAudio.Json.Text
import RealtimeAudio.Json.Value
import RealtimeAudio.Meter
import RealtimeAudio.PeakHold
import RealtimeAudio.Preset
import RealtimeAudio.Priority
import RealtimeAudio.Proofs.Arithmetic.Exact
import RealtimeAudio.Proofs.Arithmetic.Order
import RealtimeAudio.Proofs.Binary.Division
import RealtimeAudio.Proofs.Binary.Interval
import RealtimeAudio.Proofs.Binary.Mixing
import RealtimeAudio.Proofs.Binary.Order
import RealtimeAudio.Proofs.Binary.Packing
import RealtimeAudio.Proofs.Binary.Pattern
import RealtimeAudio.Proofs.Binary.Product
import RealtimeAudio.Proofs.Binary.Rounding
import RealtimeAudio.Proofs.Binary.Sign
import RealtimeAudio.Proofs.Binary.Significand
import RealtimeAudio.Proofs.Binary.Sum
import RealtimeAudio.Proofs.Binary.Value
import RealtimeAudio.Proofs.Compressor.Alignment
import RealtimeAudio.Proofs.Compressor.Attenuation
import RealtimeAudio.Proofs.Compressor.Automation
import RealtimeAudio.Proofs.Compressor.Block
import RealtimeAudio.Proofs.Compressor.Bounded
import RealtimeAudio.Proofs.Compressor.Calls
import RealtimeAudio.Proofs.Compressor.Ceiling
import RealtimeAudio.Proofs.Compressor.Construction
import RealtimeAudio.Proofs.Compressor.Curve
import RealtimeAudio.Proofs.Compressor.Delay
import RealtimeAudio.Proofs.Compressor.Flow
import RealtimeAudio.Proofs.Compressor.Gains
import RealtimeAudio.Proofs.Compressor.Infinity
import RealtimeAudio.Proofs.Compressor.Link
import RealtimeAudio.Proofs.Compressor.MakeUp
import RealtimeAudio.Proofs.Compressor.Monotone
import RealtimeAudio.Proofs.Compressor.Partition
import RealtimeAudio.Proofs.Compressor.Quiet
import RealtimeAudio.Proofs.Compressor.Silence
import RealtimeAudio.Proofs.Compressor.Stream
import RealtimeAudio.Proofs.Decimal.Shortest
import RealtimeAudio.Proofs.Double.Arithmetic
import RealtimeAudio.Proofs.Files.Names
import RealtimeAudio.Proofs.Files.Search
import RealtimeAudio.Proofs.Json.Digits
import RealtimeAudio.Proofs.Json.Extension
import RealtimeAudio.Proofs.Json.Grammar
import RealtimeAudio.Proofs.Json.Members
import RealtimeAudio.Proofs.Json.Midpoint
import RealtimeAudio.Proofs.Json.Numeral
import RealtimeAudio.Proofs.Json.Objects
import RealtimeAudio.Proofs.Json.Passing
import RealtimeAudio.Proofs.Json.Range
import RealtimeAudio.Proofs.Json.Reading
import RealtimeAudio.Proofs.Json.RoundTrip
import RealtimeAudio.Proofs.Json.Rules
import RealtimeAudio.Proofs.Json.Scaling
import RealtimeAudio.Proofs.Json.Strings
import RealtimeAudio.Proofs.Json.Values
import RealtimeAudio.Proofs.Json.Written
import RealtimeAudio.Proofs.PeakHold.Arrangement
import RealtimeAudio.Proofs.PeakHold.Calls
import RealtimeAudio.Proofs.PeakHold.Entries
import RealtimeAudio.Proofs.PeakHold.Maximum
import RealtimeAudio.Proofs.PeakHold.Places
import RealtimeAudio.Proofs.PeakHold.Recovery
import RealtimeAudio.Proofs.PeakHold.Store
import RealtimeAudio.Proofs.PeakHold.Window
import RealtimeAudio.Proofs.Preset.Given
import RealtimeAudio.Proofs.Preset.RoundTrip
import RealtimeAudio.Proofs.Priority.Fallback
import RealtimeAudio.Proofs.Ring.Creation
import RealtimeAudio.Proofs.Ring.InPlace
import RealtimeAudio.Proofs.Ring.Layout
import RealtimeAudio.Proofs.Ring.Queue
import RealtimeAudio.Proofs.Ring.Records
import RealtimeAudio.Proofs.Ring.Regions
import RealtimeAudio.Proofs.Ring.Run
import RealtimeAudio.Proofs.Single.Arithmetic
import RealtimeAudio.Proofs.Single.Division
import RealtimeAudio.Proofs.Single.Elementary
import RealtimeAudio.Proofs.Single.Magnitude
import RealtimeAudio.Proofs.Single.Mixing
import RealtimeAudio.Proofs.Single.Narrowing
import RealtimeAudio.Proofs.Single.Order
import RealtimeAudio.Proofs.Single.Overflow
import RealtimeAudio.Proofs.Single.Whole
import RealtimeAudio.Proofs.Single.Zero
import RealtimeAudio.Proofs.Transport.Delivery
import RealtimeAudio.Proofs.Transport.Frames
import RealtimeAudio.Proofs.Transport.Transparency
import RealtimeAudio.Ring.Basic
import RealtimeAudio.Ring.Transfer
import RealtimeAudio.Segment
import RealtimeAudio.Text.Record
import RealtimeAudio.Transport
