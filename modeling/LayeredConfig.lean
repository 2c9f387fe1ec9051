import LayeredConfig.Difference
import LayeredConfig.Formats
import LayeredConfig.Main
import LayeredConfig.Session.Output
import LayeredConfig.Tool.Program
import LayeredConfig.Proofs.Encoding
import LayeredConfig.Proofs.Invariants
import LayeredConfig.Proofs.MergeLaws
import LayeredConfig.Proofs.Sessions
import LayeredConfig.Proofs.Settled
import LayeredConfig.Proofs.Levels
import LayeredConfig.Proofs.Plain
import LayeredConfig.Proofs.Aliases
import LayeredConfig.Proofs.Inlining
import LayeredConfig.Proofs.Appending
import LayeredConfig.Proofs.Provenance
import LayeredConfig.Proofs.Replay
import LayeredConfig.Proofs.Cycles
import LayeredConfig.Proofs.Difference
import LayeredConfig.Proofs.Overlays
import LayeredConfig.Proofs.Intersections
import LayeredConfig.Proofs.Locality
import LayeredConfig.Proofs.Encoders
import LayeredConfig.Proofs.Required
import LayeredConfig.Proofs.Republished
import LayeredConfig.Proofs.JsonScalars
import LayeredConfig.Proofs.JsonStreams
import LayeredConfig.Proofs.Decoders
import LayeredConfig.Proofs.Idempotence
import LayeredConfig.Proofs.AtomicWrites
import LayeredConfig.Proofs.Effect
import LayeredConfig.Proofs.Conflicts
import LayeredConfig.Proofs.Removals
import LayeredConfig.Proofs.Streams
import LayeredConfig.Proofs.Patches
import LayeredConfig.Proofs.Selection
import LayeredConfig.Proofs.ReferenceChains
import LayeredConfig.Proofs.Offences
import LayeredConfig.Proofs.RequiredMarks
import LayeredConfig.Proofs.Outcomes
import LayeredConfig.Proofs.CommonShape
import LayeredConfig.Proofs.Entities
import LayeredConfig.Proofs.SelfIntersection
import LayeredConfig.Proofs.Patterns
import LayeredConfig.Proofs.Numbers
import LayeredConfig.Proofs.IntegralFloats
import LayeredConfig.Proofs.ImpliedParents
import LayeredConfig.Proofs.LinkNames
import LayeredConfig.Proofs.Rewriting
