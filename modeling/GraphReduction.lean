import GraphReduction.Main
import GraphReduction.Proofs.ByName.Outcome
import GraphReduction.Proofs.Cache.Isolation
import GraphReduction.Proofs.Cache.Retry
import GraphReduction.Proofs.Compile.Copying
import GraphReduction.Proofs.Compile.Reuse
import GraphReduction.Proofs.Core.Lifted
import GraphReduction.Proofs.Heap.Representation
import GraphReduction.Proofs.Load.Aliases
import GraphReduction.Proofs.Machine.Forcing
import GraphReduction.Proofs.Machine.Limits
import GraphReduction.Proofs.Machine.Meaning
import GraphReduction.Proofs.Machine.Normalization
import GraphReduction.Proofs.Syntax.Lookahead
import GraphReduction.Proofs.Syntax.RoundTrip
import GraphReduction.Proofs.World.Characters
import GraphReduction.Proofs.World.Memory
