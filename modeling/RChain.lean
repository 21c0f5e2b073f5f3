import RChain.Dag.Monotone
import RChain.Dag.Ancestors
import RChain.Dag.Termination
import RChain.Dag.FringeShape
import RChain.RSpace.StoredRows
import RChain.RSpace.ExportImport
import RChain.RSpace.RadixHistory
import RChain.RSpace.TwoStepLock
import RChain.RSpace.Joins
import RChain.RSpace.ReplayDeterminism
import RChain.RSpace.Selection
import RChain.RSpace.NativeStore
import RChain.RSpace.Conservation
import RChain.RSpace.Transparency
import RChain.Sdk.Optimality
import RChain.Sdk.Partition
import RChain.Rholang.Bundles
import RChain.Rholang.HexMethods
import RChain.Crypto.Blake2b512Random
import RChain.Models.SortedTerm
import RChain.Casper.Sync
import RChain.Casper.ReplayAuthentic
import RChain.Casper.NoMint
import RChain.Casper.Authorised
import RChain.Casper.Attestation
import RChain.Casper.InsertRuns
import RChain.Casper.NumberChannels
import RChain.Rholang.MergeableCodec
import RChain.Rholang.RevAddress
import RChain.Rholang.ParSpatialMatcherUtils
import RChain.Qucalc.Pauli
