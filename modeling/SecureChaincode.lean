import SecureChaincode.Exec
import SecureChaincode.Delimited
import SecureChaincode.Parson
import SecureChaincode.SgxKeys
import SecureChaincode.EccVscc
import SecureChaincode.ReportTexts
import SecureChaincode.EccResponse
import SecureChaincode.ErccVscc
import SecureChaincode.ParseBlock
import SecureChaincode.FoldExcept
import SecureChaincode.TxPlan
import SecureChaincode.TxRefinement
import SecureChaincode.EccSets
import SecureChaincode.Wrapping
import SecureChaincode.TxAtomicity
import SecureChaincode.BlockPlan
import SecureChaincode.BlockOrder
import SecureChaincode.TxFilter
import SecureChaincode.Chain
import SecureChaincode.Validation
import SecureChaincode.LedgerQueries
import SecureChaincode.Mvcc
import SecureChaincode.PointReads
import SecureChaincode.RangeReads
import SecureChaincode.IdealCrypto
import SecureChaincode.StateReads
import SecureChaincode.EnclaveSignature
import SecureChaincode.CertStores
import SecureChaincode.Concurrency
import SecureChaincode.JsonTexts
import SecureChaincode.Interaction
import SecureChaincode.Shim
import SecureChaincode.ShimRuns
import SecureChaincode.Auction
import SecureChaincode.FailClosed
import SecureChaincode.PeerStub
import SecureChaincode.RangeTags
import SecureChaincode.HonestReads
import SecureChaincode.HonestRanges
import SecureChaincode.AuctionRuns
import SecureChaincode.LedgerView
import SecureChaincode.ThreeWay
import SecureChaincode.CallbackRegistry
import SecureChaincode.InvocationContexts
import SecureChaincode.LedgerCalls
import SecureChaincode.BlockDelivery
import SecureChaincode.VersionProvenance
import SecureChaincode.PluginPanics
import SecureChaincode.ParserBounds
import SecureChaincode.Operations
import SecureChaincode.Isolation
import SecureChaincode.AbstractAuction
import SecureChaincode.AuctionRecords
import SecureChaincode.BidTally
import SecureChaincode.RecordStore
import SecureChaincode.Utf8
import SecureChaincode.CompositeKeys
import SecureChaincode.RangeTrip
import SecureChaincode.Evaluation
import SecureChaincode.Registry
import SecureChaincode.BigEndian
import SecureChaincode.EnclaveKeys
import SecureChaincode.EnclaveStub
import SecureChaincode.ThreadSlots
import SecureChaincode.Setup
import SecureChaincode.SetupRuns
import SecureChaincode.AttestedKeys
import SecureChaincode.Pratt
import SecureChaincode.ShortCurve
import SecureChaincode.P256
import SecureChaincode.SharedKeys
import SecureChaincode.Endorsements
import SecureChaincode.LifeCycle
import SecureChaincode.ConcurrentRuns
import SecureChaincode.Der
import SecureChaincode.SignatureFormats
import SecureChaincode.ResponseBuffers
import SecureChaincode.EncryptedArgs
import SecureChaincode.SealedLengths
import SecureChaincode.ClientArguments
import SecureChaincode.Executor
import SecureChaincode.ExecutorRuns
import SecureChaincode.ExecutorProgress
import SecureChaincode.LedgerAuctions
import SecureChaincode.WorldMirror
import SecureChaincode.PointwiseMaps
import SecureChaincode.SealedTraces
import SecureChaincode.BidSecrecy
import SecureChaincode.TrustChain
import SecureChaincode.JsonRoundTrip
import SecureChaincode.JsonBounds
import SecureChaincode.JsonSerializer
import SecureChaincode.JsonTokens
import SecureChaincode.RangeNames
