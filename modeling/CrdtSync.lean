import CrdtSync.Lib.Grounding
import CrdtSync.Lib.OrderedMap
import CrdtSync.Lib.ForestWalk
import CrdtSync.Lib.Ancestry
import CrdtSync.Core.Ids
import CrdtSync.Core.Acl
import CrdtSync.Core.Stamp
import CrdtSync.Core.FugueList
import CrdtSync.Core.FugueRuns
import CrdtSync.Core.PlainList
import CrdtSync.Core.FugueCells
import CrdtSync.Core.FugueMerge
import CrdtSync.Core.FugueOrder
import CrdtSync.Core.FugueWalk
import CrdtSync.Core.FugueRefinement
import CrdtSync.Core.FugueCanonical
import CrdtSync.Lib.Cursor
import CrdtSync.Core.Op
import CrdtSync.Core.Codec
import CrdtSync.Core.CodecRoundTrip
import CrdtSync.Core.CanonicalOps
import CrdtSync.Core.ListCodec
import CrdtSync.Core.ListRoundTrip
import CrdtSync.Core.FugueJoin
import CrdtSync.Core.Wire
import CrdtSync.Core.WireCodec
import CrdtSync.Core.Document
import CrdtSync.Core.DocumentFrame
import CrdtSync.Core.Client
import CrdtSync.Core.Minting
import CrdtSync.Core.ClientRuns
import CrdtSync.Core.Element
import CrdtSync.Core.TreeMoves
import CrdtSync.Core.MoveReplay
import CrdtSync.Core.Content
import CrdtSync.Core.ParentLinks
import CrdtSync.Core.ParentGrowth
import CrdtSync.Core.ParentForest
import CrdtSync.Core.ParentSteps
import CrdtSync.Core.ParentCycles
import CrdtSync.Core.Traced
import CrdtSync.Core.ForestRuns
import CrdtSync.Core.Known
import CrdtSync.Core.Merged
import CrdtSync.Server.Hub
import CrdtSync.Server.Registry
import CrdtSync.Server.Frames
import CrdtSync.Server.Cluster
import CrdtSync.Server.CatchUp
import CrdtSync.Server.Durability
import CrdtSync.Server.Epochs
import CrdtSync.Server.Resume
import CrdtSync.Server.LogStore
import CrdtSync.Server.Branches
import CrdtSync.Server.StoredHub
import CrdtSync.Server.Atomicity
import CrdtSync.Server.Reload
import CrdtSync.Server.ReplicaIdentity
import CrdtSync.Server.ClaimRuns
import CrdtSync.Lib.Saturation
import CrdtSync.Server.Gossip
import CrdtSync.Server.GossipConvergence
import CrdtSync.Server.Adoption
import CrdtSync.Server.Authz
import CrdtSync.Server.WholeRead
import CrdtSync.Lib.Framed
import CrdtSync.Server.Audit
import CrdtSync.Server.SchemaRegistry
import CrdtSync.Server.Reach
import CrdtSync.Server.OpVersions
import CrdtSync.Server.ReachRuns
import CrdtSync.Core.GroupArrival
import CrdtSync.Core.MoveRuns
import CrdtSync.Lib.LayerSearch
import CrdtSync.Core.AclStanding
import CrdtSync.Lib.Network
import CrdtSync.Core.AclProvenance
import CrdtSync.Core.AclAuthority
import CrdtSync.Core.AclOrder
import CrdtSync.Core.KeyPath
import CrdtSync.Core.AclLocality
import CrdtSync.Core.AclDenies
import CrdtSync.Core.BufferRuns
import CrdtSync.Core.GroupEnvelopes
import CrdtSync.Core.GroupVisibility
import CrdtSync.Core.HeldStamps
import CrdtSync.Core.Restored
import CrdtSync.Core.MintFreshness
import CrdtSync.Core.OpIds
import CrdtSync.Core.OpIdLives
import CrdtSync.Lib.PointwiseMerge
import CrdtSync.Core.NestedMap
import CrdtSync.Core.MapJoin
import CrdtSync.Core.MapUnion
import CrdtSync.Core.Tallies
import CrdtSync.Core.MigrationChain
import CrdtSync.Server.Awareness
import CrdtSync.Lib.ForestGrowth
import CrdtSync.Core.FuguePlacement
import CrdtSync.Core.FugueGrowth
import CrdtSync.Lib.Edges
import CrdtSync.Core.FuguePositions
import CrdtSync.Core.NonInterleaving
import CrdtSync.Core.DeliveryKeeps
import CrdtSync.Core.ClockRuns
import CrdtSync.Core.History
import CrdtSync.Core.Inverse
import CrdtSync.Core.Undo
import CrdtSync.Core.MintLatch
import CrdtSync.Core.HistoryBalance
import CrdtSync.Core.MovableNodes
import CrdtSync.Core.RevivalChains
import CrdtSync.Lib.TopRanked
import CrdtSync.Server.Rendezvous
import CrdtSync.Server.Publishing
import CrdtSync.Server.Streams
import CrdtSync.Server.StreamTrees
import CrdtSync.Lib.Positions
import CrdtSync.Server.StreamPositions
import CrdtSync.Server.Incumbency
import CrdtSync.Lib.Triples
import CrdtSync.Core.Json
import CrdtSync.Core.JsonGrammar
import CrdtSync.Core.JsonText
import CrdtSync.Core.JsonNumber
import CrdtSync.Core.JsonString
import CrdtSync.Core.JsonParse
import CrdtSync.Lib.Records
import CrdtSync.Server.StoreFiles
import CrdtSync.Server.FiledRecords
import CrdtSync.Server.VersionIndexes
import CrdtSync.Server.Retention
import CrdtSync.Lib.Text
import CrdtSync.Lib.IpLiterals
import CrdtSync.Server.Dial
import CrdtSync.Server.MemberAddresses
import CrdtSync.Core.ReadBack
import CrdtSync.Server.Replay
import CrdtSync.Server.ReplayLogs
import CrdtSync.Server.ReplayRuns
import CrdtSync.Lib.StackWalk
import CrdtSync.Core.Schema
import CrdtSync.Core.SchemaClosure
import CrdtSync.Core.Zone
import CrdtSync.Core.Validate
import CrdtSync.Core.ValidateExact
import CrdtSync.Core.Repair
import CrdtSync.Lib.Differences
import CrdtSync.Core.Diff
import CrdtSync.Core.DiffExact
import CrdtSync.Core.DiffPatches
import CrdtSync.Lib.AtomicWrite
import CrdtSync.Server.Blobs
import CrdtSync.Server.BlobRuns
import CrdtSync.Lib.TreeWalk
import CrdtSync.Server.BlobAccess
import CrdtSync.Server.ZoneTokens
