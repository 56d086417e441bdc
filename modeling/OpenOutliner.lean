import OpenOutliner.Client.DocumentSync
import OpenOutliner.Client.ExactlyOnce
import OpenOutliner.Client.FlushOrder
import OpenOutliner.Client.Markdown
import OpenOutliner.Client.Outbox
import OpenOutliner.Client.OutboxReplay
import OpenOutliner.Client.OutlinerView
import OpenOutliner.Client.PeerChannel
import OpenOutliner.Client.Portable
import OpenOutliner.Client.PortableCheck
import OpenOutliner.Client.PortableImport
import OpenOutliner.Client.PortableRoundTrip
import OpenOutliner.Client.PortableTree
import OpenOutliner.Client.ReplicaDuel
import OpenOutliner.Client.ReplicaId
import OpenOutliner.Client.RowText
import OpenOutliner.Client.SaveStatus
import OpenOutliner.Client.Seeding
import OpenOutliner.Client.SessionStart
import OpenOutliner.Client.TabConvergence
import OpenOutliner.Client.TabDocuments
import OpenOutliner.Client.TabEffects
import OpenOutliner.Client.TrashUpgrade
import OpenOutliner.Crdt.CommandOutcome
import OpenOutliner.Crdt.CommandWrites
import OpenOutliner.Crdt.DeletionRecords
import OpenOutliner.Crdt.DocUpdates
import OpenOutliner.Crdt.History
import OpenOutliner.Crdt.IndexCache
import OpenOutliner.Crdt.ItemChanges
import OpenOutliner.Crdt.Merging
import OpenOutliner.Crdt.MoveCancellation
import OpenOutliner.Crdt.MoveItem
import OpenOutliner.Crdt.Node
import OpenOutliner.Crdt.Outline
import OpenOutliner.Crdt.OutlineIndex
import OpenOutliner.Crdt.OutlineView
import OpenOutliner.Crdt.RanksApart
import OpenOutliner.Crdt.Reordering
import OpenOutliner.Crdt.ReplayEffect
import OpenOutliner.Crdt.Replicas
import OpenOutliner.Crdt.SharedTypes
import OpenOutliner.Crdt.SiblingLists
import OpenOutliner.Crdt.SiblingSwaps
import OpenOutliner.Crdt.SoloRuns
import OpenOutliner.Crdt.SplitPlacement
import OpenOutliner.Crdt.SplitText
import OpenOutliner.Crdt.StructuralMoves
import OpenOutliner.Crdt.TextEdits
import OpenOutliner.Crdt.TextUndo
import OpenOutliner.Crdt.UndoAlignment
import OpenOutliner.Crdt.UndoExact
import OpenOutliner.Crdt.UndoFields
import OpenOutliner.Crdt.UndoReplay
import OpenOutliner.Crdt.VisibleMoves
import OpenOutliner.Crdt.VisibleOrder
import OpenOutliner.Foundations.Autocommit
import OpenOutliner.Foundations.Broadcast
import OpenOutliner.Foundations.FixedWindow
import OpenOutliner.Foundations.Forest
import OpenOutliner.Foundations.LazyNested
import OpenOutliner.Foundations.Machine
import OpenOutliner.Foundations.OrderedForest
import OpenOutliner.Foundations.OrderedMap
import OpenOutliner.Foundations.ReadCommitted
import OpenOutliner.Foundations.Redirect
import OpenOutliner.Foundations.Replication
import OpenOutliner.Foundations.RootedOrbit
import OpenOutliner.Foundations.StableSort
import OpenOutliner.Foundations.Upsert
import OpenOutliner.Foundations.Walk
import OpenOutliner.Server.AccountInvariants
import OpenOutliner.Server.Accounts
import OpenOutliner.Server.Acknowledgement
import OpenOutliner.Server.AttachmentCollection
import OpenOutliner.Server.AttachmentInvariants
import OpenOutliner.Server.AttachmentRetention
import OpenOutliner.Server.Attachments
import OpenOutliner.Server.BatchClosure
import OpenOutliner.Server.Compaction
import OpenOutliner.Server.Connections
import OpenOutliner.Server.Cookies
import OpenOutliner.Server.CsrfEdge
import OpenOutliner.Server.EffectiveDeletion
import OpenOutliner.Server.ExactProjection
import OpenOutliner.Server.ExportRoundTrip
import OpenOutliner.Server.ExportView
import OpenOutliner.Server.GcProgress
import OpenOutliner.Server.GcSafety
import OpenOutliner.Server.HardDelete
import OpenOutliner.Server.ImportAtomicity
import OpenOutliner.Server.ImportMirror
import OpenOutliner.Server.ImportSurvival
import OpenOutliner.Server.Interleaving
import OpenOutliner.Server.ItemVersions
import OpenOutliner.Server.ItemsRepo
import OpenOutliner.Server.LedgerJoin
import OpenOutliner.Server.Materialize
import OpenOutliner.Server.Migrations
import OpenOutliner.Server.Password
import OpenOutliner.Server.ProjectionSweep
import OpenOutliner.Server.Projector
import OpenOutliner.Server.RateLimit
import OpenOutliner.Server.RawImport
import OpenOutliner.Server.Receipts
import OpenOutliner.Server.RepairRounds
import OpenOutliner.Server.ReplicaSync
import OpenOutliner.Server.Revocation
import OpenOutliner.Server.Serializer
import OpenOutliner.Server.ServerInvariants
import OpenOutliner.Server.Subtree
import OpenOutliner.Server.Tenancy
import OpenOutliner.Server.TenancyInvariants
import OpenOutliner.Server.TenantIsolation
import OpenOutliner.Server.UpsertHistory
import OpenOutliner.Server.ViewAgreement
import OpenOutliner.Server.YjsStore
import OpenOutliner.Shared.Cycle
import OpenOutliner.Shared.CycleBreaking
import OpenOutliner.Shared.CycleCensus
import OpenOutliner.Shared.CycleExit
import OpenOutliner.Shared.CycleRepairs
import OpenOutliner.Shared.DeletionMarking
import OpenOutliner.Shared.DetectCycles
import OpenOutliner.Shared.EffectiveTree
import OpenOutliner.Shared.EffectiveTreeLaws
import OpenOutliner.Shared.FractionalIndex
import OpenOutliner.Shared.Hlc
import OpenOutliner.Shared.ItemCommands
import OpenOutliner.Shared.Ordering
import OpenOutliner.Shared.Overgrowth
import OpenOutliner.Shared.Rehoming
import OpenOutliner.Shared.RepairConvergence
import OpenOutliner.Shared.Schema
import OpenOutliner.Shared.SiblingMoves
import OpenOutliner.Shared.TreeEdits
import OpenOutliner.Shared.UriComponent
