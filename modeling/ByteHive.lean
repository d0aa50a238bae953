import ByteHive.ForStd.FileTree
import ByteHive.ForStd.FinMap
import ByteHive.ForStd.Gregorian
import ByteHive.ForStd.LwwPair
import ByteHive.ForStd.MarkSet
import ByteHive.ForStd.OrdMap
import ByteHive.ForStd.ReadEvents
import ByteHive.ForStd.Run
import ByteHive.ForStd.Separated
import ByteHive.ForStd.SplitParts
import ByteHive.ForStd.TextLines
import ByteHive.ForStd.TomlDoc
import ByteHive.ForStd.TomlWalk
import ByteHive.ForStd.TreeFrame
import ByteHive.ForStd.TreeWalk
import ByteHive.ForStd.Utf8Cut
import ByteHive.ForStd.WriteBack
import ByteHive.Native.Access
import ByteHive.Native.AccountCalls
import ByteHive.Native.AppThreads
import ByteHive.Native.BatchRequests
import ByteHive.Native.BrowserPaths
import ByteHive.Native.Browsing
import ByteHive.Native.Bundler
import ByteHive.Native.BusDelivery
import ByteHive.Native.BusLog
import ByteHive.Native.Common
import ByteHive.Native.ConfigFile
import ByteHive.Native.ConfigSplice
import ByteHive.Native.Connection
import ByteHive.Native.Cookies
import ByteHive.Native.DirectoryCopy
import ByteHive.Native.Drain
import ByteHive.Native.DrainPass
import ByteHive.Native.DrainReply
import ByteHive.Native.Engine
import ByteHive.Native.FileRequests
import ByteHive.Native.HashCache
import ByteHive.Native.HttpAuth
import ByteHive.Native.Journal
import ByteHive.Native.JournalFile
import ByteHive.Native.KnownHosts
import ByteHive.Native.KnownServers
import ByteHive.Native.LargeFile
import ByteHive.Native.Ledger
import ByteHive.Native.LedgerFile
import ByteHive.Native.LinkTree
import ByteHive.Native.LinkWrites
import ByteHive.Native.LogCleanup
import ByteHive.Native.LogRotation
import ByteHive.Native.Manifest
import ByteHive.Native.Path
import ByteHive.Native.Protocol
import ByteHive.Native.QueryText
import ByteHive.Native.Receiver
import ByteHive.Native.Registry
import ByteHive.Native.Rescan
import ByteHive.Native.Retransmission
import ByteHive.Native.Server
import ByteHive.Native.Session
import ByteHive.Native.ShareLinks
import ByteHive.Native.Shares
import ByteHive.Native.Suppression
import ByteHive.Native.Timestamps
import ByteHive.Native.Transport
import ByteHive.Native.Trash
import ByteHive.Native.TrashCalls
import ByteHive.Native.TrashFallback
import ByteHive.Native.Users
import ByteHive.Native.WebRequests
import ByteHive.Native.ZipPaths
import ByteHive.Spec.Acknowledgement
import ByteHive.Spec.AdmitBeforeWrite
import ByteHive.Spec.Announcement
import ByteHive.Spec.Authorisation
import ByteHive.Spec.BatchCopy
import ByteHive.Spec.BrowsedTree
import ByteHive.Spec.BundleLimits
import ByteHive.Spec.BundleOrder
import ByteHive.Spec.BusConservation
import ByteHive.Spec.CacheTrust
import ByteHive.Spec.ChunkedTransfer
import ByteHive.Spec.CivilDate
import ByteHive.Spec.CleanupReport
import ByteHive.Spec.Coalescing
import ByteHive.Spec.ConfigLocks
import ByteHive.Spec.ConfigRewrite
import ByteHive.Spec.ConfigSaves
import ByteHive.Spec.ConfigSplice
import ByteHive.Spec.Confinement
import ByteHive.Spec.ConflictCopies
import ByteHive.Spec.ConflictNames
import ByteHive.Spec.ConnectionOrder
import ByteHive.Spec.CookieLookup
import ByteHive.Spec.CopyExactness
import ByteHive.Spec.DeleteExtent
import ByteHive.Spec.Delivery
import ByteHive.Spec.DeliveryForms
import ByteHive.Spec.DrainOrder
import ByteHive.Spec.EndpointSteps
import ByteHive.Spec.EngineFrame
import ByteHive.Spec.ExpiryArithmetic
import ByteHive.Spec.Footprint
import ByteHive.Spec.Framing
import ByteHive.Spec.GlobAgreement
import ByteHive.Spec.GlobMeaning
import ByteHive.Spec.InternalFolder
import ByteHive.Spec.JournalDescribed
import ByteHive.Spec.JournalIndex
import ByteHive.Spec.JournalReplay
import ByteHive.Spec.JournalRows
import ByteHive.Spec.JournalSeq
import ByteHive.Spec.JournalTorn
import ByteHive.Spec.LargeFileCommit
import ByteHive.Spec.LedgerClear
import ByteHive.Spec.LedgerExchange
import ByteHive.Spec.LedgerInvariant
import ByteHive.Spec.LedgerJoin
import ByteHive.Spec.LedgerOrder
import ByteHive.Spec.LedgerShapes
import ByteHive.Spec.LiveWrites
import ByteHive.Spec.LogTail
import ByteHive.Spec.OfflineChanges
import ByteHive.Spec.PartialAck
import ByteHive.Spec.PathEscape
import ByteHive.Spec.PhantomKeys
import ByteHive.Spec.PurgeFrame
import ByteHive.Spec.QueryDecoding
import ByteHive.Spec.Reception
import ByteHive.Spec.Recreated
import ByteHive.Spec.Redaction
import ByteHive.Spec.Registration
import ByteHive.Spec.RenameInStep
import ByteHive.Spec.Rescans
import ByteHive.Spec.RestoreVeto
import ByteHive.Spec.Resurrection
import ByteHive.Spec.Retransmission
import ByteHive.Spec.SendLists
import ByteHive.Spec.Sessions
import ByteHive.Spec.Setup
import ByteHive.Spec.ShareLinks
import ByteHive.Spec.SingleStart
import ByteHive.Spec.StampClamp
import ByteHive.Spec.StateDir
import ByteHive.Spec.StopSignal
import ByteHive.Spec.StreamOrder
import ByteHive.Spec.Suppression
import ByteHive.Spec.Transfer
import ByteHive.Spec.TrashData
import ByteHive.Spec.TrashExtent
import ByteHive.Spec.TrashIndex
import ByteHive.Spec.TrashInverse
import ByteHive.Spec.TrustedServers
import ByteHive.Spec.VetoRule
import ByteHive.Spec.WatchCoverage
import ByteHive.Spec.WatchMap
import ByteHive.Spec.WebAuthority
import ByteHive.Spec.ZipSelection
