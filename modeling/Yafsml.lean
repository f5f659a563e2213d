import Yafsml.Vfs.LookupCache
import Yafsml.Vfs.OverlayLaw
import Yafsml.Extdll.Load
import Yafsml.Vfs.FileRuns
import Yafsml.Save.Idempotent
import Yafsml.Save.FailClosed
import Yafsml.Dearxan.VmStack
import Yafsml.Dearxan.VmPool
import Yafsml.Patches.ZipShutdown
import Yafsml.Dearxan.RegionPatches
import Yafsml.Dearxan.SteamstubPatch
import Yafsml.Steam.VdfRoundTrip
import Yafsml.Process.ScannerSearch
import Yafsml.Vfs.ZipExact
import Yafsml.Dearxan.ScheduleOnce
import Yafsml.Extdll.DataReadyRuns
import Yafsml.Patches.BootBoostComplete
import Yafsml.Patches.FileHooksSound
import Yafsml.Dearxan.StubPatchRuns
import Yafsml.Dearxan.NeuterEnds
import Yafsml.Modloader.LifecycleDelivery
import Yafsml.Vfs.WritableRuns
import Yafsml.Vfs.NormalizeReference
import Yafsml.Vfs.Prefixed
import Yafsml.Foundation.Buffer
import Yafsml.Vfs.NormalizeBuffers
import Yafsml.Vfs.SeekableRuns
import Yafsml.Vfs.ZipIntegrity
import Yafsml.Process.ClassRegistry
import Yafsml.Dearxan.TeaReader
import Yafsml.Dearxan.SubScanner
import Yafsml.Dearxan.RelocationSweep
import Yafsml.Extdll.SortLaw
import Yafsml.Dearxan.SteamstubAtomic
import Yafsml.Save.Precise
import Yafsml.Patches.DlMounts
import Yafsml.Foundation.DoublyLinked
import Yafsml.Vfs.CacheAccounts
import Yafsml.Dearxan.TeaSearch
import Yafsml.Dearxan.WorkersRuns
import Yafsml.Steam.VdfInteger
import Yafsml.Steam.VdfEvaluatorRuns
import Yafsml.Steam.VdfTotality
import Yafsml.Save.Backups
import Yafsml.Extdll.SpecExact
import Yafsml.Patches.EblOpensRuns
import Yafsml.Text.ResolveCanonical
import Yafsml.Patches.BootBoostCacheRoundTrip
import Yafsml.Patches.AssetSigBlockSize
import Yafsml.Dearxan.VisitedSlotsRuns
import Yafsml.Dearxan.NearAllocation
import Yafsml.Process.SingletonBounds
import Yafsml.Process.RttiChains
import Yafsml.Dearxan.NeuterOnce
import Yafsml.Ini.Grammar
import Yafsml.Khash.Runs
import Yafsml.Extdll.Unload
import Yafsml.Patches.ZipCompletions
import Yafsml.Dearxan.EntryPoint
import Yafsml.Save.Redirected
