import PwFilter.ConsecutiveRuns
import PwFilter.WhileLoop
import PwFilter.ActionRuns
import PwFilter.UnicodeText
import PwFilter.SurrogatePairs
import PwFilter.SyncCode
import PwFilter.ByteMemory
import PwFilter.BlockFold
import PwFilter.Fips180
import PwFilter.ProbeFilter
import PwFilter.LineEntries
import PwFilter.PythonText
import PwFilter.Allocation
import PwFilter.HandleTable
import PwFilter.Utf
import PwFilter.UtfRoundTrip
import PwFilter.Utf8Sequences
import PwFilter.Utf8Resync
import PwFilter.IllFormedUtf8
import PwFilter.Complexity
import PwFilter.NameTokens
import PwFilter.NameSpans
import PwFilter.Blacklist
import PwFilter.Policy
import PwFilter.PaddingEvasion
import PwFilter.DeclarativePolicy
import PwFilter.RunDetectors
import PwFilter.Sha1
import PwFilter.Sha1Streaming
import PwFilter.Sha1Safety
import PwFilter.Bloom
import PwFilter.BloomMembership
import PwFilter.BloomRoundTrip
import PwFilter.BloomFormat
import PwFilter.BreachBloom
import PwFilter.Tightening
import PwFilter.VerdictInvariance
import PwFilter.PythonTools
import PwFilter.BloomImages
import PwFilter.DumpReader
import PwFilter.HexDigest
import PwFilter.RateParams
import PwFilter.ConfigFile
import PwFilter.ConfigEntries
import PwFilter.DataFiles
import PwFilter.WindowsPath
import PwFilter.FilterContext
import PwFilter.FilePaths
import PwFilter.ContextHandles
import PwFilter.Installer
import PwFilter.Deployment
import PwFilter.DllMain
import PwFilter.EventLog
import PwFilter.Package
import PwFilter.Initialization
import PwFilter.ContextContents
import PwFilter.RequiredClasses
import PwFilter.FailOpen
import PwFilter.PackageRuns
import PwFilter.PackageHandles
import PwFilter.PackageProgress
import PwFilter.PolicyRuns
import PwFilter.LogContents
import PwFilter.InstalledPolicy
import PwFilter.CorpusRuns
import PwFilter.RangeCheck
