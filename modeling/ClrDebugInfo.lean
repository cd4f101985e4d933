import ClrDebugInfo.Library.Runs
import ClrDebugInfo.Server.AvoidDupes
import ClrDebugInfo.Server.Request
import ClrDebugInfo.Server.Fetch
import ClrDebugInfo.Server.Daemon
import ClrDebugInfo.Server.Solo
import ClrDebugInfo.Server.Connections
import ClrDebugInfo.Server.Reply
import ClrDebugInfo.Server.Failover
import ClrDebugInfo.Server.TempFiles
import ClrDebugInfo.Library.Credentials
import ClrDebugInfo.Server.Startup
import ClrDebugInfo.Library.Ledger
import ClrDebugInfo.Server.Resources
import ClrDebugInfo.Server.TableMemory
import ClrDebugInfo.Server.Cache
import ClrDebugInfo.Server.Origin
import ClrDebugInfo.Library.Uri
import ClrDebugInfo.Server.Url
import ClrDebugInfo.Server.Mirrors
import ClrDebugInfo.Server.Wraparound
import ClrDebugInfo.Client.Message
import ClrDebugInfo.Client.Backoff
import ClrDebugInfo.Client.TryToGet
import ClrDebugInfo.Protocol.Net
import ClrDebugInfo.Protocol.Ends
import ClrDebugInfo.Protocol.Exchange
import ClrDebugInfo.Protocol.Lookup
import ClrDebugInfo.Nica.FiniteMap
import ClrDebugInfo.Nica.Displace
import ClrDebugInfo.Nica.Iterate
import ClrDebugInfo.Nica.Effects
import ClrDebugInfo.Nica.Removal
import ClrDebugInfo.Nica.Membership
import ClrDebugInfo.Nica.Copying
import ClrDebugInfo.Nica.FailedPut
import ClrDebugInfo.Nica.Ownership
import ClrDebugInfo.Library.FileTree
import ClrDebugInfo.Library.TreeWalk
import ClrDebugInfo.Nica.Files
import ClrDebugInfo.Nica.CopyFile
import ClrDebugInfo.Library.MakeDir
import ClrDebugInfo.Nica.Mkdir
import ClrDebugInfo.Library.Inodes
import ClrDebugInfo.Nica.CasePath
import ClrDebugInfo.Library.Calls
import ClrDebugInfo.Fuse.Mount
import ClrDebugInfo.Fuse.Reading
import ClrDebugInfo.Library.Programs
import ClrDebugInfo.Fuse.Handlers
import ClrDebugInfo.Fuse.Interleaved
import ClrDebugInfo.Fuse.Handles
import ClrDebugInfo.Library.Owners
import ClrDebugInfo.Directories
import ClrDebugInfo.Refresh
import ClrDebugInfo.Library.Pattern
import ClrDebugInfo.Prepare.Tar
import ClrDebugInfo.Prepare.Names
import ClrDebugInfo.Prepare.ProcessOne
import ClrDebugInfo.Prepare.Selection
import ClrDebugInfo.Prepare.Incremental
import ClrDebugInfo.Library.Words
import ClrDebugInfo.Prepare.Script
import ClrDebugInfo.Prepare.Records
import ClrDebugInfo.Prepare.Publish
import ClrDebugInfo.Pipeline
