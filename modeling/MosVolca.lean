import MosVolca.Library.Sums
import MosVolca.Library.TwoLevel
import MosVolca.Library.ByteLoop
import MosVolca.Library.ByteWords
import MosVolca.Library.Bitmap
import MosVolca.Library.Cyclic
import MosVolca.Include.Error
import MosVolca.Include.Mmu
import MosVolca.Kern.Pmap
import MosVolca.Kern.PmapCases
import MosVolca.Kern.Accounting
import MosVolca.Kern.PageOps
import MosVolca.Kern.PageRun
import MosVolca.Kern.PageMap
import MosVolca.Kern.Env
import MosVolca.Kern.Sched
import MosVolca.Kern.Syscall
import MosVolca.Kern.Entry
import MosVolca.Kern.UserCopy
import MosVolca.Kern.UserPointers
import MosVolca.Kern.RunQueue
import MosVolca.Kern.RoundRobin
import MosVolca.Kern.Ipc
import MosVolca.Kern.Permission
import MosVolca.Kern.LegalMappings
import MosVolca.Kern.Boot
import MosVolca.Kern.EnvCases
import MosVolca.Kern.Receivers
import MosVolca.Kern.Blocked
import MosVolca.Kern.UserMode
import MosVolca.Kern.EnvIds
import MosVolca.Kern.EnvFree
import MosVolca.Kern.EnvTable
import MosVolca.Kern.DemandPaging
import MosVolca.User.Fork
import MosVolca.User.ForkLoop
import MosVolca.User.ForkTotal
import MosVolca.User.Cow
import MosVolca.User.Isolation
import MosVolca.Library.RingBuffer
import MosVolca.Library.PageBytes
import MosVolca.User.Pipe
import MosVolca.User.PipeFifo
import MosVolca.User.PipeWaits
import MosVolca.User.PipeEnds
import MosVolca.User.PipeClosed
import MosVolca.Fs.Request
import MosVolca.Fs.ReplySend
import MosVolca.Fs.Rpc
import MosVolca.Fs.Cache
import MosVolca.Fs.File
import MosVolca.Fs.Serv
import MosVolca.Fs.OpenFiles
import MosVolca.Fs.Ownership
import MosVolca.Fs.OwnerUpdates
import MosVolca.Fs.CacheCases
import MosVolca.Fs.Sync
import MosVolca.Fs.FileCases
import MosVolca.Fs.PathCases
import MosVolca.Fs.CreateFails
import MosVolca.Fs.BlockOwner
import MosVolca.Fs.FileWords
import MosVolca.Fs.FileNames
import MosVolca.Fs.Links
import MosVolca.Fs.DataBlocks
import MosVolca.Fs.Namespace
import MosVolca.Fs.Walks
import MosVolca.Fs.LinkLoops
import MosVolca.Fs.NameSets
import MosVolca.Fs.NameEffects
import MosVolca.Fs.Growth
import MosVolca.Fs.NewFiles
import MosVolca.Fs.OpenAnswers
import MosVolca.Fs.Handles
import MosVolca.Fs.Recycled
import MosVolca.Fs.HandleRuns
import MosVolca.Fs.BlockBits
import MosVolca.Fs.Truncation
import MosVolca.Library.Outcome
import MosVolca.Fs.Stops
import MosVolca.Fs.Replies
import MosVolca.Fs.WalkDirs
import MosVolca.Fs.Start
import MosVolca.User.Client
import MosVolca.User.Fd
import MosVolca.User.FdCases
import MosVolca.User.FileWindow
import MosVolca.User.WriteRead
import MosVolca.User.FileTruncate
import MosVolca.User.OpenReports
import MosVolca.User.DupPages
import MosVolca.Library.CString
import MosVolca.Kern.ChangeDir
import MosVolca.Kern.VarTable
import MosVolca.Kern.Leaks
import MosVolca.Kern.Reclaim
import MosVolca.Tools.Fsformat
import MosVolca.Library.Bounded
import MosVolca.Library.Footprint
import MosVolca.Library.Custody
import MosVolca.Tools.Layout
import MosVolca.Tools.Entries
import MosVolca.Tools.Image
import MosVolca.Tools.BitmapBlocks
import MosVolca.Lib.Elfloader
import MosVolca.Kern.LoadSegment
import MosVolca.Kern.RefCounts
import MosVolca.Kern.SharedPage
import MosVolca.Kern.PageFault
import MosVolca.Kern.Coherence
import MosVolca.Kern.TlbRuns
import MosVolca.Kern.StaleEntry
import MosVolca.Kern.ShellVars
import MosVolca.Kern.VarLaws
import MosVolca.Kern.VarSpill
import MosVolca.Library.Terminal
import MosVolca.Library.Chains
import MosVolca.User.Readline
import MosVolca.User.LineEditor
import MosVolca.User.Sh
import MosVolca.User.Redirections
import MosVolca.User.InitStack
import MosVolca.User.SpawnHeader
import MosVolca.Kern.LoadIcode
import MosVolca.User.Gettoken
import MosVolca.Kern.Refill
import MosVolca.Kern.Devices
import MosVolca.Kern.Exception
import MosVolca.Library.Numeral
import MosVolca.Lib.Print
import MosVolca.Lib.FormatStrings
import MosVolca.User.Argv
import MosVolca.Lib.Paths
import MosVolca.User.RelativePaths
import MosVolca.Library.RecordFile
import MosVolca.User.History
import MosVolca.User.HistorySessions
import MosVolca.User.Cursor
import MosVolca.User.Cat
import MosVolca.Kern.SyscallReturn
import MosVolca.Library.BoundedArray
import MosVolca.User.TabCompletion
import MosVolca.User.LineBuffers
import MosVolca.User.LineRuns
import MosVolca.Include.Queue
import MosVolca.Lib.Memory
import MosVolca.User.Debugf
import MosVolca.Lib.SplitPath
import MosVolca.Fs.Ide
import MosVolca.Library.Endian
import MosVolca.Tools.Reverse
import MosVolca.Tools.HostOrder
import MosVolca.Tools.BlockTypes
import MosVolca.Tools.ImageOrder
import MosVolca.Tools.Owners
import MosVolca.Tools.ImageOwners
import MosVolca.Tools.EndsOfDirectories
import MosVolca.Tools.HostPaths
import MosVolca.Tools.ServedTree
import MosVolca.Tools.ReadSessions
import MosVolca.Tools.RoundTrip
import MosVolca.Tools.CatImage
