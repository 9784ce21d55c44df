import OsLabs.Lib.Budget
import OsLabs.Lib.ByteMemory
import OsLabs.Lib.DepthFirst
import OsLabs.Lib.Dictionary
import OsLabs.Lib.ExceptRules
import OsLabs.Lib.LinkedChain
import OsLabs.Lib.Numeral
import OsLabs.Lib.PathMap
import OsLabs.Lib.PointerSlots
import OsLabs.Lib.RadixTree
import OsLabs.Lib.RoundRobin
import OsLabs.Lib.Text
import OsLabs.Lib.Transition
import OsLabs.Weensy.Machine
import OsLabs.Weensy.Paging
import OsLabs.Weensy.PageTree
import OsLabs.Weensy.PageMap
import OsLabs.Weensy.VirtualMemory
import OsLabs.Weensy.MapRange
import OsLabs.Weensy.Kernel
import OsLabs.Weensy.Boot
import OsLabs.Weensy.KernelTable
import OsLabs.Weensy.KernelInvariant
import OsLabs.Weensy.Exceptions
import OsLabs.Weensy.Loading
import OsLabs.Weensy.KernelBoot
import OsLabs.Weensy.KernelRuns
import OsLabs.Weensy.ContextSwitch
import OsLabs.Weensy.Allocator
import OsLabs.Weensy.AllocatorRuns
import OsLabs.Weensy.IdentityMap
import OsLabs.Weensy.Scheduling
import OsLabs.Weensy.SegmentBytes
import OsLabs.Weensy.BootLoader
import OsLabs.Weensy.BootKernel
import OsLabs.Weensy.MemoryPicture
import OsLabs.Weensy.PictureRuns
import OsLabs.Weensy.Printer
import OsLabs.Weensy.LogText
import OsLabs.Weensy.ParseLog
import OsLabs.Weensy.LogRoundTrip
import OsLabs.Weensy.Dumps
import OsLabs.Weensy.DumpRuns
import OsLabs.Weensy.Segments
import OsLabs.Weensy.MemoryMove
import OsLabs.Weensy.Directive
import OsLabs.Weensy.FormatScan
import OsLabs.Weensy.Console
import OsLabs.Weensy.NumericField
import OsLabs.Weensy.IntPrinter
import OsLabs.Weensy.StringPrinter
import OsLabs.Weensy.PartitionSearch
import OsLabs.Weensy.LoadClaims
import OsLabs.Weensy.Keyboard
import OsLabs.Weensy.GradeChecks
import OsLabs.Weensy.GradeRuns
import OsLabs.Fs.Types
import OsLabs.Fs.Format
import OsLabs.Fs.FormatSound
import OsLabs.Fs.FormatFiles
import OsLabs.Fs.FormatImage
import OsLabs.Fs.FormatLayout
import OsLabs.Fs.FormatDirectory
import OsLabs.Fs.FormatSpace
import OsLabs.Fs.FormatData
import OsLabs.Fs.DiskMap
import OsLabs.Fs.Transfer
import OsLabs.Fs.Inode
import OsLabs.Fs.InodeBytes
import OsLabs.Fs.InodeFile
import OsLabs.Fs.InodeWrite
import OsLabs.Fs.ReadWrite
import OsLabs.Fs.InodeBlocks
import OsLabs.Fs.Directory
import OsLabs.Fs.Listing
import OsLabs.Fs.Path
import OsLabs.Fs.Offsets
import OsLabs.Fs.FileLayout
import OsLabs.Fs.FileTree
import OsLabs.Fs.Rename
import OsLabs.Fs.ImageTree
import OsLabs.Fs.DirectoryEntry
import OsLabs.Fs.Create
import OsLabs.Fs.Bitmap
import OsLabs.Fs.VolumeImage
import OsLabs.Fs.Driver
import OsLabs.Fs.Volume
import OsLabs.Fs.Mounted
import OsLabs.Dbg.LinkedList
import OsLabs.Fs.SoundTree
import OsLabs.Fs.WholeTree
import OsLabs.Fs.ShownTree
import OsLabs.Fs.ShownPath
import OsLabs.Fs.ShownChanges
import OsLabs.Fs.Namespace
import OsLabs.Fs.NamespaceSteps
import OsLabs.Fs.NamespaceRuns
