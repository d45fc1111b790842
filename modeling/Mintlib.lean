import Mintlib.Lib.Extent
import Mintlib.Lib.ByteMemory
import Mintlib.Lib.Linked
import Mintlib.Lib.Run
import Mintlib.Malloc.Model
import Mintlib.Malloc.Geometry
import Mintlib.Malloc.Regions
import Mintlib.Malloc.FreeList
import Mintlib.Malloc.Release
import Mintlib.Malloc.Allocate
import Mintlib.Malloc.Resize
import Mintlib.Malloc.Program
import Mintlib.Malloc.Guarantees
import Mintlib.Malloc.Packed
import Mintlib.Malloc.HandBack
import Mintlib.Malloc.Merged
import Mintlib.Malloc.Aligned
import Mintlib.Lib.Bits
import Mintlib.Semaphore
import Mintlib.NamedSemaphore
import Mintlib.Signals
import Mintlib.Poll
import Mintlib.Select
import Mintlib.Timeouts
import Mintlib.Sleep
import Mintlib.Nanosleep
import Mintlib.Environ
import Mintlib.EnvironMemory
import Mintlib.Lib.Buffer
import Mintlib.Lib.Text
import Mintlib.Grp
import Mintlib.Entry
import Mintlib.Pwd
import Mintlib.Shadow
import Mintlib.Unx2dos
import Mintlib.StartUp
import Mintlib.CommandLine
import Mintlib.PathLists
import Mintlib.NameRoom
import Mintlib.PipeLinks
import Mintlib.ConsoleRead
import Mintlib.Termios
import Mintlib.Symlink
import Mintlib.Dirent
import Mintlib.Stdio.File
import Mintlib.Stdio.Room
import Mintlib.TextMode
import Mintlib.Stdio.Vsnprintf
import Mintlib.Stdio.Vasprintf
import Mintlib.Stdio.Memstream
import Mintlib.Stdio.Default
import Mintlib.Stdio.Frames
import Mintlib.Stdio.Ungetc
import Mintlib.GroupLists
import Mintlib.Lseek
import Mintlib.SystemHack
import Mintlib.Redirect
import Mintlib.GroupReader
import Mintlib.GroupCopy
import Mintlib.PwdLines
import Mintlib.Rename
import Mintlib.Stdio.Lines
import Mintlib.PwdRecords
import Mintlib.PwdLookup
import Mintlib.TextRead
import Mintlib.Dirname
import Mintlib.Execvp
import Mintlib.TempNames
import Mintlib.Vectors
import Mintlib.SunPath
import Mintlib.Script
import Mintlib.Addrinfo
import Mintlib.Stdio.Getdelim
import Mintlib.AtExit
import Mintlib.Diraccess
import Mintlib.Enoent
import Mintlib.Getgroups
import Mintlib.Pread
import Mintlib.Fallocate
import Mintlib.Stores
import Mintlib.Tempnam
import Mintlib.Buffindfile
import Mintlib.Popen
import Mintlib.Chdir
import Mintlib.DoStat
import Mintlib.Spawn.Block
import Mintlib.Spawn.Parse
import Mintlib.A64l
import Mintlib.Dostime
import Mintlib.Strn
import Mintlib.Tmpfile
import Mintlib.Getnameinfo
import Mintlib.Basename
import Mintlib.Realpath
import Mintlib.Spawn.Chain
import Mintlib.Spawn.Room
import Mintlib.Spawn.Retry
import Mintlib.Spawn.Passing
import Mintlib.Setmode.Commands
import Mintlib.Setmode.Reader
import Mintlib.Setmode.Meaning
import Mintlib.Lib.Probing
import Mintlib.Hsearch
import Mintlib.Lib.Compare
import Mintlib.Lib.Rearranged
import Mintlib.Sort.Msort
import Mintlib.Sort.Quicksort
import Mintlib.Sort.Qsort
import Mintlib.Lib.NodeTree
import Mintlib.Tsearch.Walk
