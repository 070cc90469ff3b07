import LosTacOS.Lib.ByteMemory
import LosTacOS.Heap.Alloc
import LosTacOS.Heap.Layout
import LosTacOS.Heap.Noninterference
import LosTacOS.Mm.Boot
import LosTacOS.Lib.Arena
import LosTacOS.Lib.Chain
import LosTacOS.Mm.Exec
import LosTacOS.Mm.Isolation
import LosTacOS.Os.Building
import LosTacOS.Os.Calls
import LosTacOS.Os.FileData
import LosTacOS.Os.Freed
import LosTacOS.Os.Handles
import LosTacOS.Os.Held
import LosTacOS.Os.Lookup
import LosTacOS.Os.PipeFlow
import LosTacOS.Drivers.Ahci
import LosTacOS.Drivers.Console
import LosTacOS.Drivers.Dirty
import LosTacOS.Drivers.Disk
import LosTacOS.Drivers.Keyboard
import LosTacOS.Drivers.OnScreen
import LosTacOS.Fat.Graph
import LosTacOS.Fat.Layout
import LosTacOS.Fat.Moves
import LosTacOS.Fat.Writing
import LosTacOS.Heap.Complete
import LosTacOS.Heap.Requests
import LosTacOS.Mm.Arguments
import LosTacOS.Mm.Cloning
import LosTacOS.Mm.Counting
import LosTacOS.Mm.Cursor
import LosTacOS.Mm.FileReads
import LosTacOS.Mm.LowPages
import LosTacOS.Mm.MemoryMap
import LosTacOS.Mm.Mmap
import LosTacOS.Os.Dispatch
import LosTacOS.Os.ExecCurrent
import LosTacOS.Os.Existence
import LosTacOS.Os.Exiting
import LosTacOS.Os.KillTree
import LosTacOS.Os.Mounting
import LosTacOS.Os.Relative
import LosTacOS.Os.Buffers
import LosTacOS.Fat.Files
import LosTacOS.Fat.Opening
import LosTacOS.Fat.Sessions
import LosTacOS.Fat.Boundary
import LosTacOS.Drivers.Timer
import LosTacOS.Os.Cover
import LosTacOS.Os.DevSeek
import LosTacOS.Os.Getcwd
import LosTacOS.Os.Rootfs
import LosTacOS.Os.Arrays
import LosTacOS.Os.MountFails
import LosTacOS.Os.Readdir
import LosTacOS.Os.Select
import LosTacOS.Lib.Loop
import LosTacOS.Fat.Ramdisk
import LosTacOS.Fat.Walks
import LosTacOS.Fat.Names
import LosTacOS.Fat.Reads
import LosTacOS.Os.TarWalks
import LosTacOS.Os.TarRanges
import LosTacOS.Os.TarTree
import LosTacOS.Os.TarAgree
import LosTacOS.Gzip.Inflate
import LosTacOS.Lib.BitStream
import LosTacOS.Lib.Canonical
import LosTacOS.Gzip.Reader
import LosTacOS.Gzip.Huffman
import LosTacOS.Gzip.Deflate
import LosTacOS.Gzip.Dynamic
import LosTacOS.Gzip.Rounds
import LosTacOS.Gzip.Extends
import LosTacOS.Gzip.Ends
import LosTacOS.Gzip.Refine
import LosTacOS.Gzip.Verdicts
import LosTacOS.Gzip.Bounds
import LosTacOS.Gzip.Success
import LosTacOS.Lib.Emit
import LosTacOS.Printf.Console
import LosTacOS.Printf.Overrun
import LosTacOS.Printf.Justify
import LosTacOS.Printf.Procfs
import LosTacOS.Printf.Scanf
import LosTacOS.Iso.Isofs
import LosTacOS.Libc.Libgen
import LosTacOS.Libc.Strtol
import LosTacOS.Drivers.Scancodes
import LosTacOS.Drivers.Escapes
import LosTacOS.Libc.Bracket
import LosTacOS.Libc.Fnmatch
import LosTacOS.Lib.Search
import LosTacOS.Libc.Regex
import LosTacOS.Libc.Expressions
import LosTacOS.Libc.Terminators
import LosTacOS.Drivers.Inverted
import LosTacOS.Gzip.Codewords
import LosTacOS.Kernel.Logger
import LosTacOS.Kernel.Memmove
import LosTacOS.Kernel.Words
import LosTacOS.Os.Queue
import LosTacOS.Os.RoundTrip
import LosTacOS.Drivers.Sectors
import LosTacOS.Mm.Realloc
import LosTacOS.Iso.Safety
import LosTacOS.Fat.Touches
import LosTacOS.Gzip.Encoding
import LosTacOS.Lib.BitWords
import LosTacOS.Gzip.RoundTrip
import LosTacOS.Lib.StackMachine
import LosTacOS.Arch.Stubs
import LosTacOS.Arch.Switching
import LosTacOS.Arch.Fork
import LosTacOS.Drivers.Tty
import LosTacOS.Lib.RingBuffer
import LosTacOS.Drivers.Mouse
import LosTacOS.Os.Full
import LosTacOS.Os.FullFind
import LosTacOS.Os.Adding
import LosTacOS.Os.Agreeing
import LosTacOS.Os.PipeWait
import LosTacOS.Drivers.Interrupted
import LosTacOS.Drivers.Blinking
import LosTacOS.Heap.Footers
import LosTacOS.Os.OpenFails
