import Exaros.Block.Coherence
import Exaros.Pipes.Wakeup
import Exaros.Pipes.Fifo
import Exaros.Files.PipeCalls
import Exaros.Signal.Nesting
import Exaros.Signal.Default
import Exaros.Signal.Dispositions
import Exaros.Process.Creation
import Exaros.Files.Limits
import Exaros.Net.Accept
import Exaros.Net.Peers
import Exaros.Memory.Brk
import Exaros.Memory.Mmap
import Exaros.Driver.Requests
import Exaros.Memory.MemsetOut
import Exaros.Trap.Nesting
import Exaros.Files.TmpLifetime
import Exaros.Trap.Lengths
import Exaros.Dir.Listing
import Exaros.Dir.RoundTrip
import Exaros.Memory.Protect
import Exaros.Memory.Strings
import Exaros.Process.ElfLoader
import Exaros.Process.Script
import Exaros.Process.UserStack
import Exaros.Process.OnDemand
import Exaros.Trap.Alarm
import Exaros.Dir.Patch
import Exaros.Fat.Truncate
import Exaros.Fat.Overrun
import Exaros.Fat.Geometry
import Exaros.Dir.ShortName
import Exaros.Files.Interrupts
import Exaros.Dir.Times
import Exaros.Process.Requeue
import Exaros.Queue.Macros
import Exaros.Shell.Grammar
import Exaros.Files.Select
import Exaros.Files.Entry
