import Cervus.Crypto.P256
import Cervus.Fs.Ext2Accounting
import Cervus.Fs.Fat32FileSpec
import Cervus.Fs.FdCount
import Cervus.Fs.Jbd2Termination
import Cervus.Fs.Path
import Cervus.Fs.Ramfs
import Cervus.Fs.UdfWrite
import Cervus.Herd.Plan
import Cervus.Memory.HeapClass
import Cervus.Memory.PmmHealing
import Cervus.Memory.VmmFree
import Cervus.Net.IpReassembly
import Cervus.Net.TcpAcceptance
import Cervus.Net.TcpLifetime
import Cervus.Sched.Threads
import Cervus.Sched.Timers
import Cervus.Signal.Signal
import Cervus.Ssh.Transport
import Cervus.Syscall.Futex
import Cervus.Syscall.Mmap
import Cervus.Syscall.Munmap
import Cervus.Syscall.Pipe
import Cervus.Syscall.Semaphores
import Cervus.Syscall.UserMemory
import Cervus.Tls.Handshake
import Cervus.Tls.Stream
import Cervus.Tls.X509
