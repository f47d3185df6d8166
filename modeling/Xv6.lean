import Xv6.Proofs.Refs
import Xv6.Proofs.LogSpace
import Xv6.Proofs.PipeFifo
import Xv6.Proofs.PipeWakeup
import Xv6.Proofs.ExitWait
import Xv6.Proofs.Kill
import Xv6.Proofs.Console
import Xv6.Proofs.Uart
import Xv6.Proofs.Sleeplock
import Xv6.Proofs.Virtio
import Xv6.Proofs.SharedFile
import Xv6.Proofs.FileRead
import Xv6.Proofs.DirectoryMap
import Xv6.Proofs.Open
import Xv6.Proofs.Grep
import Xv6.Proofs.ShellWords
import Xv6.Proofs.PipeRead
import Xv6.Proofs.ForkCopy
import Xv6.Proofs.Bcache
import Xv6.Proofs.Clock
import Xv6.Proofs.Printf
import Xv6.Proofs.Interrupts
import Xv6.Proofs.GrepLines
import Xv6.Proofs.Morecore
import Xv6.Proofs.ExecLoad
