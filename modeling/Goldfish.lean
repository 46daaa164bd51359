import Goldfish.Timer.Shared
import Goldfish.Timer.Latch
import Goldfish.Timer.Alarm
import Goldfish.Timer.Delay
import Goldfish.Timer.DelayMasked
import Goldfish.Timer.Rates
import Goldfish.Irq.Controller
import Goldfish.Irq.TimerFlag
import Goldfish.Irq.MainLoop
import Goldfish.Irq.Timeout
import Goldfish.Syscalls.Stdin
import Goldfish.Syscalls.Descriptors
import Goldfish.Syscalls.Sbrk
import Goldfish.Syscalls.Break
import Goldfish.Rtc.Clock
import Goldfish.Rtc.Reading
import Goldfish.Nand.Div64Checked
import Goldfish.Nand.Refinement
import Goldfish.Nand.Completion
import Goldfish.Nand.Blocks
import Goldfish.Nand.Names
import Goldfish.Startup.ResetIsr
import Goldfish.Startup.Sum
import Goldfish.Exceptions.Resume
import Goldfish.Exceptions.Swi
import Goldfish.Exceptions.UserMode
import Goldfish.Exceptions.Vectors
import Goldfish.Exceptions.Abort
import Goldfish.Startup.CStartup
import Goldfish.Serial.Hex
import Goldfish.Programs.Echo
