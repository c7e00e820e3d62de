import LinuxDrivers.Lib.Mem
import LinuxDrivers.Lib.Run
import LinuxDrivers.Lib.Areas
import LinuxDrivers.Lib.History
import LinuxDrivers.Lib.FirstFit
import LinuxDrivers.Lib.Tiling
import LinuxDrivers.Lib.ScanMax
import LinuxDrivers.Lib.CountOff
import LinuxDrivers.Lib.Simulation
import LinuxDrivers.Lib.Exclusive
import LinuxDrivers.Lib.Chain
import LinuxDrivers.Cs614.Isolation
import LinuxDrivers.Cs614.Parts
import LinuxDrivers.Cs614.Answers
import LinuxDrivers.Card.Routine
import LinuxDrivers.Card.Driver
import LinuxDrivers.Card.Handles
import LinuxDrivers.Card.RoundTrip
import LinuxDrivers.Card.Lock
import LinuxDrivers.Card.Early
import LinuxDrivers.Card.Honest
import LinuxDrivers.Card.OneShot
import LinuxDrivers.Card.Window
import LinuxDrivers.Card.Mapping
import LinuxDrivers.Card.Fmmap
import LinuxDrivers.Card.Serial
import LinuxDrivers.Card.Torn
import LinuxDrivers.Card.Progress
import LinuxDrivers.Card.Desync
import LinuxDrivers.Vma.Overwrite
import LinuxDrivers.Vma.ThereAndBack
import LinuxDrivers.Vma.Undo
import LinuxDrivers.Vma.Front
import LinuxDrivers.Vma.Origin
import LinuxDrivers.Vma.Accept
import LinuxDrivers.Vma.Dropped
import LinuxDrivers.Vma.Cursors
import LinuxDrivers.Cs614.Linear
import LinuxDrivers.Cs614.Race
import LinuxDrivers.Cs614.Load
import LinuxDrivers.Lib.Placement
import LinuxDrivers.Vma.Ledger
import LinuxDrivers.Vma.Transparent
