import LinuxDrivers.Card.Device

/-!
# The transfer routines

`cryptocard.c` drives the card through twelve routines: encrypt and decrypt, by
MMIO, by DMA or on the mapped window, polling or waiting for the interrupt. Each
is straight-line code over a handful of statements, so each is written here as
the list of those statements, in the order of the source.

The list form is what lets one text serve two readings. `runAll` below executes
a routine on its own, with the card making progress whenever the driver spins or
sleeps; `Early.lean` interleaves the same lists with interrupts and signals.
-/

namespace LinuxDrivers.Card

/-- One statement of a transfer routine. -/
inductive Instr where
  | iowrite32 (v : UInt32) (off : Nat)
  /-- A register read whose value is only printed. -/
  | ioread32 (off : Nat)
  /-- `while (ioread32(ccbar0 + off) & 1);` -/
  | whileBusy (off : Nat)
  /-- `memcpy_toio(ccbar0 + off, data, len)` -/
  | memcpyToio (off len : Nat)
  /-- `memcpy_fromio(data, ccbar0 + off, len)` -/
  | memcpyFromio (off len : Nat)
  /-- `memcpy(buff, data, len)` into the coherent buffer the card sees at `handle`. -/
  | memcpyToDma (handle len : Nat)
  /-- `memcpy(data, buff, len)` -/
  | memcpyFromDma (handle len : Nat)
  /-- `wait_event_interruptible(cc_wq, wq_flag != 0)` -/
  | waitEventInterruptible
  /-- `wq_flag = 0` -/
  | clearWqFlag
  deriving DecidableEq

/-! ## The routines -/

/-- `encryption_mmap_polling` and `decryption_mmap_polling`, which differ in the status word. -/
def mmapPolling (status : UInt32) (length : UInt64) : List Instr :=
  [.iowrite32 status mmstatusOff,
   .iowrite32 length.toUInt32 mmdataLenOff,
   .ioread32 mmdataLenOff,
   .whileBusy mmstatusOff,
   .iowrite32 0xa8 mmaddrOff,
   .whileBusy mmstatusOff]

def encryptionMmapPolling : UInt64 → List Instr := mmapPolling 0x00000000
def decryptionMmapPolling : UInt64 → List Instr := mmapPolling 0x00000002

/-- `encryption_mmap_interrupt` and `decryption_mmap_interrupt`. -/
def mmapInterrupt (status : UInt32) (length : UInt64) : List Instr :=
  [.iowrite32 status mmstatusOff,
   .iowrite32 length.toUInt32 mmdataLenOff,
   .ioread32 mmdataLenOff,
   .whileBusy mmstatusOff,
   .iowrite32 0xa8 mmaddrOff,
   .waitEventInterruptible,
   .clearWqFlag]

def encryptionMmapInterrupt : UInt64 → List Instr := mmapInterrupt 0x00000080
def decryptionMmapInterrupt : UInt64 → List Instr := mmapInterrupt 0x00000082

/-- `encryption_mmio_interrupt` and `decryption_mmio_interrupt`. -/
def mmioInterrupt (status : UInt32) (length : UInt64) : List Instr :=
  [.iowrite32 status mmstatusOff,
   .memcpyToio dataOff length.toUInt32.toNat,
   .iowrite32 length.toUInt32 mmdataLenOff,
   .ioread32 mmdataLenOff,
   .whileBusy mmstatusOff,
   .iowrite32 0xa8 mmaddrOff,
   .waitEventInterruptible,
   .clearWqFlag,
   .memcpyFromio dataOff length.toUInt32.toNat]

def encryptionMmioInterrupt : UInt64 → List Instr := mmioInterrupt 0x00000080
def decryptionMmioInterrupt : UInt64 → List Instr := mmioInterrupt 0x00000082

/--
`encryption_dma_interrupt` and `decryption_dma_interrupt`. `handle` is the bus
address `dma_alloc_coherent` returned; the register write keeps its low 32 bits.
-/
def dmaInterrupt (cmd : UInt32) (handle : Nat) (length : UInt64) : List Instr :=
  [.memcpyToDma handle length.toUInt32.toNat,
   .iowrite32 length.toUInt32 dmaDataLenOff,
   .iowrite32 (UInt32.ofNat handle) dmaAddrOff,
   .whileBusy dmaCmdOff,
   .iowrite32 cmd dmaCmdOff,
   .waitEventInterruptible,
   .clearWqFlag,
   .memcpyFromDma handle length.toUInt32.toNat]

def encryptionDmaInterrupt : Nat → UInt64 → List Instr := dmaInterrupt (0x1 ||| 0x4)
def decryptionDmaInterrupt : Nat → UInt64 → List Instr := dmaInterrupt (0x1 ||| 0x2 ||| 0x4)

def encryptionMmioPoll (length : UInt64) : List Instr :=
  [.iowrite32 0x00000000 mmstatusOff,
   .memcpyToio dataOff length.toUInt32.toNat,
   .iowrite32 length.toUInt32 mmdataLenOff,
   .ioread32 mmdataLenOff,
   .whileBusy mmstatusOff,
   .iowrite32 0xa8 mmaddrOff,
   .whileBusy mmstatusOff,
   .memcpyFromio dataOff length.toUInt32.toNat]

/-- Unlike its siblings this one writes the length before the status word. -/
def decryptionMmioPoll (length : UInt64) : List Instr :=
  [.iowrite32 length.toUInt32 mmdataLenOff,
   .iowrite32 0x00000002 mmstatusOff,
   .memcpyToio dataOff length.toUInt32.toNat,
   .ioread32 mmdataLenOff,
   .whileBusy mmstatusOff,
   .iowrite32 0xa8 mmaddrOff,
   .whileBusy mmstatusOff,
   .memcpyFromio dataOff length.toUInt32.toNat]

/-- `encryption_dma_poll` and `decryption_dma_poll`. -/
def dmaPoll (cmd : UInt32) (handle : Nat) (length : UInt64) : List Instr :=
  [.memcpyToDma handle length.toUInt32.toNat,
   .iowrite32 length.toUInt32 dmaDataLenOff,
   .iowrite32 (UInt32.ofNat handle) dmaAddrOff,
   .whileBusy dmaCmdOff,
   .iowrite32 cmd dmaCmdOff,
   .whileBusy dmaCmdOff,
   .memcpyFromDma handle length.toUInt32.toNat]

def encryptionDmaPoll : Nat → UInt64 → List Instr := dmaPoll 0x1
def decryptionDmaPoll : Nat → UInt64 → List Instr := dmaPoll (0x1 ||| 0x2)

/-! ## What a statement does -/

/-- The machine together with the kernel buffer the routine was handed. -/
structure Frame where
  m : Machine
  data : List UInt8

/-- The effect of a statement on its own. Spinning and sleeping have none. -/
def Instr.effect (lat : Nat) : Instr → Frame → Frame
  | .iowrite32 v off, f => { f with m := { f.m with card := Card.iowrite32 lat f.m.card v off } }
  | .ioread32 _, f => f
  | .whileBusy _, f => f
  | .memcpyToio off len, f =>
    { f with
      m := { f.m with
        card := { f.m.card with bar0 := f.m.card.bar0.write off (f.data.take len) } } }
  | .memcpyFromio off len, f => { f with data := f.m.card.bar0.read off len ++ f.data.drop len }
  | .memcpyToDma handle len, f =>
    { f with m := { f.m with host := f.m.host.write handle (f.data.take len) } }
  | .memcpyFromDma handle len, f => { f with data := f.m.host.read handle len ++ f.data.drop len }
  | .waitEventInterruptible, f => f
  | .clearWqFlag, f => { f with m := { f.m with wqFlag := 0 } }

/-! ## A routine on its own -/

/-- What the driver does not control during one call. -/
structure Env where
  /-- How long the operation it triggers takes. -/
  latency : Nat
  /-- The bus address `dma_alloc_coherent` hands out. -/
  dmaHandle : Nat
  /-- The driver never widens the 32-bit DMA mask a PCI device starts with. -/
  dma32 : dmaHandle < 2 ^ 32
  /-- When a signal ends the wait, if one does. -/
  signal : Option Nat
  /-- How many bytes `copy_from_user` would leave uncopied. -/
  copyIn : Nat
  /-- How many bytes `copy_to_user` would leave uncopied. -/
  copyOut : Nat

/-- Poll until the busy bit is clear, at most `fuel` times. -/
def spin (E : Cipher) (off : Nat) : Nat → Machine → Machine
  | 0, m => m
  | fuel + 1, m =>
    if ioread32 m.card off &&& 1 ≠ 0 then spin E off fuel (m.elapse E) else m

/--
Sleep until the flag is set or a signal arrives. The condition is tested before
the signal, as `wait_event_interruptible` does. Once the card has nothing left to
do only a signal can end the sleep; `none` is a sleep that nothing ends.
-/
def waitEvent (E : Cipher) : Option Nat → Nat → Machine → Option Machine
  | signal, 0, m => if m.wqFlag ≠ 0 then some m else if signal.isSome then some m else none
  | signal, fuel + 1, m =>
    if m.wqFlag ≠ 0 then some m
    else if signal = some 0 then some m
    else waitEvent E (signal.map (· - 1)) fuel (m.elapse E)

/-- One statement, with the card making progress while the driver spins or sleeps. -/
def Instr.run (E : Cipher) (env : Env) (i : Instr) (f : Frame) : Option Frame :=
  match i with
  | .whileBusy off => some { f with m := spin E off f.m.ticksLeft f.m }
  | .waitEventInterruptible =>
    (waitEvent E env.signal f.m.ticksLeft f.m).map fun m => { f with m := m }
  | i => some (i.effect env.latency f)

/-- A routine from start to end; `none` when it never returns. -/
def runAll (E : Cipher) (env : Env) : List Instr → Frame → Option Frame
  | [], f => some f
  | i :: is, f => (i.run E env f).bind (runAll E env is)

end LinuxDrivers.Card
