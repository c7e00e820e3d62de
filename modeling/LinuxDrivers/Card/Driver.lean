import LinuxDrivers.Lib.Run
import LinuxDrivers.Card.Script

/-!
# The cryptocard driver

`cryptocard_fopen`, `cryptocard_frelease` and `cryptocard_ioctl`, over the state
they share: the card, one spinlock, one completion flag, and a configuration per
open file.

A call returns `none` when it never comes back: it spins on a lock nobody will
release, or sleeps for an interrupt nobody will raise. Everything a call does not
control arrives with it in an `Env`, so a list of events fixes a whole run.
-/

namespace LinuxDrivers.Card

structure CcKey where
  a : UInt8
  b : UInt8

structure CcConfig where
  modeIntDma : UInt8
  set : UInt8

structure CcOp where
  addr : Nat
  length : UInt64
  isMapped : UInt8

/-- Per-file configuration, the file's `private_data`. -/
structure CryptocardConfig where
  a : UInt8
  b : UInt8
  dma : UInt8
  interrupt : UInt8
  isKeyset : UInt8
  isConfigset : UInt8

structure Sys where
  m : Machine
  /-- `cc_spinlock` is held. -/
  ccSpinlock : Bool
  /-- The open files. -/
  files : Nat → Option CryptocardConfig
  /-- The memory of each process. -/
  user : Nat → Mem UInt8
  deviceOpened : Int
  /-- Module references taken with `try_module_get` and not yet put. -/
  moduleRefs : Int

/-- An ioctl command with the structure its argument points to. -/
inductive Cmd where
  | setKey (key : CcKey)
  | setConfig (cfg : CcConfig)
  | encrypt (op : CcOp)
  | decrypt (op : CcOp)
  /-- Any other command number. -/
  | other (cmd : UInt32)

def efault : Int := 14
def einval : Int := 22

/-! ## User copies -/

/-- The buffer after `copy_from_user`; bytes that could not be read are zero-filled. -/
def copyFromUser (env : Env) (user : Mem UInt8) (addr n : Nat) : List UInt8 :=
  user.read addr (n - min env.copyIn n) ++ List.replicate (min env.copyIn n) 0

/-- `copy_to_user`: how many bytes are left uncopied, and the memory afterwards. -/
def copyToUser (env : Env) (user : Mem UInt8) (addr : Nat) (buff : List UInt8) (n : Nat) :
    Nat × Mem UInt8 :=
  let left := min env.copyOut n
  (left, user.write addr (buff.take (n - left)))

/-! ## ENCRYPT and DECRYPT -/

/-- The six transfer routines one command chooses from. -/
structure Routines where
  mmioPoll : UInt64 → List Instr
  mmioInterrupt : UInt64 → List Instr
  dmaPoll : Nat → UInt64 → List Instr
  dmaInterrupt : Nat → UInt64 → List Instr
  mmapPolling : UInt64 → List Instr
  mmapInterrupt : UInt64 → List Instr

def encryptRoutines : Routines where
  mmioPoll := encryptionMmioPoll
  mmioInterrupt := encryptionMmioInterrupt
  dmaPoll := encryptionDmaPoll
  dmaInterrupt := encryptionDmaInterrupt
  mmapPolling := encryptionMmapPolling
  mmapInterrupt := encryptionMmapInterrupt

def decryptRoutines : Routines where
  mmioPoll := decryptionMmioPoll
  mmioInterrupt := decryptionMmioInterrupt
  dmaPoll := decryptionDmaPoll
  dmaInterrupt := decryptionDmaInterrupt
  mmapPolling := decryptionMmapPolling
  mmapInterrupt := decryptionMmapInterrupt

/-- The routines of the `ENCRYPT` case, or of the `DECRYPT` case. -/
def routines (decrypt : Bool) : Routines := if decrypt then decryptRoutines else encryptRoutines

/-- The routine an unmapped request runs, by the file's configuration. -/
def Routines.unmapped (r : Routines) (cfg : CryptocardConfig) (env : Env) (length : UInt64) :
    List Instr :=
  if cfg.dma = 0 then
    if cfg.interrupt = 0 then r.mmioPoll length else r.mmioInterrupt length
  else
    if cfg.interrupt = 0 then r.dmaPoll env.dmaHandle length
    else r.dmaInterrupt env.dmaHandle length

/-- The routine a mapped request runs; DMA is not consulted. -/
def Routines.mapped (r : Routines) (cfg : CryptocardConfig) (length : UInt64) : List Instr :=
  if cfg.interrupt = 0 then r.mmapPolling length else r.mmapInterrupt length

/--
The body that the `ENCRYPT` and `DECRYPT` cases share, up to the routines.

The lock is released on one path only: an unmapped request whose result was
copied out in full.
-/
def cryptRequest (E : Cipher) (r : Routines) (env : Env) (pid : Nat) (cfg : CryptocardConfig)
    (op : CcOp) (s : Sys) : Option (Int × Sys) :=
  if s.ccSpinlock then none
  else
    let s := { s with ccSpinlock := true }
    let key := cfg.a.toUInt32 <<< 8 ||| cfg.b.toUInt32
    let m := { s.m with card := iowrite32 env.latency s.m.card key keyOff }
    if op.isMapped = 0 then
      let buff := copyFromUser env (s.user pid) op.addr op.length.toNat
      match runAll E env (r.unmapped cfg env op.length) ⟨m, buff⟩ with
      | none => none
      | some f =>
        let (left, mem) := copyToUser env (s.user pid) op.addr f.data op.length.toNat
        let s := { s with m := f.m, user := Function.update s.user pid mem }
        if left ≠ 0 then some (efault, s)
        else some (0, { s with ccSpinlock := false })
    else
      match runAll E env (r.mapped cfg op.length) ⟨m, []⟩ with
      | none => none
      | some f => some (0, { s with m := f.m })

/-! ## The file operations -/

/-- Store a file's configuration. -/
def Sys.setFile (s : Sys) (fd : Nat) (cfg : Option CryptocardConfig) : Sys :=
  { s with files := Function.update s.files fd cfg }

/--
`cryptocard_fopen`. `mem` is what `kmalloc` returned, with whatever key bytes the
memory happened to hold. The counters are raised before the allocation and not
lowered when it fails.
-/
def cryptocardFopen (mem : Option (UInt8 × UInt8)) (fd : Nat) (s : Sys) : Int × Sys :=
  let s := { s with deviceOpened := s.deviceOpened + 1, moduleRefs := s.moduleRefs + 1 }
  match mem with
  | none => (-1, s)
  | some (a, b) =>
    (0, s.setFile fd
      (some { a := a, b := b, dma := 0, interrupt := 0, isKeyset := 0, isConfigset := 0 }))

def cryptocardFrelease (fd : Nat) (s : Sys) : Int × Sys :=
  let s := { s with deviceOpened := s.deviceOpened - 1, moduleRefs := s.moduleRefs - 1 }
  (0, s.setFile fd none)

def cryptocardIoctl (E : Cipher) (env : Env) (pid fd : Nat) (rconfig : CryptocardConfig)
    (cmd : Cmd) (s : Sys) : Option (Int × Sys) :=
  match cmd with
  | .setKey cckey =>
    some (0, s.setFile fd (some { rconfig with a := cckey.a, b := cckey.b, isKeyset := 1 }))
  | .setConfig cfg =>
    let rconfig :=
      if cfg.modeIntDma = 0 then { rconfig with interrupt := cfg.set }
      else { rconfig with dma := cfg.set }
    some (0, s.setFile fd
      (some (if rconfig.isConfigset = 0 then { rconfig with isConfigset := 1 } else rconfig)))
  | .encrypt ccop => cryptRequest E (routines false) env pid rconfig ccop s
  | .decrypt ccop => cryptRequest E (routines true) env pid rconfig ccop s
  | .other _ => some (-einval, s)

/-! ## Runs -/

/-- What `cryptocard_probe` leaves behind: no file open, the lock free, an idle card. -/
structure Sys.Initial (s : Sys) : Prop where
  files : s.files = fun _ => none
  lock : s.ccSpinlock = false
  job : s.m.card.job = none
  irqs : s.m.card.irqs = 0
  flag : s.m.wqFlag = 0
  opened : s.deviceOpened = 0
  refs : s.moduleRefs = 0

/-- A freshly probed card over given process memories. -/
def Sys.probed (user : Nat → Mem UInt8) : Sys where
  m :=
    { card :=
        { key := 0, mmLen := 0, mmStatus := 0, isr := 0, dmaAddr := 0, dmaLen := 0, dmaCmd := 0,
          bar0 := fun _ => 0, job := none, irqs := 0, started := 0, finished := 0 }
      host := fun _ => 0
      wqFlag := 0 }
  ccSpinlock := false
  files := fun _ => none
  user := user
  deviceOpened := 0
  moduleRefs := 0

theorem Sys.probed_initial (user : Nat → Mem UInt8) : (Sys.probed user).Initial :=
  ⟨rfl, rfl, rfl, rfl, rfl, rfl, rfl⟩

/-- A call during which nothing happens to the driver. -/
def Env.calm : Env where
  latency := 2
  dmaHandle := 0x100000
  dma32 := by decide
  signal := none
  copyIn := 0
  copyOut := 0

inductive Call where
  | fopen (mem : Option (UInt8 × UInt8))
  | ioctl (cmd : Cmd)
  | frelease

/-- A call by process `pid` on file `fd`. -/
structure Event where
  pid : Nat
  fd : Nat
  env : Env
  call : Call

/-- The kernel opens free file slots only, and reaches the driver through open files only. -/
def Sys.step (E : Cipher) (s : Sys) (e : Event) : Option Sys :=
  match e.call, s.files e.fd with
  | .fopen mem, none => some (cryptocardFopen mem e.fd s).2
  | .fopen _, some _ => some s
  | .ioctl cmd, some cfg => (cryptocardIoctl E e.env e.pid e.fd cfg cmd s).map Prod.snd
  | .ioctl _, none => some s
  | .frelease, some _ => some (cryptocardFrelease e.fd s).2
  | .frelease, none => some s

end LinuxDrivers.Card
