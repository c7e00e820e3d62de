import Mathlib
import LinuxDrivers.Lib.Mem

/-!
# The CryptoCard

What the assignment's device specification says about the card, and nothing
more: the registers the driver touches, the one operation that may be in
progress, and the interrupts it has raised.

The cipher itself lives in the emulator and is a parameter. The specification
promises a bijection of bytes for each key pair, so it is taken as a
permutation: encryption applies it and decryption applies its inverse.

An operation takes an arbitrary number of `ticks` before it completes. Nothing
in the driver depends on how many, which is why every statement further on
quantifies over them.
-/

namespace LinuxDrivers.Card

/-- For each key pair `(a, b)`, the bijection of bytes the card applies. -/
abbrev Cipher := UInt8 → UInt8 → Equiv.Perm UInt8

/-- Rotate letters by `k` places and leave other bytes alone. -/
def rotate (k : Nat) (x : UInt8) : UInt8 :=
  if 65 ≤ x.toNat ∧ x.toNat ≤ 90 then UInt8.ofNat (65 + (x.toNat - 65 + k) % 26)
  else if 97 ≤ x.toNat ∧ x.toNat ≤ 122 then UInt8.ofNat (97 + (x.toNat - 97 + k) % 26)
  else x

theorem rotate_rotate {k k' : Nat} (h : (k + k') % 26 = 0) (x : UInt8) :
    rotate k' (rotate k x) = x := by
  have hx := x.toNat_lt
  have hof : ∀ n, n < 256 → (UInt8.ofNat n).toNat = n := by
    intro n hn
    rw [UInt8.toNat_ofNat']
    exact Nat.mod_eq_of_lt hn
  apply UInt8.toNat_inj.mp
  by_cases h1 : 65 ≤ x.toNat ∧ x.toNat ≤ 90
  · have hr : (rotate k x).toNat = 65 + (x.toNat - 65 + k) % 26 := by
      rw [rotate, if_pos h1, hof _ (by omega)]
    rw [rotate, if_pos (by omega), hof _ (by omega), hr]
    omega
  · by_cases h2 : 97 ≤ x.toNat ∧ x.toNat ≤ 122
    · have hr : (rotate k x).toNat = 97 + (x.toNat - 97 + k) % 26 := by
        rw [rotate, if_neg h1, if_pos h2, hof _ (by omega)]
      rw [rotate, if_neg (by omega), if_pos (by omega), hof _ (by omega), hr]
      omega
    · have hr : rotate k x = x := by rw [rotate, if_neg h1, if_neg h2]
      rw [hr, rotate, if_neg h1, if_neg h2]

/-- The cipher the evaluation programs (`gen.c`) check the card against. -/
def genCipher : Cipher := fun a b =>
  { toFun := rotate (a.toNat + b.toNat)
    invFun := rotate (26 - (a.toNat + b.toNat) % 26)
    left_inv := rotate_rotate (by omega)
    right_inv := rotate_rotate (by omega) }

/-! ## Register offsets in BAR0 -/

def keyOff : Nat := 0x8
def mmdataLenOff : Nat := 0xc
def mmstatusOff : Nat := 0x20
def intStatusOff : Nat := 0x24
def intAckOff : Nat := 0x64
def mmaddrOff : Nat := 0x80
def dmaAddrOff : Nat := 0x90
def dmaDataLenOff : Nat := 0x98
def dmaCmdOff : Nat := 0xa0
def dataOff : Nat := 0xa8

/-! ## State -/

/-- One triggered operation, with the registers as they stood at the trigger. -/
structure Job where
  /-- Decrypt rather than encrypt. -/
  decrypt : Bool
  key : UInt32
  /-- Where the data is: an offset into BAR0, or a bus address for DMA. -/
  addr : Nat
  len : UInt32
  dma : Bool
  /-- Raise an interrupt on completion. -/
  intr : Bool
  /-- How long until completion. -/
  ticks : Nat

structure Device where
  key : UInt32
  mmLen : UInt32
  mmStatus : UInt32
  isr : UInt32
  dmaAddr : UInt32
  dmaLen : UInt32
  dmaCmd : UInt32
  /-- The memory behind BAR0. -/
  bar0 : Mem UInt8
  /-- The operation in progress. -/
  job : Option Job
  /-- Interrupts raised and not yet delivered. -/
  irqs : Nat
  /-- Operations triggered so far. Operations run one at a time, so this numbers them. -/
  started : Nat
  /-- Operations completed so far. -/
  finished : Nat

/-- The card, the memory it reaches by DMA, and the driver's completion flag. -/
structure Machine where
  card : Device
  host : Mem UInt8
  wqFlag : Nat

/-- Key component `a` sits at byte 1 of the key register. -/
def keyA (k : UInt32) : UInt8 := (k >>> 8).toUInt8

/-- Key component `b` sits at byte 0. -/
def keyB (k : UInt32) : UInt8 := k.toUInt8

/-- What the card does to each byte under the key word `k`. -/
def crypt (E : Cipher) (decrypt : Bool) (k : UInt32) : UInt8 → UInt8 :=
  if decrypt then (E (keyA k) (keyB k)).symm else E (keyA k) (keyB k)

/-! ## Register access -/

/-- Bit 0 of the status and command registers reads as "an operation is in progress". -/
def busyBit (c : Device) : UInt32 := if c.job.isSome then 1 else 0

def ioread32 (c : Device) (off : Nat) : UInt32 :=
  if off = mmdataLenOff then c.mmLen
  else if off = mmstatusOff then (c.mmStatus &&& ~~~1) ||| busyBit c
  else if off = intStatusOff then c.isr
  else if off = dmaCmdOff then (c.dmaCmd &&& ~~~1) ||| busyBit c
  else 0

/-- The card accepts a new operation only when it has none in progress. -/
def Device.trigger (c : Device) (j : Job) : Device :=
  if c.job.isSome then c else { c with job := some j, started := c.started + 1 }

/-- The MMIO operation the status bits select, on the length and key last written. -/
def Device.mmJob (c : Device) (lat : Nat) (v : UInt32) : Job :=
  { decrypt := c.mmStatus &&& 2 ≠ 0, key := c.key, addr := v.toNat, len := c.mmLen,
    dma := false, intr := c.mmStatus &&& 0x80 ≠ 0, ticks := lat }

/-- The DMA operation the command bits select. -/
def Device.dmaJob (c : Device) (lat : Nat) (v : UInt32) : Job :=
  { decrypt := v &&& 2 ≠ 0, key := c.key, addr := c.dmaAddr.toNat, len := c.dmaLen,
    dma := true, intr := v &&& 4 ≠ 0, ticks := lat }

/--
A register write. Writing the data address, or bit 0 of the DMA command,
triggers an operation; `lat` is how long it will take.
-/
def iowrite32 (lat : Nat) (c : Device) (v : UInt32) (off : Nat) : Device :=
  if off = keyOff then { c with key := v }
  else if off = mmdataLenOff then { c with mmLen := v }
  else if off = mmstatusOff then { c with mmStatus := v }
  else if off = intAckOff then { c with isr := c.isr &&& ~~~v }
  else if off = dmaAddrOff then { c with dmaAddr := v }
  else if off = dmaDataLenOff then { c with dmaLen := v }
  else if off = mmaddrOff then c.trigger (c.mmJob lat v)
  else if off = dmaCmdOff then
    let c := { c with dmaCmd := v }
    if v &&& 1 ≠ 0 then c.trigger (c.dmaJob lat v) else c
  else c

/-! ## Completion and interrupts -/

/-- The card is done with `j`: it is free again, and raises an interrupt if `j` asked for one. -/
def Device.retire (c : Device) (j : Job) : Device :=
  { c with
    job := none
    finished := c.finished + 1
    irqs := if j.intr then c.irqs + 1 else c.irqs
    isr := if j.intr then c.isr ||| (if j.dma then 0x100 else 0x1) else c.isr }

/-- The operation in progress completes: its bytes are transformed in place. -/
def Machine.complete (E : Cipher) (m : Machine) : Machine :=
  match m.card.job with
  | none => m
  | some j =>
    if j.dma then
      { m with
        card := m.card.retire j
        host := Mem.mapRange (crypt E j.decrypt j.key) j.addr j.len.toNat m.host }
    else
      { m with
        card := { m.card.retire j with
          bar0 := Mem.mapRange (crypt E j.decrypt j.key) j.addr j.len.toNat m.card.bar0 } }

/-- `cryptocard_irq_handle`, run for one interrupt in flight. -/
def cryptocardIrqHandle (m : Machine) : Machine :=
  let istatus := ioread32 m.card intStatusOff
  let card := iowrite32 0 m.card istatus intAckOff
  { m with card := { card with irqs := card.irqs - 1 }, wqFlag := 1 }

/-- How many ticks until the operation in progress is over. -/
def Machine.ticksLeft (m : Machine) : Nat :=
  match m.card.job with
  | none => 0
  | some j => j.ticks + 1

/-- One tick of the card. -/
def Machine.tick (E : Cipher) (m : Machine) : Machine :=
  match m.card.job with
  | none => m
  | some j =>
    if j.ticks = 0 then m.complete E
    else { m with card := { m.card with job := some { j with ticks := j.ticks - 1 } } }

/-- Time passes: the card ticks, and the interrupt it may raise is taken at once. -/
def Machine.elapse (E : Cipher) (m : Machine) : Machine :=
  let m := m.tick E
  if m.card.irqs = 0 then m else cryptocardIrqHandle m

/-! ## Small facts -/

/-- Besides its data, completion only retires the operation. -/
theorem complete_card (E : Cipher) {m : Machine} {j : Job} (hj : m.card.job = some j) :
    ∃ data, (m.complete E).card = { m.card.retire j with bar0 := data } := by
  simp only [Machine.complete, hj]
  split
  · exact ⟨m.card.bar0, rfl⟩
  · exact ⟨_, rfl⟩

theorem complete_wqFlag (E : Cipher) (m : Machine) : (m.complete E).wqFlag = m.wqFlag := by
  unfold Machine.complete
  repeat' split
  all_goals rfl

theorem trigger_irqs (c : Device) (j : Job) : (c.trigger j).irqs = c.irqs := by
  unfold Device.trigger
  split <;> rfl

theorem iowrite32_irqs (lat : Nat) (c : Device) (v : UInt32) (off : Nat) :
    (iowrite32 lat c v off).irqs = c.irqs := by
  simp only [iowrite32, apply_ite Device.irqs, trigger_irqs, ite_self]

theorem keyA_word (a b : UInt8) : keyA (a.toUInt32 <<< 8 ||| b.toUInt32) = a := by
  unfold keyA
  apply UInt8.toBitVec_inj.mp
  ext i hi
  have h1 : 8 + i < 32 := by omega
  have h2 : ¬(8 + i < 8) := by omega
  have h3 : i < 32 := by omega
  simp [h1, h2, h3, hi]

theorem keyB_word (a b : UInt8) : keyB (a.toUInt32 <<< 8 ||| b.toUInt32) = b := by
  unfold keyB
  apply UInt8.toBitVec_inj.mp
  ext i hi
  simp

theorem bit0_set (x : UInt32) : ((x &&& ~~~1) ||| 1) &&& 1 ≠ 0 := by
  intro h
  have h' := congrArg (fun v : UInt32 => v.toBitVec.getLsbD 0) h
  simp at h'

theorem bit0_clear (x : UInt32) : ((x &&& ~~~1) ||| 0) &&& 1 = 0 := by
  apply UInt32.toBitVec_inj.mp
  ext i hi
  simp
  grind

/-- Both busy bits say whether an operation is in progress. -/
theorem busy_iff (c : Device) {off : Nat} (hoff : off = mmstatusOff ∨ off = dmaCmdOff) :
    ioread32 c off &&& 1 ≠ 0 ↔ c.job.isSome := by
  have key : ∀ x : UInt32, (x &&& ~~~1 ||| busyBit c) &&& 1 ≠ 0 ↔ c.job.isSome := by
    intro x
    unfold busyBit
    split
    · rename_i h
      exact iff_of_true (bit0_set x) h
    · rename_i h
      exact iff_of_false (not_not.mpr (bit0_clear x)) h
  rcases hoff with rfl | rfl
  · exact key c.mmStatus
  · exact key c.dmaCmd

end LinuxDrivers.Card
