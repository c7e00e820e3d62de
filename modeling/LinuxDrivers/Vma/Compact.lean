import LinuxDrivers.Vma.Move

/-!
# Compaction

`IOCTL_COMPACT_VMA` is to move the mapped pages of a range to its front and to tell
the caller, in a table with one entry for each page, where every page went. Two
cursors are meant to meet: `i` goes up over mapped pages, `j` comes down over free
ones, and the pages they stop at change places.

All cursors are 64-bit and the byte size of the range is a 32-bit product, so every
sum and difference here is taken modulo a power of two.

They never do meet that way. The scan down stops at `i` at the latest, so after it
`j` is at least `i`, which is the condition to leave the loop: no page is moved, and
the only entry that is ever written is the first, with the first page's own address.
-/

namespace LinuxDrivers.Vma

/-- `struct input` -/
structure Input where
  addr : Nat
  length : Nat
  buff : Nat
  deriving DecidableEq

/-- `length` is 32 bits wide, and `buff` is aligned. -/
def Input.decode (bs : List UInt8) : Input :=
  ⟨fromLe (bs.take 8), fromLe ((bs.drop 8).take 4), fromLe ((bs.drop 16).take 8)⟩

/-- The request at `param`. -/
def Space.input (s : Space) (param : Nat) : Input := Input.decode (s.mem.read param 24)

/-- Where a call left the code. -/
inductive CompactExit where
  /-- It did not: it is still in a loop. -/
  | running
  /-- The request could not be read. -/
  | argFault
  /-- An entry of the table could not be written. -/
  | tableFault
  /-- A page could not be copied. -/
  | copyFault
  | remapFailed
  | done
  deriving DecidableEq

/-- The value returned, if the call returns. -/
def CompactExit.ret : CompactExit → Option Int
  | .running => none
  | .argFault | .tableFault | .copyFault | .done => some 0
  | .remapFailed => some (-22)

/-- A `copy_to_user` into the table. -/
structure TableWrite where
  index : Nat
  entry : Address
  ok : Bool

/-- The variables of a call, its memory, and the table writes made so far. -/
structure Compaction where
  i : Nat
  j : Nat
  toAddr : Nat
  fromAddr : Nat
  temp : Address
  space : Space
  log : List TableWrite

variable (K : Kernel)
/- `remap_pfn_range(vma, addr, 0, 4096, PAGE_KERNEL)`; `vma` may be null. -/
variable (R : Option VmAreaStruct → Nat → Space → Option Space)
variable (inp : Input)

/-! ## The code -/

/-- Go on, unless the call has been left. -/
def andThen (r : Option CompactExit × Compaction)
    (f : Compaction → Option CompactExit × Compaction) : Option CompactExit × Compaction :=
  match r.1 with
  | some e => (some e, r.2)
  | none => f r.2

/-- `(addr - vma_addr) >> 12`, as an `unsigned` -/
def tableIndex (addr : Nat) : Nat := (addr + 2 ^ 64 - inp.addr) % 2 ^ 64 / 4096 % 2 ^ 32

/-- Write `temp` to an entry of the table. -/
def writeEntry (index : Nat) (c : Compaction) : Option CompactExit × Compaction :=
  let r := K.copyToUser c.space ((inp.buff + index * 16) % 2 ^ 64) c.temp.encode
  (if r.1 then none else some .tableFault,
    { c with space := r.2, log := c.log ++ [⟨index, c.temp, r.1⟩] })

/-- The loop of `i` up to the first page that is not mapped. -/
def scanUp : Nat → Compaction → Option CompactExit × Compaction
  | 0, c => (some .running, c)
  | fuel + 1, c =>
    if c.i < c.j then
      if (c.space.mtreeLoad c.i).isNone then (none, { c with toAddr := c.i })
      else
        -- `to_addr`, not `i`: the same entry each time
        andThen (writeEntry K inp (tableIndex inp c.toAddr)
          { c with temp := ⟨c.toAddr, c.toAddr⟩ }) fun c =>
        scanUp fuel { c with i := (c.i + 4096) % 2 ^ 64 }
    else (none, c)

/-- The loop of `j` down to the last page that is mapped. -/
def scanDown : Nat → Compaction → Option CompactExit × Compaction
  | 0, c => (some .running, c)
  | fuel + 1, c =>
    if c.i < c.j then
      if (c.space.mtreeLoad c.j).isSome then (none, { c with fromAddr := c.j })
      else scanDown fuel { c with j := (c.j + 2 ^ 64 - 4096) % 2 ^ 64 }
    else (none, c)

/-- The two pages found change places, and the table says so. -/
def swapPages (vma : Option VmAreaStruct) (c : Compaction) : Option CompactExit × Compaction :=
  match K.copyFromUser c.space c.toAddr 4096 with
  | none => (some .copyFault, c)
  | some buff1 =>
    match K.copyToUser c.space c.fromAddr buff1 with
    | (false, s) => (some .copyFault, { c with space := s })
    | (true, s) =>
      match R vma c.fromAddr s with
      | none => (some .remapFailed, { c with space := s })
      | some s =>
        andThen (writeEntry K inp (tableIndex inp c.fromAddr)
          { c with space := s, temp := ⟨c.fromAddr, c.toAddr⟩ }) fun c =>
        writeEntry K inp (tableIndex inp c.toAddr) { c with temp := ⟨c.toAddr, c.fromAddr⟩ }

/-- More steps than a cursor can make in 64 bits. -/
def compactFuel : Nat := 2 ^ 52 + 1

def compactLoop (vma : Option VmAreaStruct) :
    Nat → Compaction → Option CompactExit × Compaction
  | 0, c => (some .running, c)
  | fuel + 1, c =>
    if c.i < c.j then
      andThen (scanUp K inp compactFuel { c with i := c.toAddr }) fun c =>
      andThen (scanDown compactFuel { c with j := c.fromAddr }) fun c =>
      if c.j ≥ c.i then (none, c)
      else andThen (swapPages K R inp vma c) (compactLoop vma fuel)
    else (none, c)

/-- The first address after the range. -/
def Input.rangeEnd : Nat := (inp.addr + inp.length * 4096 % 2 ^ 32) % 2 ^ 64

/-- The variables before the loops. -/
def Compaction.start (s : Space) : Compaction where
  i := inp.addr
  j := inp.rangeEnd
  toAddr := inp.addr
  fromAddr := inp.rangeEnd
  temp := ⟨inp.addr, inp.addr⟩
  space := s
  log := []

/-- The call on a request that was read. -/
def compact (s : Space) : Option CompactExit × Compaction :=
  andThen (compactLoop K R inp (s.findVma inp.rangeEnd) compactFuel (Compaction.start inp s))
    (writeEntry K inp (tableIndex inp inp.addr))

/-- `IOCTL_COMPACT_VMA`: how the call ended, the address space and the table writes. -/
def compactVma (s : Space) (param : Nat) : CompactExit × Space × List TableWrite :=
  match K.copyFromUser s param 24 with
  | none => (.argFault, s, [])
  | some bytes =>
    let r := compact K R (Input.decode bytes) s
    (r.1.getD .done, r.2.space, r.2.log)

/-! ## Entry 0 -/

section

variable {K R inp} {s : Space} {c : Compaction}

theorem andThen_none {r : Option CompactExit × Compaction} (h : r.1 = none)
    (f : Compaction → Option CompactExit × Compaction) : andThen r f = f r.2 := by
  unfold andThen
  rw [h]

theorem andThen_some {r : Option CompactExit × Compaction} {e : CompactExit} (h : r.1 = some e)
    (f : Compaction → Option CompactExit × Compaction) : andThen r f = (some e, r.2) := by
  unfold andThen
  rw [h]

/-- The entry that says that the first page stayed where it was. -/
def Input.stay (inp : Input) : Address := ⟨inp.addr, inp.addr⟩

variable (K inp) in
/-- So far entry 0 was written, if anything was, and said that the first page stayed. -/
structure Marked (s : Space) (c : Compaction) : Prop where
  temp : c.temp = inp.stay
  log : ∀ w ∈ c.log, w = ⟨0, inp.stay, true⟩
  space : c.log = [] ∧ c.space = s
    ∨ K.CanWrite s.toMmStruct inp.buff 16
      ∧ c.space = { s with mem := s.mem.write inp.buff inp.stay.encode }

variable (K inp) in
/-- The first attempt to write entry 0 failed. -/
structure Failed (s : Space) (c : Compaction) : Prop where
  log : c.log = [⟨0, inp.stay, false⟩]
  space : c.space = (K.copyToUser s inp.buff inp.stay.encode).2

theorem tableIndex_addr (inp : Input) : tableIndex inp inp.addr = 0 := by
  unfold tableIndex
  rw [Nat.add_sub_cancel_left, Nat.mod_self]
  decide

theorem fromLe_lt (bs : List UInt8) : fromLe bs < 256 ^ bs.length := by
  induction bs with
  | nil => decide
  | cons b bs ih =>
      have hb := b.toNat_lt
      show b.toNat + 256 * fromLe bs < 256 ^ (bs.length + 1)
      rw [Nat.pow_succ]
      omega

/-- A write of entry 0 that can be made leaves it marked. -/
theorem writeEntry_ok (hm : Marked K inp s c) (hb : inp.buff < 2 ^ 64)
    (hw : K.CanWrite s.toMmStruct inp.buff 16) :
    (writeEntry K inp 0 c).1 = none ∧ Marked K inp s (writeEntry K inp 0 c).2
      ∧ (writeEntry K inp 0 c).2.log ≠ [] := by
  have haddr : (inp.buff + 0 * 16) % 2 ^ 64 = inp.buff := by
    rw [Nat.zero_mul, Nat.add_zero, Nat.mod_eq_of_lt hb]
  -- whether this is the first write or not, the space is the same after it
  have hcopy : K.copyToUser c.space inp.buff inp.stay.encode
      = (true, { s with mem := s.mem.write inp.buff inp.stay.encode }) := by
    rcases hm.space with ⟨-, hs⟩ | ⟨-, hs⟩
    · rw [hs, copyToUser_of_canWrite]
      rw [Address.length_encode]
      exact hw
    · rw [hs, copyToUser_of_canWrite]
      · dsimp only
        rw [Mem.write_write_self]
      · rw [Address.length_encode]
        exact hw
  unfold writeEntry
  rw [haddr, hm.temp, hcopy]
  refine ⟨rfl, ⟨rfl, ?_, Or.inr ⟨hw, rfl⟩⟩, by simp⟩
  intro w hwm
  rcases List.mem_append.mp hwm with h | h
  · exact hm.log w h
  · exact List.mem_singleton.mp h

/-- A write of entry 0 that cannot be made is the first one. -/
theorem writeEntry_fault (hm : Marked K inp s c) (hb : inp.buff < 2 ^ 64)
    (hw : ¬K.CanWrite s.toMmStruct inp.buff 16) :
    (writeEntry K inp 0 c).1 = some .tableFault ∧ Failed K inp s (writeEntry K inp 0 c).2 := by
  have haddr : (inp.buff + 0 * 16) % 2 ^ 64 = inp.buff := by
    rw [Nat.zero_mul, Nat.add_zero, Nat.mod_eq_of_lt hb]
  rcases hm.space with ⟨hlog, hs⟩ | ⟨hw', -⟩
  swap
  · exact absurd hw' hw
  have hfail : (K.copyToUser s inp.buff inp.stay.encode).1 = false := by
    rw [Bool.eq_false_iff]
    intro h
    rw [copyToUser_fst_eq_true_iff, Address.length_encode] at h
    exact hw h
  unfold writeEntry
  rw [haddr, hm.temp, hs, hlog]
  dsimp only
  rw [hfail]
  exact ⟨rfl, rfl, rfl⟩

/-! ## The loops -/

/-- The cursors are a whole number of pages apart, the right way around. -/
structure Ordered (c : Compaction) : Prop where
  le : c.i ≤ c.j
  below : c.j < 2 ^ 64
  pages : c.i % 4096 = c.j % 4096

/-- The scan up keeps the cursors in order and marks entry 0, or fails to. -/
theorem scanUp_spec (hb : inp.buff < 2 ^ 64) {fuel : Nat} (hm : Marked K inp s c)
    (hto : c.toAddr = inp.addr) (ho : Ordered c) (hfuel : c.j < c.i + fuel * 4096) :
    ((scanUp K inp fuel c).1 = none ∧ Marked K inp s (scanUp K inp fuel c).2
        ∧ Ordered (scanUp K inp fuel c).2 ∧ (scanUp K inp fuel c).2.j = c.j
        ∧ (scanUp K inp fuel c).2.fromAddr = c.fromAddr)
      ∨ ((scanUp K inp fuel c).1 = some .tableFault ∧ ¬K.CanWrite s.toMmStruct inp.buff 16
        ∧ Failed K inp s (scanUp K inp fuel c).2) := by
  induction fuel generalizing c with
  | zero =>
      have hle := ho.le
      omega
  | succ fuel ih =>
      have hle := ho.le
      have hbelow := ho.below
      have hpages := ho.pages
      rw [scanUp]
      split
      swap
      · exact Or.inl ⟨rfl, hm, ho, rfl, rfl⟩
      rename_i hlt
      split
      · exact Or.inl ⟨rfl, ⟨hm.temp, hm.log, hm.space⟩, ⟨hle, hbelow, hpages⟩, rfl, rfl⟩
      -- page `i` is mapped, and entry 0 is written
      have hm' : Marked K inp s { c with temp := ⟨c.toAddr, c.toAddr⟩ } :=
        ⟨by rw [hto]; rfl, hm.log, hm.space⟩
      rw [hto, tableIndex_addr]
      rw [hto] at hm'
      by_cases hw : K.CanWrite s.toMmStruct inp.buff 16
      · obtain ⟨hnone, hmark, -⟩ := writeEntry_ok hm' hb hw
        rw [andThen_none hnone]
        have hnext : (c.i + 4096) % 2 ^ 64 = c.i + 4096 := Nat.mod_eq_of_lt (by omega)
        refine ih ⟨hmark.temp, hmark.log, hmark.space⟩ rfl ⟨?_, hbelow, ?_⟩ ?_
        · show (c.i + 4096) % 2 ^ 64 ≤ c.j
          omega
        · show (c.i + 4096) % 2 ^ 64 % 4096 = c.j % 4096
          omega
        · show c.j < (c.i + 4096) % 2 ^ 64 + fuel * 4096
          rw [hnext]
          rw [Nat.succ_mul] at hfuel
          omega
      · obtain ⟨hsome, hfail⟩ := writeEntry_fault hm' hb hw
        rw [andThen_some hsome]
        exact Or.inr ⟨rfl, hw, hfail⟩

/-- The scan down ends no lower than it may, and touches nothing but its variables. -/
theorem scanDown_spec {fuel : Nat} (ho : Ordered c) (hfuel : c.j < c.i + fuel * 4096) :
    ∃ j fromAddr, scanDown fuel c = (none, { c with j := j, fromAddr := fromAddr }) ∧ c.i ≤ j := by
  induction fuel generalizing c with
  | zero =>
      have hle := ho.le
      omega
  | succ fuel ih =>
      have hle := ho.le
      have hbelow := ho.below
      have hpages := ho.pages
      rw [scanDown]
      split
      swap
      · exact ⟨c.j, c.fromAddr, rfl, hle⟩
      rename_i hlt
      split
      · exact ⟨c.j, c.j, rfl, hle⟩
      have hnext : (c.j + 2 ^ 64 - 4096) % 2 ^ 64 = c.j - 4096 := by omega
      rw [hnext]
      refine ih (c := { c with j := c.j - 4096 }) ⟨?_, ?_, ?_⟩ ?_
      · show c.i ≤ c.j - 4096
        omega
      · show c.j - 4096 < 2 ^ 64
        omega
      · show c.i % 4096 = (c.j - 4096) % 4096
        omega
      · show c.j - 4096 < c.i + fuel * 4096
        rw [Nat.succ_mul] at hfuel
        omega

/-- After both scans the outer loop is left: `j` has not passed `i`. -/
theorem scanDown_leaves {fuel : Nat} (ho : Ordered c) (hfrom : c.fromAddr = c.j)
    (hfuel : c.j < c.i + fuel * 4096) (f : Compaction → Option CompactExit × Compaction) :
    ∃ j fromAddr, andThen (scanDown fuel { c with j := c.fromAddr })
        (fun c => if c.j ≥ c.i then (none, c) else f c)
      = (none, { c with j := j, fromAddr := fromAddr }) := by
  have hsame : { c with j := c.fromAddr } = c := by
    cases c
    dsimp only at hfrom ⊢
    rw [hfrom]
  obtain ⟨j, fromAddr, hdown, hle⟩ := scanDown_spec ho hfuel
  refine ⟨j, fromAddr, ?_⟩
  rw [hsame, hdown, andThen_none rfl]
  exact if_pos hle

theorem marked_start (inp : Input) (s : Space) : Marked K inp s (Compaction.start inp s) :=
  ⟨rfl, fun w hw => absurd hw (by simp [Compaction.start]), Or.inl ⟨rfl, rfl⟩⟩

/-- The outer loop is left in its first round, before any page is moved. -/
theorem compactLoop_spec (hb : inp.buff < 2 ^ 64) (s : Space) (vma : Option VmAreaStruct)
    (fuel : Nat) :
    ((compactLoop K R inp vma (fuel + 1) (Compaction.start inp s)).1 = none
        ∧ Marked K inp s (compactLoop K R inp vma (fuel + 1) (Compaction.start inp s)).2)
      ∨ ((compactLoop K R inp vma (fuel + 1) (Compaction.start inp s)).1 = some .tableFault
        ∧ ¬K.CanWrite s.toMmStruct inp.buff 16
        ∧ Failed K inp s (compactLoop K R inp vma (fuel + 1) (Compaction.start inp s)).2) := by
  have hend : inp.rangeEnd < 2 ^ 64 := Nat.mod_lt _ (by decide)
  have hpages : inp.addr % 4096 = inp.rangeEnd % 4096 := by
    unfold Input.rangeEnd
    omega
  have hfuel : ∀ a, inp.rangeEnd < a + compactFuel * 4096 := by
    intro a
    have hsteps : (2 : Nat) ^ 64 ≤ compactFuel * 4096 := by decide
    exact Nat.lt_of_lt_of_le hend (Nat.le_trans hsteps (Nat.le_add_left ..))
  rw [compactLoop]
  split
  swap
  · exact Or.inl ⟨rfl, marked_start inp s⟩
  rename_i hlt
  have ho : Ordered (Compaction.start inp s) := ⟨Nat.le_of_lt hlt, hend, hpages⟩
  have hsame : { Compaction.start inp s with i := (Compaction.start inp s).toAddr }
      = Compaction.start inp s := rfl
  rw [hsame]
  rcases scanUp_spec hb (marked_start inp s) rfl ho (hfuel _) with
    ⟨hnone, hm, ho', hj, hfrom⟩ | ⟨hsome, hw, hfail⟩
  · have hfuel' : (scanUp K inp compactFuel (Compaction.start inp s)).2.j
        < (scanUp K inp compactFuel (Compaction.start inp s)).2.i + compactFuel * 4096 := by
      rw [hj]
      exact hfuel _
    obtain ⟨j, fromAddr, hleave⟩ := scanDown_leaves ho' (hfrom.trans hj.symm) hfuel' fun c =>
      andThen (swapPages K R inp vma c) (compactLoop K R inp vma fuel)
    rw [andThen_none hnone, hleave]
    exact Or.inl ⟨rfl, hm.temp, hm.log, hm.space⟩
  · rw [andThen_some hsome]
    exact Or.inr ⟨rfl, hw, hfail⟩

/-- What a call does that could read its request: it marks entry 0, or fails to. -/
theorem compact_spec (hb : inp.buff < 2 ^ 64) (s : Space) :
    (K.CanWrite s.toMmStruct inp.buff 16 → (compact K R inp s).1 = none
        ∧ Marked K inp s (compact K R inp s).2 ∧ (compact K R inp s).2.log ≠ [])
      ∧ (¬K.CanWrite s.toMmStruct inp.buff 16 → (compact K R inp s).1 = some .tableFault
        ∧ Failed K inp s (compact K R inp s).2) := by
  have hloop := compactLoop_spec (K := K) (R := R) hb s (s.findVma inp.rangeEnd) (2 ^ 52)
  rw [show 2 ^ 52 + 1 = compactFuel from rfl] at hloop
  unfold compact
  rw [tableIndex_addr]
  rcases hloop with ⟨hnone, hm⟩ | ⟨hsome, hw, hfail⟩
  · rw [andThen_none hnone]
    exact ⟨writeEntry_ok hm hb, writeEntry_fault hm hb⟩
  · rw [andThen_some hsome]
    exact ⟨fun h => absurd h hw, fun _ => ⟨rfl, hfail⟩⟩

end

end LinuxDrivers.Vma
