import LinuxDrivers.Vma.Kernel

/-!
# Moving a range

`IOCTL_MVE_VMA_TO` and `IOCTL_MVE_VMA`: map a new area with the old one's
attributes, copy page by page, unmap the old pages. The first is told where to go;
the second looks for a hole after the area. The source writes the common part out
twice, and so do the two definitions here; `relocate` is that part as one function,
and each command is shown to be its own checks around it.

A call is described by where it left the code, `MoveExit`. Several exits return 0,
among them three where a copy failed.
-/

namespace LinuxDrivers.Vma

variable (K : Kernel)

/-! ## The argument -/

/-- A little-endian number. -/
def fromLe (bs : List UInt8) : Nat := bs.foldr (fun b n => b.toNat + 256 * n) 0

/-- The eight bytes of an `unsigned long`. -/
def toLe (n : Nat) : List UInt8 := (List.range 8).map fun i => UInt8.ofNat (n / 256 ^ i)

/-- `struct address` -/
structure Address where
  fromAddr : Nat
  toAddr : Nat
  deriving DecidableEq

def Address.decode (bs : List UInt8) : Address := ⟨fromLe (bs.take 8), fromLe ((bs.drop 8).take 8)⟩

def Address.encode (a : Address) : List UInt8 := toLe a.fromAddr ++ toLe a.toAddr

theorem Address.length_encode (a : Address) : a.encode.length = 16 := by
  simp [Address.encode, toLe]

/-- The structure at `param`. -/
def Space.address (s : Space) (param : Nat) : Address := Address.decode (s.mem.read param 16)

/-! ## The common parts -/

/-- `vma_pages(vma)` -/
def vmaPages (vma : VmAreaStruct) : Nat := (vma.stop - vma.start) / 4096

/-- What is left of the area from `vmaAddr` on. -/
def sizeFrom (vma : VmAreaStruct) (vmaAddr : Nat) : Nat :=
  vmaPages vma * 4096 - (vmaAddr - vma.start)

def protOf (vma : VmAreaStruct) : Prot :=
  { read := vma.data.attr.read, write := vma.data.attr.write, exec := vma.data.attr.exec }

def flagsOf (vma : VmAreaStruct) : MapFlags :=
  { anonymous := !vma.data.vmOps, shared := vma.data.attr.shared }

/-- `int iterations = size/4096`, counted down to zero with wrap-around. -/
def iterations (size : Nat) : Nat := size / 4096 % 2 ^ 32

/-- Where a call left the code. -/
inductive MoveExit where
  /-- The argument could not be read. -/
  | argFault
  /-- `from_addr` is not mapped. -/
  | noSource
  /-- `to_addr` is mapped. -/
  | destMapped
  | notInVma
  | noHole
  | mmapFailed
  /-- A source page could not be read. -/
  | readFault
  /-- A destination page could not be written. -/
  | writeFault
  /-- The result could not be written back. -/
  | writeBackFault
  | moved
  deriving DecidableEq

def MoveExit.ret : MoveExit → Int
  | .argFault | .readFault | .writeFault | .moved => 0
  | .noSource | .destMapped | .notInVma | .noHole | .mmapFailed | .writeBackFault => -1

/-- The copy loop: how it failed, if it did, and the space it left. -/
def copyPages : Nat → Nat → Nat → Space → Option MoveExit × Space
  | 0, _, _, s => (none, s)
  | n + 1, vmaAddr, toAddr, s =>
    match K.copyFromUser s vmaAddr 4096 with
    | none => (some .readFault, s)
    | some buff1 =>
      match K.copyToUser s toAddr buff1 with
      | (false, s) => (some .writeFault, s)
      | (true, s) => copyPages n (vmaAddr + 4096) (toAddr + 4096) s

/-! ## IOCTL_MVE_VMA_TO -/

def mveVmaTo (s : Space) (param : Nat) : MoveExit × Space :=
  match K.copyFromUser s param 16 with
  | none => (.argFault, s)
  | some buff =>
    let vmaAddr := (Address.decode buff).fromAddr
    let toAddr := (Address.decode buff).toAddr
    if (s.mtreeLoad vmaAddr).isNone then (.noSource, s)
    else if (s.mtreeLoad toAddr).isSome then (.destMapped, s)
    else
      match s.findVma vmaAddr with
      | none => (.notInVma, s)
      | some vma =>
        if vma.start > vmaAddr then (.notInVma, s)
        else
          let size := sizeFrom vma vmaAddr
          match K.vmMmap s toAddr size (protOf vma) (flagsOf vma) with
          | none => (.mmapFailed, s)
          | some (_, s) =>
            -- the copies go to `to_addr`, wherever the new area is
            match copyPages K (iterations size) vmaAddr toAddr s with
            | (some e, s) => (e, s)
            | (none, s) => (.moved, s.vmMunmap (Address.decode buff).fromAddr size)

/-! ## IOCTL_MVE_VMA -/

/--
The search for a hole: `need` free pages in a row, one more than the area has. The
first argument bounds the number of pages looked at, `j` counts the free ones seen
in a row. Yields the two variables as they stand after the loop.
-/
def findHole (mm : MmStruct) (need : Nat) : Nat → Nat → Nat → Nat × Nat
  | 0, toAddr, j => (toAddr, j)
  | fuel + 1, toAddr, j =>
    if toAddr > 0x7fffffffffff then (toAddr, j)
    else if (mm.mtreeLoad toAddr).isNone then
      if j + 1 = need then (toAddr, j + 1) else findHole mm need fuel (toAddr + 4096) (j + 1)
    else findHole mm need fuel (toAddr + 4096) 0

/-- More pages than the loop can look at. -/
def holeFuel : Nat := 2 ^ 35 + 1

def mveVma (s : Space) (param : Nat) : MoveExit × Space :=
  match K.copyFromUser s param 16 with
  | none => (.argFault, s)
  | some buff =>
    let vmaAddr := (Address.decode buff).fromAddr
    if (s.mtreeLoad vmaAddr).isNone then (.noSource, s)
    else
      match s.findVma vmaAddr with
      | none => (.notInVma, s)
      | some vma =>
        if vma.start > vmaAddr then (.notInVma, s)
        else
          let size := sizeFrom vma vmaAddr
          let (toAddr, j) := findHole s.toMmStruct (size / 4096 + 1) holeFuel vma.stop 0
          if j ≠ size / 4096 + 1 then (.noHole, s)
          else
            let toAddr := toAddr - size
            if (s.mtreeLoad toAddr).isSome then (.destMapped, s)
            else
              match K.vmMmap s toAddr size (protOf vma) (flagsOf vma) with
              | none => (.mmapFailed, s)
              | some (_, s) =>
                match copyPages K (iterations size) vmaAddr toAddr s with
                | (some e, s) => (e, s)
                | (none, s) =>
                  let s := s.vmMunmap (Address.decode buff).fromAddr size
                  match K.copyToUser s param (Address.encode ⟨vmaAddr, toAddr⟩) with
                  | (false, s) => (.writeBackFault, s)
                  | (true, s) => (.moved, s)

/-! ## Sizes -/

/-- The size is the distance to the end of the area. -/
theorem sizeFrom_eq {mm : MmStruct} {src : Nat} {vma : VmAreaStruct}
    (h : mm.mtreeLoad src = some vma) : sizeFrom vma src = vma.stop - src := by
  obtain ⟨⟨h1, h2, h3, -⟩, h4, h5⟩ := mtreeLoad_spec h
  unfold sizeFrom vmaPages
  omega

/-! ## The copy loop -/

/-- Page `k` of the source can be read and page `k` of the destination written. -/
def PageOk (mm : MmStruct) (src dst k : Nat) : Prop :=
  K.CanRead mm (src + k * 4096) 4096 ∧ K.CanWrite mm (dst + k * 4096) 4096

instance (mm : MmStruct) (src dst k : Nat) : Decidable (PageOk K mm src dst k) :=
  inferInstanceAs (Decidable (K.CanRead .. ∧ K.CanWrite ..))

/-- How many pages the loop copies before it is done or fails. -/
def copied (mm : MmStruct) (n src dst : Nat) : Nat :=
  leading (fun k => decide (PageOk K mm src dst k)) n

theorem pageOk_succ (mm : MmStruct) (src dst k : Nat) :
    PageOk K mm src dst (k + 1) ↔ PageOk K mm (src + 4096) (dst + 4096) k := by
  have hsrc : src + (k + 1) * 4096 = src + 4096 + k * 4096 := by omega
  have hdst : dst + (k + 1) * 4096 = dst + 4096 + k * 4096 := by omega
  unfold PageOk
  rw [hsrc, hdst]

theorem copied_succ (mm : MmStruct) (n src dst : Nat) :
    copied K mm (n + 1) src dst
      = if PageOk K mm src dst 0 then copied K mm n (src + 4096) (dst + 4096) + 1 else 0 := by
  unfold copied
  rw [leading]
  simp only [decide_eq_true_eq, pageOk_succ]

/-- One round of the loop that gets past both copies. -/
theorem copyPages_succ_ok {n src dst : Nat} {s : Space} (h : PageOk K s.toMmStruct src dst 0) :
    copyPages K (n + 1) src dst s = copyPages K n (src + 4096) (dst + 4096)
      { s with mem := s.mem.write dst (s.mem.read src 4096) } := by
  have hw : K.CanWrite s.toMmStruct dst (s.mem.read src 4096).length := by
    rw [Mem.length_read]
    exact h.2
  have hr : K.CanRead s.toMmStruct src 4096 := h.1
  rw [copyPages, copyFromUser_of_canRead K hr]
  dsimp only
  rw [copyToUser_of_canWrite K hw]

/-- The loop only fails by one of its two copies. -/
theorem copyPages_some {n src dst : Nat} {s : Space} {e : MoveExit}
    (h : (copyPages K n src dst s).1 = some e) : e = .readFault ∨ e = .writeFault := by
  induction n generalizing src dst s with
  | zero => exact absurd h (by simp [copyPages])
  | succ n ih =>
      rw [copyPages] at h
      split at h
      · exact Or.inl (Option.some.inj h).symm
      · split at h
        · exact Or.inr (Option.some.inj h).symm
        · exact ih h

/-- The loop maps and unmaps nothing. -/
theorem copyPages_mm (n src dst : Nat) (s : Space) :
    (copyPages K n src dst s).2.toMmStruct = s.toMmStruct := by
  induction n generalizing src dst s with
  | zero => rfl
  | succ n ih =>
      rw [copyPages]
      split
      · rfl
      · split
        · rename_i hcopy
          exact congrArg (fun r => r.2.toMmStruct) hcopy.symm
        · rename_i hcopy
          exact (ih _ _ _).trans (congrArg (fun r => r.2.toMmStruct) hcopy.symm)

/-- The loop gets through exactly if every page can be copied. -/
theorem copyPages_none_iff {n src dst : Nat} {s : Space} :
    (copyPages K n src dst s).1 = none ↔ ∀ k < n, PageOk K s.toMmStruct src dst k := by
  induction n generalizing src dst s with
  | zero => simp [copyPages]
  | succ n ih =>
      by_cases h0 : PageOk K s.toMmStruct src dst 0
      · rw [copyPages_succ_ok K h0, ih]
        constructor
        · intro h k hk
          cases k with
          | zero => exact h0
          | succ k => exact (pageOk_succ K _ src dst k).mpr (h k (by omega))
        · intro h k hk
          exact (pageOk_succ K _ src dst k).mp (h (k + 1) (by omega))
      · refine iff_of_false ?_ (fun h => h0 (h 0 (by omega)))
        rw [copyPages]
        split
        · simp
        · rename_i buff hread
          obtain ⟨hr, rfl⟩ := copyFromUser_eq_some K hread
          split
          · simp
          · rename_i s' hwrite
            have htrue := congrArg Prod.fst hwrite
            rw [copyToUser_fst_eq_true_iff, Mem.length_read] at htrue
            exact absurd ⟨hr, htrue⟩ h0

/--
What the loop has done to memory when it stops, for a page-aligned destination. The
source is read as it was before the call: the destination lies below it or past
its end, so no page is overwritten before its turn.
-/
theorem copyPages_mem {n src dst : Nat} (hdst : dst % 4096 = 0)
    (hapart : dst < src ∨ src + n * 4096 ≤ dst) (s : Space) (x : Nat) :
    (copyPages K n src dst s).2.mem x
      = if dst ≤ x ∧ x < dst + copied K s.toMmStruct n src dst * 4096
        then s.mem (src + (x - dst)) else s.mem x := by
  induction n generalizing src dst s with
  | zero => rw [if_neg (by simp [copied, leading])]; rfl
  | succ n ih =>
      rw [copied_succ]
      by_cases h0 : PageOk K s.toMmStruct src dst 0
      · rw [copyPages_succ_ok K h0, if_pos h0, ih (by omega) (by omega)]
        have hle : copied K s.toMmStruct n (src + 4096) (dst + 4096) ≤ n := leading_le _ _
        have hlen : (s.mem.read src 4096).length = 4096 := Mem.length_read ..
        by_cases hfirst : dst ≤ x ∧ x < dst + 4096
        · rw [if_neg (by omega), if_pos (by omega)]
          exact Mem.write_read_of_mem _ _ hfirst
        · by_cases hlater : dst + 4096 ≤ x
              ∧ x < dst + 4096 + copied K s.toMmStruct n (src + 4096) (dst + 4096) * 4096
          · rw [if_pos hlater, if_pos (by omega)]
            have heq : src + 4096 + (x - (dst + 4096)) = src + (x - dst) := by omega
            rw [heq]
            exact Mem.write_of_not_mem _ (by rw [hlen]; omega)
          · rw [if_neg hlater, if_neg (by omega)]
            exact Mem.write_of_not_mem _ (by rw [hlen]; exact hfirst)
      · rw [if_neg h0, if_neg (by omega), copyPages]
        split
        · rfl
        · rename_i buff hread
          obtain ⟨hr, rfl⟩ := copyFromUser_eq_some K hread
          have hw : ¬K.CanWrite s.toMmStruct dst 4096 := fun hw => h0 ⟨hr, hw⟩
          rw [copyToUser_page_fail K hdst (Mem.length_read ..) hw]

/-! ## Both commands as checks around one relocation -/

/-- Map, copy, unmap. -/
def relocate (s : Space) (vma : VmAreaStruct) (src dst : Nat) : MoveExit × Space :=
  match K.vmMmap s dst (sizeFrom vma src) (protOf vma) (flagsOf vma) with
  | none => (.mmapFailed, s)
  | some (_, s) =>
    match copyPages K (iterations (sizeFrom vma src)) src dst s with
    | (some e, s) => (e, s)
    | (none, s) => (.moved, s.vmMunmap src (sizeFrom vma src))

/-- The address the search selects for the pages of `vma` from `src` on. -/
def holeFor (mm : MmStruct) (vma : VmAreaStruct) (src : Nat) : Option Nat :=
  let size := sizeFrom vma src
  let (toAddr, j) := findHole mm (size / 4096 + 1) holeFuel vma.stop 0
  if j ≠ size / 4096 + 1 then none else some (toAddr - size)

/-- From `src` in `vma` to a free page, `IOCTL_MVE_VMA_TO` is a relocation. -/
theorem mveVmaTo_eq_relocate {s : Space} {param src dst : Nat} {vma : VmAreaStruct}
    (harg : K.CanRead s.toMmStruct param 16) (ha : s.address param = ⟨src, dst⟩)
    (hsrc : s.mtreeLoad src = some vma) (hdst : s.mtreeLoad dst = none) :
    mveVmaTo K s param = relocate K s vma src dst := by
  have hstart : ¬vma.start > src := by
    obtain ⟨-, h, -⟩ := mtreeLoad_spec hsrc
    omega
  have ha' : Address.decode (s.mem.read param 16) = ⟨src, dst⟩ := ha
  unfold mveVmaTo relocate
  rw [copyFromUser_of_canRead K harg]
  dsimp only
  rw [ha', hsrc, hdst, findVma_of_mtreeLoad hsrc]
  dsimp only
  rw [if_neg (by simp), if_neg (by simp), if_neg hstart]

theorem mveVmaTo_argFault {s : Space} {param : Nat} (harg : ¬K.CanRead s.toMmStruct param 16) :
    mveVmaTo K s param = (.argFault, s) := by
  unfold mveVmaTo
  rw [copyFromUser_eq_none K harg]

theorem mveVmaTo_noSource {s : Space} {param src dst : Nat}
    (harg : K.CanRead s.toMmStruct param 16) (ha : s.address param = ⟨src, dst⟩)
    (hsrc : s.mtreeLoad src = none) : mveVmaTo K s param = (.noSource, s) := by
  have ha' : Address.decode (s.mem.read param 16) = ⟨src, dst⟩ := ha
  unfold mveVmaTo
  rw [copyFromUser_of_canRead K harg]
  dsimp only
  rw [ha', hsrc]
  rfl

theorem mveVmaTo_destMapped {s : Space} {param src dst : Nat} {v w : VmAreaStruct}
    (harg : K.CanRead s.toMmStruct param 16) (ha : s.address param = ⟨src, dst⟩)
    (hsrc : s.mtreeLoad src = some v) (hdst : s.mtreeLoad dst = some w) :
    mveVmaTo K s param = (.destMapped, s) := by
  have ha' : Address.decode (s.mem.read param 16) = ⟨src, dst⟩ := ha
  unfold mveVmaTo
  rw [copyFromUser_of_canRead K harg]
  dsimp only
  rw [ha', hsrc, hdst]
  rfl

/-- The end of `IOCTL_MVE_VMA`: write the result back, if the relocation got through. -/
def writeBack (param src dst : Nat) : MoveExit × Space → MoveExit × Space
  | (.moved, s) =>
    match K.copyToUser s param (Address.encode ⟨src, dst⟩) with
    | (false, s) => (.writeBackFault, s)
    | (true, s) => (.moved, s)
  | r => r

theorem writeBack_of_ne {param src dst : Nat} {e : MoveExit} (h : e ≠ .moved) (s : Space) :
    writeBack K param src dst (e, s) = (e, s) := by
  cases e <;> first | rfl | exact absurd rfl h

theorem mveVma_argFault {s : Space} {param : Nat} (harg : ¬K.CanRead s.toMmStruct param 16) :
    mveVma K s param = (.argFault, s) := by
  unfold mveVma
  rw [copyFromUser_eq_none K harg]

section

variable {K} {s : Space} {param src : Nat} {vma : VmAreaStruct}
  (harg : K.CanRead s.toMmStruct param 16) (ha : (s.address param).fromAddr = src)
include harg ha

theorem mveVma_noSource (hsrc : s.mtreeLoad src = none) : mveVma K s param = (.noSource, s) := by
  have ha' : (Address.decode (s.mem.read param 16)).fromAddr = src := ha
  unfold mveVma
  rw [copyFromUser_of_canRead K harg]
  dsimp only
  rw [ha', hsrc]
  rfl

/-- Past the checks on the source `IOCTL_MVE_VMA` looks for a hole, checks where it is, and
from there on is a relocation followed by a write-back. -/
theorem mveVma_eq (hsrc : s.mtreeLoad src = some vma) :
    mveVma K s param =
      match holeFor s.toMmStruct vma src with
      | none => (.noHole, s)
      | some dst =>
        if (s.mtreeLoad dst).isSome then (.destMapped, s)
        else writeBack K param src dst (relocate K s vma src dst) := by
  have hstart : ¬vma.start > src := by
    obtain ⟨-, h, -⟩ := mtreeLoad_spec hsrc
    omega
  have ha' : (Address.decode (s.mem.read param 16)).fromAddr = src := ha
  unfold mveVma holeFor
  rw [copyFromUser_of_canRead K harg]
  dsimp only
  rw [ha', hsrc, findVma_of_mtreeLoad hsrc]
  dsimp only
  rw [if_neg (by simp), if_neg hstart]
  split
  · rfl
  · dsimp only
    split
    · rfl
    · unfold relocate
      cases K.vmMmap s _ (sizeFrom vma src) (protOf vma) (flagsOf vma) with
      | none => rfl
      | some r =>
          dsimp only
          cases hc : copyPages K (iterations (sizeFrom vma src)) src _ r.2 with
          | mk e s₂ =>
              cases e with
              | none => rfl
              | some e =>
                  -- neither failure of the loop is mistaken for its success
                  rcases copyPages_some K (congrArg Prod.fst hc) with rfl | rfl
                  · rfl
                  · rfl

end

/-! ## What decides how far a relocation gets -/

/-- Seen from before the call, page `k` can be copied once the new area is at `ptr`. -/
def Copyable (s : Space) (vma : VmAreaStruct) (src dst ptr k : Nat) : Prop :=
  K.CanRead s.toMmStruct (src + k * 4096) 4096
    ∧ ∀ i < 4096, Accepts K s ptr (sizeFrom vma src) vma.data.attr (dst + k * 4096 + i)

theorem iterations_le (size : Nat) : iterations size * 4096 ≤ size := by
  unfold iterations
  omega

theorem mmap_placed_attr {s s₁ : Space} {vma : VmAreaStruct} {dst size ptr : Nat}
    (h : K.vmMmap s dst size (protOf vma) (flagsOf vma) = some (ptr, s₁)) :
    Placed s ptr size vma.data.attr s₁ := K.mmap_placed h

theorem pageOk_iff_copyable {s s₁ : Space} {vma : VmAreaStruct} {src dst ptr : Nat}
    (hsrc : s.mtreeLoad src = some vma)
    (hp : Placed s ptr (sizeFrom vma src) vma.data.attr s₁) {k : Nat}
    (hk : k < iterations (sizeFrom vma src)) :
    PageOk K s₁.toMmStruct src dst k ↔ Copyable K s vma src dst ptr k := by
  have hle := iterations_le (sizeFrom vma src)
  have hsize := sizeFrom_eq hsrc
  obtain ⟨-, hstart, hstop⟩ := mtreeLoad_spec hsrc
  refine and_congr ?_ ?_
  · -- the source was mapped before, so nothing about it has changed
    refine forall_congr' fun i => forall_congr' fun hi => ?_
    have hx : s.attr (src + k * 4096 + i) = some vma.data.attr :=
      attr_of_mtreeLoad hsrc ⟨by omega, by omega⟩
    rw [canRead_placed K hp hx]
  · exact forall_congr' fun i => forall_congr' fun _ => canWrite_placed K hp _

theorem relocate_mmapFailed {s : Space} {vma : VmAreaStruct} {src dst : Nat}
    (h : K.vmMmap s dst (sizeFrom vma src) (protOf vma) (flagsOf vma) = none) :
    relocate K s vma src dst = (.mmapFailed, s) := by
  unfold relocate
  rw [h]

/-- A relocation gets through if the loop does, and otherwise ends as the loop did. -/
theorem relocate_exit_eq {s s₁ : Space} {vma : VmAreaStruct} {src dst ptr : Nat}
    (hmmap : K.vmMmap s dst (sizeFrom vma src) (protOf vma) (flagsOf vma) = some (ptr, s₁)) :
    (relocate K s vma src dst).1
      = ((copyPages K (iterations (sizeFrom vma src)) src dst s₁).1).getD .moved := by
  unfold relocate
  rw [hmmap]
  dsimp only
  cases copyPages K (iterations (sizeFrom vma src)) src dst s₁ with
  | mk e s₂ => cases e <;> rfl

/-- What a relocation has mapped and unmapped in the end: the source is gone if the loop got
through, and nothing is undone if it did not. Every byte is as the loop left it. -/
theorem relocate_mm {s s₁ : Space} {vma : VmAreaStruct} {src dst ptr : Nat}
    (hmmap : K.vmMmap s dst (sizeFrom vma src) (protOf vma) (flagsOf vma) = some (ptr, s₁)) :
    ((relocate K s vma src dst).1 = .moved → (relocate K s vma src dst).2.toMmStruct
        = s₁.toMmStruct.vmMunmap src (sizeFrom vma src))
      ∧ ((relocate K s vma src dst).1 ≠ .moved →
        (relocate K s vma src dst).2.toMmStruct = s₁.toMmStruct)
      ∧ (relocate K s vma src dst).2.mem
        = (copyPages K (iterations (sizeFrom vma src)) src dst s₁).2.mem := by
  have hmm := copyPages_mm K (iterations (sizeFrom vma src)) src dst s₁
  unfold relocate
  rw [hmmap]
  dsimp only
  cases hc : copyPages K (iterations (sizeFrom vma src)) src dst s₁ with
  | mk e s₂ =>
      rw [hc] at hmm
      cases e with
      | none =>
          refine ⟨fun _ => ?_, fun hne => absurd rfl hne, rfl⟩
          rw [← hmm]
          rfl
      | some e =>
          have hne : e ≠ .moved := by
            rcases copyPages_some K (congrArg Prod.fst hc) with rfl | rfl <;> simp
          exact ⟨fun he => absurd he hne, fun _ => hmm, rfl⟩

/-- A relocation that got through has unmapped its source, and nothing else. -/
theorem relocate_moved_attr {s s₁ : Space} {vma : VmAreaStruct} {src dst ptr : Nat}
    (hsrc : s.mtreeLoad src = some vma) (ha : src % 4096 = 0)
    (hmmap : K.vmMmap s dst (sizeFrom vma src) (protOf vma) (flagsOf vma) = some (ptr, s₁))
    (hmoved : (relocate K s vma src dst).1 = .moved) (x : Nat) :
    (relocate K s vma src dst).2.attr x
      = if src ≤ x ∧ x < vma.stop then none else s₁.attr x := by
  have hsize := sizeFrom_eq hsrc
  obtain ⟨hwf, -, hlt⟩ := mtreeLoad_spec hsrc
  have hstop := hwf.stop
  have hend : src + sizeFrom vma src = vma.stop := by omega
  rw [(relocate_mm K hmmap).1 hmoved, vmMunmap_attr s₁.toMmStruct ha (by omega) (by omega)
    (by rw [hend]; exact hwf.below), hend]

/-- Outside the source a relocation unmaps nothing, and every byte is as the loop left it. -/
theorem relocate_outside {s s₁ : Space} {vma : VmAreaStruct} {src dst ptr : Nat}
    (hsrc : s.mtreeLoad src = some vma)
    (hmmap : K.vmMmap s dst (sizeFrom vma src) (protOf vma) (flagsOf vma) = some (ptr, s₁)) :
    (∀ x, ¬(src ≤ x ∧ x < vma.stop) → (relocate K s vma src dst).2.attr x = s₁.attr x)
      ∧ (relocate K s vma src dst).2.mem
        = (copyPages K (iterations (sizeFrom vma src)) src dst s₁).2.mem := by
  obtain ⟨hmoved, hfailed, hmem⟩ := relocate_mm K hmmap
  refine ⟨fun x hx => ?_, hmem⟩
  by_cases hm : (relocate K s vma src dst).1 = .moved
  · by_cases ha : src % 4096 = 0
    · rw [relocate_moved_attr K hsrc ha hmmap hm, if_neg hx]
    · rw [hmoved hm, vmMunmap_refused s₁.toMmStruct _ ha]
  · rw [hfailed hm]

/-! ## What a call does -/

/-- The exits that are taken before anything was done. -/
def MoveExit.refused : MoveExit → Bool
  | .noSource | .destMapped | .notInVma | .noHole | .mmapFailed => true
  | _ => false

/-- `IOCTL_MVE_VMA_TO` could not read its argument, refused it, or relocated the range. -/
inductive MveVmaToCase (s : Space) (param src dst : Nat) : Prop where
  | argFault (arg : ¬K.CanRead s.toMmStruct param 16) (run : mveVmaTo K s param = (.argFault, s))
  | refused (e : MoveExit) (arg : K.CanRead s.toMmStruct param 16) (exit : e.refused = true)
      (run : mveVmaTo K s param = (e, s))
      (infeasible : ∀ vma ptr s₁, s.mtreeLoad src = some vma → s.mtreeLoad dst = none →
        K.vmMmap s dst (sizeFrom vma src) (protOf vma) (flagsOf vma) ≠ some (ptr, s₁))
  | relocated (vma : VmAreaStruct) (ptr : Nat) (s₁ : Space)
      (arg : K.CanRead s.toMmStruct param 16)
      (source : s.mtreeLoad src = some vma) (free : s.mtreeLoad dst = none)
      (mmap : K.vmMmap s dst (sizeFrom vma src) (protOf vma) (flagsOf vma) = some (ptr, s₁))
      (run : mveVmaTo K s param = relocate K s vma src dst)

theorem mveVmaTo_cases {s : Space} {param src dst : Nat} (ha : s.address param = ⟨src, dst⟩) :
    MveVmaToCase K s param src dst := by
  by_cases harg : K.CanRead s.toMmStruct param 16
  swap
  · exact .argFault harg (mveVmaTo_argFault K harg)
  cases hsrc : s.mtreeLoad src with
  | none =>
      refine .refused .noSource harg rfl (mveVmaTo_noSource K harg ha hsrc) ?_
      intro vma ptr s₁ h
      exact absurd h (by simp [hsrc])
  | some vma =>
  cases hdst : s.mtreeLoad dst with
  | some w =>
      refine .refused .destMapped harg rfl (mveVmaTo_destMapped K harg ha hsrc hdst) ?_
      intro vma' ptr s₁ _ h
      exact absurd h (by simp [hdst])
  | none =>
  have hrun := mveVmaTo_eq_relocate K harg ha hsrc hdst
  cases hmmap : K.vmMmap s dst (sizeFrom vma src) (protOf vma) (flagsOf vma) with
  | none =>
      refine .refused .mmapFailed harg rfl (hrun.trans (relocate_mmapFailed K hmmap)) ?_
      intro vma' ptr s₁ h _
      obtain rfl := Option.some.inj (hsrc.symm.trans h)
      simp [hmmap]
  | some r => exact .relocated vma r.1 r.2 harg hsrc hdst hmmap hrun

/-- `IOCTL_MVE_VMA` could not read its argument, refused it, or relocated the range to the
hole it found and went on to write the result back. -/
inductive MveVmaCase (s : Space) (param src : Nat) : Prop where
  | argFault (arg : ¬K.CanRead s.toMmStruct param 16) (run : mveVma K s param = (.argFault, s))
  | refused (e : MoveExit) (arg : K.CanRead s.toMmStruct param 16) (exit : e.refused = true)
      (run : mveVma K s param = (e, s))
      (infeasible : ∀ vma dst ptr s₁, s.mtreeLoad src = some vma →
        holeFor s.toMmStruct vma src = some dst → s.mtreeLoad dst = none →
        K.vmMmap s dst (sizeFrom vma src) (protOf vma) (flagsOf vma) ≠ some (ptr, s₁))
  | relocated (vma : VmAreaStruct) (dst ptr : Nat) (s₁ : Space)
      (arg : K.CanRead s.toMmStruct param 16) (source : s.mtreeLoad src = some vma)
      (hole : holeFor s.toMmStruct vma src = some dst) (free : s.mtreeLoad dst = none)
      (mmap : K.vmMmap s dst (sizeFrom vma src) (protOf vma) (flagsOf vma) = some (ptr, s₁))
      (run : mveVma K s param = writeBack K param src dst (relocate K s vma src dst))

theorem mveVma_cases {s : Space} {param src : Nat} (ha : (s.address param).fromAddr = src) :
    MveVmaCase K s param src := by
  by_cases harg : K.CanRead s.toMmStruct param 16
  swap
  · exact .argFault harg (mveVma_argFault K harg)
  cases hsrc : s.mtreeLoad src with
  | none =>
      refine .refused .noSource harg rfl (mveVma_noSource harg ha hsrc) ?_
      intro vma dst ptr s₁ h
      exact absurd h (by simp [hsrc])
  | some vma =>
  have hrun := mveVma_eq harg ha hsrc
  cases hole : holeFor s.toMmStruct vma src with
  | none =>
      refine .refused .noHole harg rfl (by rw [hrun, hole]) ?_
      intro vma' dst ptr s₁ h hd
      obtain rfl := Option.some.inj (hsrc.symm.trans h)
      exact absurd hd (by simp [hole])
  | some dst =>
  rw [hole] at hrun
  dsimp only at hrun
  cases hdst : s.mtreeLoad dst with
  | some w =>
      rw [hdst, if_pos (by simp)] at hrun
      refine .refused .destMapped harg rfl hrun ?_
      intro vma' d ptr s₁ h hd hn
      obtain rfl := Option.some.inj (hsrc.symm.trans h)
      obtain rfl := Option.some.inj (hole.symm.trans hd)
      exact absurd hn (by simp [hdst])
  | none =>
  rw [hdst, if_neg (by simp)] at hrun
  cases hmmap : K.vmMmap s dst (sizeFrom vma src) (protOf vma) (flagsOf vma) with
  | none =>
      rw [relocate_mmapFailed K hmmap, writeBack_of_ne K (by simp)] at hrun
      refine .refused .mmapFailed harg rfl hrun ?_
      intro vma' d ptr s₁ h hd _
      obtain rfl := Option.some.inj (hsrc.symm.trans h)
      obtain rfl := Option.some.inj (hole.symm.trans hd)
      simp [hmmap]
  | some r => exact .relocated vma dst r.1 r.2 harg hsrc hole hdst hmmap hrun

end LinuxDrivers.Vma
