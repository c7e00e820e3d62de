import LinuxDrivers.Vma.Space

/-!
# What the module asks of the kernel

`vm_mmap` and the user copies are not part of the module. They are fields of a
`Kernel`, with the laws the module relies on: a new area takes free pages and
disturbs nothing else, and it takes the pages asked for if those are free. Where it
goes otherwise, and which pages a copy fails to bring in, is left open.

`Kernel.topDown` is one kernel that obeys the laws, placing areas from the top of
the address space downwards as Linux does. It is what concrete runs are made on.
-/

namespace LinuxDrivers.Vma

/-- `PROT_READ`, `PROT_WRITE` and `PROT_EXEC` -/
structure Prot where
  read : Bool
  write : Bool
  exec : Bool

/-- `MAP_ANONYMOUS`, and `MAP_SHARED` rather than `MAP_PRIVATE` -/
structure MapFlags where
  anonymous : Bool
  shared : Bool

/-- The attributes an area mapped with `prot` and `flags` has. -/
def attrOf (prot : Prot) (flags : MapFlags) : Attr :=
  { read := prot.read, write := prot.write, exec := prot.exec, shared := flags.shared }

/-- A new area of `len` bytes, in whole pages, was put at `ptr`. -/
structure Placed (s : Space) (ptr len : Nat) (a : Attr) (s' : Space) : Prop where
  aligned : ptr % 4096 = 0
  below : ptr + pageAlign len ≤ taskSize
  /-- The pages it took were free. -/
  free : ∀ x, ptr ≤ x → x < ptr + pageAlign len → s.attr x = none
  new : ∀ x, ptr ≤ x → x < ptr + pageAlign len → s'.attr x = some a
  /-- No other address changed its attributes. -/
  old : ∀ x, ¬(ptr ≤ x ∧ x < ptr + pageAlign len) → s'.attr x = s.attr x
  /-- No other address changed its byte. -/
  mem : ∀ x, ¬(ptr ≤ x ∧ x < ptr + pageAlign len) → s'.mem x = s.mem x

/-- What was mapped before is mapped as it was. -/
theorem Placed.attr_of_mapped {s s' : Space} {ptr len : Nat} {a b : Attr}
    (h : Placed s ptr len a s') {x : Nat} (hx : s.attr x = some b) : s'.attr x = some b := by
  rw [h.old x fun hin => ?_, hx]
  rw [h.free x hin.1 hin.2] at hx
  exact absurd hx (by simp)

theorem Placed.mem_of_mapped {s s' : Space} {ptr len : Nat} {a b : Attr}
    (h : Placed s ptr len a s') {x : Nat} (hx : s.attr x = some b) : s'.mem x = s.mem x := by
  refine h.mem x fun hin => ?_
  rw [h.free x hin.1 hin.2] at hx
  exact absurd hx (by simp)

structure Kernel where
  /-- `vm_mmap(NULL, addr, len, prot, flags, 0)`: where the new area went, or an error. -/
  vmMmap : Space → Nat → Nat → Prot → MapFlags → Option (Nat × Space)
  mmap_placed : ∀ {s addr len prot flags ptr s'}, vmMmap s addr len prot flags = some (ptr, s') →
    Placed s ptr len (attrOf prot flags) s'
  /-- A free page range is used as asked for. -/
  mmap_hint : ∀ {s addr len} prot flags, addr % 4096 = 0 → 0 < len →
    addr + pageAlign len ≤ taskSize →
    (∀ x, addr ≤ x → x < addr + pageAlign len → s.attr x = none) →
    ∃ s', vmMmap s addr len prot flags = some (addr, s')
  /-- Which permissions let the kernel read a user page; `PROT_READ` does. -/
  readable : Attr → Bool
  readable_of_read : ∀ a : Attr, a.read = true → readable a = true
  /-- The pages that cannot be brought in for reading (`false`) or writing (`true`). -/
  fault : Bool → Nat → Bool

/-- Copies fail for want of a mapping or a permission only. -/
def Kernel.NoFault (K : Kernel) : Prop := ∀ w p, K.fault w p = false

variable (K : Kernel)

/-! ## User copies -/

/-- `copy_from_user` gets at the byte at `x`. -/
def Kernel.canRead (mm : MmStruct) (x : Nat) : Bool :=
  (mm.attr x).any K.readable && !K.fault false (x / 4096)

/-- `copy_to_user` gets at the byte at `x`. -/
def Kernel.canWrite (mm : MmStruct) (x : Nat) : Bool :=
  (mm.attr x).any Attr.write && !K.fault true (x / 4096)

/-- `copy_from_user`, or a failure; what was read by then is not used by any caller. -/
def Kernel.copyFromUser (s : Space) (addr n : Nat) : Option (List UInt8) :=
  if leading (fun i => K.canRead s.toMmStruct (addr + i)) n = n then some (s.mem.read addr n)
  else none

/-- `copy_to_user`: whether everything was copied, and the space with what was. -/
def Kernel.copyToUser (s : Space) (addr : Nat) (bytes : List UInt8) : Bool × Space :=
  let n := leading (fun i => K.canWrite s.toMmStruct (addr + i)) bytes.length
  (n = bytes.length, { s with mem := s.mem.write addr (bytes.take n) })

/-- All of `[addr, addr + n)` can be read. -/
def Kernel.CanRead (mm : MmStruct) (addr n : Nat) : Prop := ∀ i < n, K.canRead mm (addr + i) = true

/-- All of `[addr, addr + n)` can be written. -/
def Kernel.CanWrite (mm : MmStruct) (addr n : Nat) : Prop :=
  ∀ i < n, K.canWrite mm (addr + i) = true

instance (mm : MmStruct) (addr n : Nat) : Decidable (K.CanRead mm addr n) :=
  inferInstanceAs (Decidable (∀ i < n, _))

instance (mm : MmStruct) (addr n : Nat) : Decidable (K.CanWrite mm addr n) :=
  inferInstanceAs (Decidable (∀ i < n, _))

/-- What can be read is mapped. -/
theorem attr_of_canRead {mm : MmStruct} {x : Nat} (h : K.canRead mm x = true) :
    ∃ a, mm.attr x = some a := by
  unfold Kernel.canRead at h
  cases hx : mm.attr x with
  | none => simp [hx] at h
  | some a => exact ⟨a, rfl⟩

theorem copyFromUser_of_canRead {s : Space} {addr n : Nat} (h : K.CanRead s.toMmStruct addr n) :
    K.copyFromUser s addr n = some (s.mem.read addr n) :=
  if_pos (leading_eq_iff.mpr h)

theorem copyFromUser_eq_none {s : Space} {addr n : Nat} (h : ¬K.CanRead s.toMmStruct addr n) :
    K.copyFromUser s addr n = none :=
  if_neg fun hn => h (leading_eq_iff.mp hn)

theorem copyFromUser_eq_some {s : Space} {addr n : Nat} {bytes : List UInt8}
    (h : K.copyFromUser s addr n = some bytes) :
    K.CanRead s.toMmStruct addr n ∧ bytes = s.mem.read addr n := by
  by_cases hr : K.CanRead s.toMmStruct addr n
  · rw [copyFromUser_of_canRead K hr] at h
    exact ⟨hr, (Option.some.inj h).symm⟩
  · rw [copyFromUser_eq_none K hr] at h
    exact absurd h (by simp)

theorem copyToUser_of_canWrite {s : Space} {addr : Nat} {bytes : List UInt8}
    (h : K.CanWrite s.toMmStruct addr bytes.length) :
    K.copyToUser s addr bytes = (true, { s with mem := s.mem.write addr bytes }) := by
  have hn := leading_eq_iff.mpr h
  unfold Kernel.copyToUser
  dsimp only
  rw [hn, List.take_length]
  simp

theorem copyToUser_fst_eq_true_iff {s : Space} {addr : Nat} {bytes : List UInt8} :
    (K.copyToUser s addr bytes).1 = true ↔ K.CanWrite s.toMmStruct addr bytes.length := by
  unfold Kernel.copyToUser
  rw [decide_eq_true_iff]
  exact leading_eq_iff

/-- A copy never maps or unmaps anything. -/
theorem copyToUser_mm (s : Space) (addr : Nat) (bytes : List UInt8) :
    (K.copyToUser s addr bytes).2.toMmStruct = s.toMmStruct := rfl

/-! ## Whole pages -/

theorem canWrite_page (mm : MmStruct) {x y : Nat} (h : x / 4096 = y / 4096) :
    K.canWrite mm x = K.canWrite mm y := by
  unfold Kernel.canWrite
  rw [attr_page mm h, h]

theorem canRead_page (mm : MmStruct) {x y : Nat} (h : x / 4096 = y / 4096) :
    K.canRead mm x = K.canRead mm y := by
  unfold Kernel.canRead
  rw [attr_page mm h, h]

theorem canRead_page_iff {mm : MmStruct} {addr : Nat} (ha : addr % 4096 = 0) :
    K.CanRead mm addr 4096 ↔ K.canRead mm addr = true := by
  constructor
  · intro h
    exact h 0 (by omega)
  · intro h i hi
    rw [canRead_page K mm (by omega : (addr + i) / 4096 = addr / 4096)]
    exact h

theorem canWrite_page_iff {mm : MmStruct} {addr : Nat} (ha : addr % 4096 = 0) :
    K.CanWrite mm addr 4096 ↔ K.canWrite mm addr = true := by
  constructor
  · intro h
    exact h 0 (by omega)
  · intro h i hi
    rw [canWrite_page K mm (by omega : (addr + i) / 4096 = addr / 4096)]
    exact h

/-- A page that cannot be written is not written in part either. -/
theorem copyToUser_page_fail {s : Space} {addr : Nat} (ha : addr % 4096 = 0) {bytes : List UInt8}
    (hlen : bytes.length = 4096) (h : ¬K.CanWrite s.toMmStruct addr 4096) :
    K.copyToUser s addr bytes = (false, s) := by
  have hfirst : K.canWrite s.toMmStruct (addr + 0) = false := by
    rw [canWrite_page_iff K ha] at h
    simpa using h
  unfold Kernel.copyToUser
  dsimp only
  rw [hlen, leading, hfirst]
  simp

/-! ## Copies after a new area was placed -/

/-- What could be read before still can. -/
theorem canRead_placed {s s' : Space} {ptr len : Nat} {a b : Attr} (h : Placed s ptr len a s')
    {x : Nat} (hx : s.attr x = some b) :
    K.canRead s'.toMmStruct x = K.canRead s.toMmStruct x := by
  unfold Kernel.canRead
  rw [h.attr_of_mapped hx, hx]

/-- The byte at `x` takes a write once the area was placed: it lies in the area and
the area can be written, or it could be written before. -/
def Accepts (s : Space) (ptr len : Nat) (a : Attr) (x : Nat) : Prop :=
  K.canWrite s.toMmStruct x = true
    ∨ (ptr ≤ x ∧ x < ptr + pageAlign len ∧ a.write = true ∧ K.fault true (x / 4096) = false)

theorem canWrite_placed {s s' : Space} {ptr len : Nat} {a : Attr} (h : Placed s ptr len a s')
    (x : Nat) : K.canWrite s'.toMmStruct x = true ↔ Accepts K s ptr len a x := by
  unfold Accepts Kernel.canWrite
  by_cases hx : ptr ≤ x ∧ x < ptr + pageAlign len
  · rw [h.new x hx.1 hx.2, h.free x hx.1 hx.2]
    simp [hx.1, hx.2]
  · rw [h.old x hx]
    constructor
    · exact Or.inl
    · rintro (hw | ⟨h1, h2, -⟩)
      · exact hw
      · exact absurd ⟨h1, h2⟩ hx

/-! ## A kernel -/

/-- No area reaches into `[lo, hi)`. -/
def MmStruct.isFree (mm : MmStruct) (lo hi : Nat) : Bool :=
  mm.areas.all fun v => v.stop ≤ lo || hi ≤ v.start

theorem isFree_iff {mm : MmStruct} {lo hi : Nat} (h : lo < hi) :
    mm.isFree lo hi = true ↔ ∀ x, lo ≤ x → x < hi → mm.attr x = none := by
  unfold MmStruct.isFree
  rw [List.all_eq_true]
  constructor
  · intro hall x hlo hhi
    rw [← mtreeLoad_eq_none_iff]
    refine List.find?_eq_none.mpr fun v hv => ?_
    have hout := hall v hv
    simp only [Bool.or_eq_true, decide_eq_true_eq] at hout
    intro hx
    obtain ⟨h1, h2⟩ : v.Has x := by simpa using hx
    omega
  · intro hnone v hv
    have hwf := (mm.wf v hv).nonempty
    simp only [Bool.or_eq_true, decide_eq_true_eq]
    by_contra hin
    -- the first address both have is mapped
    have hhas : v.Has (max lo v.start) := ⟨by omega, by omega⟩
    have hx := hnone (max lo v.start) (by omega) (by omega)
    have hload := (Area.lookup_eq_some_iff mm.sorted).mpr ⟨hv, hhas⟩
    exact absurd (mtreeLoad_eq_none_iff.mpr hx) (by unfold MmStruct.mtreeLoad; simp [hload])

/-- A new area in a free page range. -/
def MmStruct.insert (mm : MmStruct) (a : VmAreaStruct) (hwf : WellFormed a)
    (hfree : mm.isFree a.start a.stop = true) : MmStruct where
  areas := Area.insert a mm.areas
  sorted := by
    refine mm.sorted.insert (fun b hb => Nat.le_of_lt (mm.wf b hb).nonempty) fun b hb => ?_
    have hout := List.all_eq_true.mp hfree b hb
    simpa using hout
  wf := by
    intro b hb
    rcases Area.mem_insert.mp hb with rfl | hb
    · exact hwf
    · exact mm.wf b hb

theorem insert_attr (mm : MmStruct) {a : VmAreaStruct} (hwf : WellFormed a)
    (hfree : mm.isFree a.start a.stop = true) (x : Nat) :
    (mm.insert a hwf hfree).attr x = if a.Has x then some a.data.attr else mm.attr x := by
  unfold MmStruct.attr
  show (Area.dataAt (Area.insert a mm.areas) x).map VmInfo.attr = _
  rw [Area.dataAt_insert mm.sorted (mm.insert a hwf hfree).sorted]
  split
  · rfl
  · rfl

/-- The top of the region new areas are placed in when the hint cannot be used. -/
def mmapBase : Nat := 0x7ffff7fff000

/-- A range that can take a new area of `len` bytes. -/
def MmStruct.fits (mm : MmStruct) (len lo : Nat) : Bool :=
  lo % 4096 = 0 && lo + len ≤ taskSize && mm.isFree lo (lo + len)

/-- The hint if it fits, otherwise the highest gap that does. -/
def MmStruct.place (mm : MmStruct) (addr len : Nat) : Option Nat :=
  if mm.fits len addr then some addr
  else
    ((mmapBase :: mm.areas.reverse.map Area.start).filterMap fun top =>
      if len ≤ top ∧ top ≤ mmapBase then some (top - len) else none).find? (mm.fits len)

def newArea (lo len : Nat) (prot : Prot) (flags : MapFlags) : VmAreaStruct :=
  ⟨lo, lo + pageAlign len, ⟨attrOf prot flags, flags.shared⟩⟩

theorem newArea_wf {lo len : Nat} (prot : Prot) (flags : MapFlags) (hlen : len ≠ 0)
    (hlo : lo % 4096 = 0) (hbelow : lo + pageAlign len ≤ taskSize) :
    WellFormed (newArea lo len prot flags) := by
  have hmod := pageAlign_mod len
  have hle := le_pageAlign len
  refine ⟨hlo, ?_, ?_, hbelow⟩
  · show (lo + pageAlign len) % 4096 = 0
    omega
  · show lo < lo + pageAlign len
    omega

def topDownMmap (s : Space) (addr len : Nat) (prot : Prot) (flags : MapFlags) :
    Option (Nat × Space) :=
  if hlen : len = 0 then none
  else
    match s.place addr (pageAlign len) with
    | none => none
    | some lo =>
      if h : lo % 4096 = 0 ∧ lo + pageAlign len ≤ taskSize
          ∧ s.isFree lo (lo + pageAlign len) = true then
        some (lo,
          { toMmStruct := s.toMmStruct.insert (newArea lo len prot flags)
              (newArea_wf prot flags hlen h.1 h.2.1) h.2.2
            -- new memory reads as zero
            mem := fun x => if lo ≤ x ∧ x < lo + pageAlign len then 0 else s.mem x })
      else none

theorem topDownMmap_placed {s : Space} {addr len : Nat} {prot : Prot} {flags : MapFlags}
    {ptr : Nat} {s' : Space} (h : topDownMmap s addr len prot flags = some (ptr, s')) :
    Placed s ptr len (attrOf prot flags) s' := by
  unfold topDownMmap at h
  split at h
  · exact absurd h (by simp)
  · rename_i hlen
    have hpos : 0 < pageAlign len := Nat.lt_of_lt_of_le (by omega) (le_pageAlign len)
    split at h
    · exact absurd h (by simp)
    · split at h
      · rename_i lo _ hfit
        obtain ⟨rfl, rfl⟩ := Prod.mk.inj (Option.some.inj h)
        have hfree := (isFree_iff (Nat.lt_add_of_pos_right hpos)).mp hfit.2.2
        refine ⟨hfit.1, hfit.2.1, hfree, ?_, ?_, ?_⟩
        · intro x h1 h2
          exact (insert_attr s.toMmStruct (newArea_wf prot flags hlen hfit.1 hfit.2.1)
            hfit.2.2 x).trans (if_pos ⟨h1, h2⟩)
        · intro x hx
          exact (insert_attr s.toMmStruct (newArea_wf prot flags hlen hfit.1 hfit.2.1)
            hfit.2.2 x).trans (if_neg hx)
        · intro x hx
          exact if_neg hx
      · exact absurd h (by simp)

theorem topDownMmap_of_place {s : Space} {addr len lo : Nat} (prot : Prot) (flags : MapFlags)
    (hlen : len ≠ 0) (hplace : s.place addr (pageAlign len) = some lo)
    (hfits : s.fits (pageAlign len) lo = true) :
    ∃ s', topDownMmap s addr len prot flags = some (lo, s') := by
  have hfits' : lo % 4096 = 0 ∧ lo + pageAlign len ≤ taskSize
      ∧ s.isFree lo (lo + pageAlign len) = true := by
    simpa [MmStruct.fits, and_assoc] using hfits
  unfold topDownMmap
  rw [dif_neg hlen, hplace]
  dsimp only
  rw [dif_pos hfits']
  exact ⟨_, rfl⟩

theorem topDownMmap_hint {s : Space} {addr len : Nat} (prot : Prot) (flags : MapFlags)
    (ha : addr % 4096 = 0) (hlen : 0 < len) (hbelow : addr + pageAlign len ≤ taskSize)
    (hfree : ∀ x, addr ≤ x → x < addr + pageAlign len → s.attr x = none) :
    ∃ s', topDownMmap s addr len prot flags = some (addr, s') := by
  have hpos : 0 < pageAlign len := Nat.lt_of_lt_of_le hlen (le_pageAlign len)
  have hfree' : s.isFree addr (addr + pageAlign len) = true :=
    (isFree_iff (Nat.lt_add_of_pos_right hpos)).mpr hfree
  have hfits : s.fits (pageAlign len) addr = true := by
    simp [MmStruct.fits, ha, hbelow, hfree']
  exact topDownMmap_of_place prot flags (by omega) (if_pos hfits) hfits

/-- Areas are placed top down, copies fail for want of a permission only, and, as on
x86, any permission lets the kernel read a page. -/
def Kernel.topDown : Kernel where
  vmMmap := topDownMmap
  mmap_placed := topDownMmap_placed
  mmap_hint := topDownMmap_hint
  readable a := a.read || a.write || a.exec
  readable_of_read a h := by simp [h]
  fault _ _ := false

end LinuxDrivers.Vma
