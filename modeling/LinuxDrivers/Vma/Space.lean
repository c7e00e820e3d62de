import LinuxDrivers.Lib.Areas
import LinuxDrivers.Lib.Mem

/-!
# Address spaces

A process's memory as the `btplus` module sees it: the areas of its `mm_struct`
and the bytes behind them. Areas are disjoint, page aligned and lie below the end
of user space; a `MmStruct` carries the proof, so no operation on one has to
re-establish it by hand.

The tree the kernel keeps its areas in is searched by `mtree_load` and `find_vma`.
What a program can observe is less than the list of areas: at each address, whether
it is mapped, with which permissions, and which byte is there. That is the `view`,
and the module's purpose is stated on it: moving a range is `View.move`.
-/

namespace LinuxDrivers.Vma

/-- The end of user space, `TASK_SIZE`. -/
abbrev taskSize : Nat := 0x7ffffffff000

/-- `PAGE_ALIGN` -/
def pageAlign (n : Nat) : Nat := (n + 4095) / 4096 * 4096

theorem pageAlign_mod (n : Nat) : pageAlign n % 4096 = 0 := by
  unfold pageAlign
  omega

theorem le_pageAlign (n : Nat) : n ≤ pageAlign n := by
  unfold pageAlign
  omega

theorem pageAlign_of_aligned {n : Nat} (h : n % 4096 = 0) : pageAlign n = n := by
  unfold pageAlign
  omega

theorem add_pageAlign_mod {start : Nat} (h : start % 4096 = 0) (n : Nat) :
    (start + pageAlign n) % 4096 = 0 := by
  have halign := pageAlign_mod n
  omega

/-- `VM_READ`, `VM_WRITE`, `VM_EXEC` and `VM_SHARED` of `vm_flags`. -/
structure Attr where
  read : Bool
  write : Bool
  exec : Bool
  shared : Bool
  deriving DecidableEq

structure VmInfo where
  attr : Attr
  /-- Whether `vm_ops` is set, which it is not for anonymous memory. -/
  vmOps : Bool
  deriving DecidableEq

/-- Private anonymous memory that can be read and written. -/
def plainInfo : VmInfo := ⟨⟨true, true, false, false⟩, false⟩

/-- `vm_area_struct`; its `vm_start` and `vm_end` are the bounds of the area. -/
abbrev VmAreaStruct := Area VmInfo

/-- What the kernel guarantees of every area. -/
structure WellFormed (v : VmAreaStruct) : Prop where
  start : v.start % 4096 = 0
  stop : v.stop % 4096 = 0
  nonempty : v.start < v.stop
  below : v.stop ≤ taskSize

instance (v : VmAreaStruct) : Decidable (WellFormed v) :=
  decidable_of_iff (v.start % 4096 = 0 ∧ v.stop % 4096 = 0 ∧ v.start < v.stop ∧ v.stop ≤ taskSize)
    ⟨fun ⟨h1, h2, h3, h4⟩ => ⟨h1, h2, h3, h4⟩, fun ⟨h1, h2, h3, h4⟩ => ⟨h1, h2, h3, h4⟩⟩

structure MmStruct where
  areas : List VmAreaStruct
  sorted : Area.Sorted areas
  wf : ∀ v ∈ areas, WellFormed v

/-- An address space: its areas, and the byte behind each address. -/
structure Space extends MmStruct where
  mem : Mem UInt8

/-- Two pages at 0x10000 and one at 0x30000, for small runs. -/
def twoAreas : MmStruct where
  areas := [⟨0x10000, 0x12000, plainInfo⟩, ⟨0x30000, 0x31000, plainInfo⟩]
  sorted := by decide
  wf := by decide

/-! ## Searching -/

/-- `mtree_load(&mm->mm_mt, addr)` -/
def MmStruct.mtreeLoad (mm : MmStruct) (addr : Nat) : Option VmAreaStruct :=
  Area.lookup mm.areas addr

/-- `find_vma(mm, addr)`: the first area that ends after `addr`, around it or not. -/
def MmStruct.findVma (mm : MmStruct) (addr : Nat) : Option VmAreaStruct :=
  Area.firstAfter mm.areas addr

/-- The attributes of the page around `x`, if it is mapped. -/
def MmStruct.attr (mm : MmStruct) (x : Nat) : Option Attr :=
  (Area.dataAt mm.areas x).map VmInfo.attr

theorem findVma_of_mtreeLoad {mm : MmStruct} {x : Nat} {v : VmAreaStruct}
    (h : mm.mtreeLoad x = some v) : mm.findVma x = some v :=
  Area.firstAfter_of_lookup mm.sorted h

theorem mtreeLoad_spec {mm : MmStruct} {x : Nat} {v : VmAreaStruct}
    (h : mm.mtreeLoad x = some v) : WellFormed v ∧ v.start ≤ x ∧ x < v.stop := by
  obtain ⟨hv, hx⟩ := Area.has_of_lookup h
  exact ⟨mm.wf v hv, hx.1, hx.2⟩

/-- Every address of an area that was found has the area's attributes. -/
theorem attr_of_mtreeLoad {mm : MmStruct} {x y : Nat} {v : VmAreaStruct}
    (h : mm.mtreeLoad x = some v) (hy : v.start ≤ y ∧ y < v.stop) :
    mm.attr y = some v.data.attr := by
  obtain ⟨hv, -⟩ := Area.has_of_lookup h
  have hd : Area.dataAt mm.areas y = some v.data :=
    (Area.dataAt_eq_some_iff mm.sorted).mpr ⟨v, hv, hy, rfl⟩
  unfold MmStruct.attr
  rw [hd]
  rfl

theorem mtreeLoad_eq_none_iff {mm : MmStruct} {x : Nat} :
    mm.mtreeLoad x = none ↔ mm.attr x = none := by
  unfold MmStruct.attr Area.dataAt MmStruct.mtreeLoad
  rw [Option.map_eq_none_iff, Option.map_eq_none_iff]

/-- Nothing is mapped beyond user space. -/
theorem lt_taskSize_of_mtreeLoad {mm : MmStruct} {x : Nat} (h : (mm.mtreeLoad x).isSome) :
    x < taskSize := by
  obtain ⟨v, hv⟩ := Option.isSome_iff_exists.mp h
  obtain ⟨hwf, -, hx⟩ := mtreeLoad_spec hv
  exact Nat.lt_of_lt_of_le hx hwf.below

/-- Whole pages are mapped, or not. -/
theorem mtreeLoad_page (mm : MmStruct) {x y : Nat} (h : x / 4096 = y / 4096) :
    mm.mtreeLoad x = mm.mtreeLoad y := by
  refine Option.ext fun v => ?_
  unfold MmStruct.mtreeLoad
  rw [Area.lookup_eq_some_iff mm.sorted, Area.lookup_eq_some_iff mm.sorted]
  refine and_congr_right fun hv => ?_
  have hstart := (mm.wf v hv).start
  have hstop := (mm.wf v hv).stop
  unfold Area.Has
  omega

theorem attr_page (mm : MmStruct) {x y : Nat} (h : x / 4096 = y / 4096) :
    mm.attr x = mm.attr y := by
  have hload := mtreeLoad_page mm h
  unfold MmStruct.mtreeLoad at hload
  unfold MmStruct.attr Area.dataAt
  rw [hload]

/-! ## Unmapping -/

/-- Cut the page range `[lo, hi)` out of the map. -/
def MmStruct.remove (mm : MmStruct) (lo hi : Nat) (hlo : lo % 4096 = 0) (hhi : hi % 4096 = 0)
    (hle : lo ≤ hi) : MmStruct where
  areas := Area.remove lo hi mm.areas
  sorted := mm.sorted.remove hle
  wf := by
    intro b hb
    obtain ⟨a, ha, hba⟩ := List.mem_flatMap.mp hb
    obtain ⟨h1, h2, h3, h4⟩ := mm.wf a ha
    rcases Area.mem_cut.mp hba with ⟨hlt, rfl⟩ | ⟨hlt, rfl⟩
    · have hmin : min a.stop lo = a.stop ∨ min a.stop lo = lo := by omega
      refine ⟨h1, ?_, ?_, ?_⟩ <;> dsimp only <;> omega
    · have hmax : max a.start hi = a.start ∨ max a.start hi = hi := by omega
      refine ⟨?_, h2, ?_, h4⟩ <;> dsimp only <;> omega

theorem remove_attr (mm : MmStruct) {lo hi : Nat} (hlo : lo % 4096 = 0) (hhi : hi % 4096 = 0)
    (hle : lo ≤ hi) (x : Nat) :
    (mm.remove lo hi hlo hhi hle).attr x = if lo ≤ x ∧ x < hi then none else mm.attr x := by
  unfold MmStruct.attr MmStruct.remove
  rw [Area.dataAt_remove mm.sorted hle]
  split
  · rfl
  · rfl

/--
`vm_munmap(start, len)`. A range that is not page aligned, is empty or leaves user
space is refused, and then nothing happens.
-/
def MmStruct.vmMunmap (mm : MmStruct) (start len : Nat) : MmStruct :=
  if h : start % 4096 = 0 ∧ 0 < len ∧ start + pageAlign len ≤ taskSize then
    mm.remove start (start + pageAlign len) h.1 (add_pageAlign_mod h.1 len) (Nat.le_add_right ..)
  else mm

def Space.vmMunmap (s : Space) (start len : Nat) : Space :=
  { s with toMmStruct := s.toMmStruct.vmMunmap start len }

theorem vmMunmap_refused (mm : MmStruct) {start : Nat} (len : Nat) (h : start % 4096 ≠ 0) :
    mm.vmMunmap start len = mm :=
  dif_neg fun hc => h hc.1

theorem vmMunmap_attr (mm : MmStruct) {start len : Nat} (hstart : start % 4096 = 0)
    (hlen : len % 4096 = 0) (hpos : 0 < len) (hbelow : start + len ≤ taskSize) (x : Nat) :
    (mm.vmMunmap start len).attr x = if start ≤ x ∧ x < start + len then none else mm.attr x := by
  have halign := pageAlign_of_aligned hlen
  unfold MmStruct.vmMunmap
  rw [dif_pos ⟨hstart, hpos, by rw [halign]; exact hbelow⟩, remove_attr, halign]

/-- Around an address outside the range, unmapping leaves the area that was there, shortened if
it reached into the range from below. -/
theorem vmMunmap_mtreeLoad (mm : MmStruct) {start len x : Nat} (hstart : start % 4096 = 0)
    (hlen : len % 4096 = 0) (hpos : 0 < len) (hbelow : start + len ≤ taskSize)
    (hx : ¬(start ≤ x ∧ x < start + len)) {v : VmAreaStruct} (hv : mm.mtreeLoad x = some v) :
    ∃ w, (mm.vmMunmap start len).mtreeLoad x = some w ∧ w.data = v.data
      ∧ w.stop = if x < start then min v.stop start else v.stop := by
  have halign := pageAlign_of_aligned hlen
  obtain ⟨w, hw, hdata, hstop⟩ := Area.lookup_remove mm.sorted (Nat.le_add_right start len) hx hv
  refine ⟨w, ?_, hdata, hstop⟩
  unfold MmStruct.vmMunmap
  rw [dif_pos ⟨hstart, hpos, by rw [halign]; exact hbelow⟩]
  unfold MmStruct.mtreeLoad MmStruct.remove
  dsimp only
  rw [halign]
  exact hw

/-! ## The view -/

/-- At each mapped address, its attributes and its byte. -/
abbrev View := Nat → Option (Attr × UInt8)

def Space.view (s : Space) : View := fun x => (s.attr x).map fun a => (a, s.mem x)

/-- What moving `size` addresses from `src` to `dst` is meant to do. -/
def View.move (v : View) (src dst size : Nat) : View := fun x =>
  if dst ≤ x ∧ x < dst + size then v (src + (x - dst))
  else if src ≤ x ∧ x < src + size then none
  else v x

end LinuxDrivers.Vma
