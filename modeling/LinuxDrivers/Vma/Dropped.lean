import LinuxDrivers.Vma.Hole
import LinuxDrivers.Vma.Preserve

/-!
# Pages that are dropped

Both move commands count the pages to copy in an `int`. The quotient that goes into it has
up to 35 bits, so of an area with 2³² pages or more the loop copies only what is left of the
number modulo 2³². Nothing fails on the way, and the source is then unmapped in full.

The copies are recorded as the loop makes them, and the recording is what stands at the
moment of the `vm_munmap`. The record is faithful: the memory the loop leaves is the one
its copies make, replayed one after the other (`copyPages_mem_eq_replay`).
-/

namespace LinuxDrivers.Vma

variable (K : Kernel)

/-! ## The copies a loop makes -/

/-- The copies the loop makes, as pairs of a source and a destination page. -/
def copyLog : Nat → Nat → Nat → Space → List (Nat × Nat)
  | 0, _, _, _ => []
  | n + 1, vmaAddr, toAddr, s =>
    match K.copyFromUser s vmaAddr 4096 with
    | none => []
    | some buff1 =>
      match K.copyToUser s toAddr buff1 with
      | (false, _) => []
      | (true, s) => (vmaAddr, toAddr) :: copyLog n (vmaAddr + 4096) (toAddr + 4096) s

/-- What a relocation has copied when it unmaps the source; `none` if it never gets there. -/
def relocateLog (s : Space) (vma : VmAreaStruct) (src dst : Nat) : Option (List (Nat × Nat)) :=
  match K.vmMmap s dst (sizeFrom vma src) (protOf vma) (flagsOf vma) with
  | none => none
  | some (_, s) =>
    match copyPages K (iterations (sizeFrom vma src)) src dst s with
    | (some _, _) => none
    | (none, _) => some (copyLog K (iterations (sizeFrom vma src)) src dst s)

/-- Every page of the source has been copied when the source is unmapped. -/
def CopiesAll (s : Space) (vma : VmAreaStruct) (src dst : Nat) : Prop :=
  ∃ log, relocateLog K s vma src dst = some log
    ∧ ∀ k < (vma.stop - src) / 4096, (src + k * 4096, dst + k * 4096) ∈ log

/-- The memory after these copies, one after the other. -/
def replay (log : List (Nat × Nat)) (mem : Mem UInt8) : Mem UInt8 :=
  log.foldl (fun mem c => mem.write c.2 (mem.read c.1 4096)) mem

theorem copyLog_succ_ok {n src dst : Nat} {s : Space} (h : PageOk K s.toMmStruct src dst 0) :
    copyLog K (n + 1) src dst s = (src, dst) :: copyLog K n (src + 4096) (dst + 4096)
      { s with mem := s.mem.write dst (s.mem.read src 4096) } := by
  have hr : K.CanRead s.toMmStruct src 4096 := h.1
  have hw : K.CanWrite s.toMmStruct dst (s.mem.read src 4096).length := by
    rw [Mem.length_read]
    exact h.2
  rw [copyLog, copyFromUser_of_canRead K hr]
  dsimp only
  rw [copyToUser_of_canWrite K hw]

/-- A loop that gets through has made all its copies. -/
theorem copyLog_eq {n src dst : Nat} {s : Space} (h : ∀ k < n, PageOk K s.toMmStruct src dst k) :
    copyLog K n src dst s = (List.range n).map fun k => (src + k * 4096, dst + k * 4096) := by
  induction n generalizing src dst s with
  | zero => rfl
  | succ n ih =>
      have hrest := ih (s := { s with mem := s.mem.write dst (s.mem.read src 4096) })
        fun k hk => (pageOk_succ K _ src dst k).mp (h (k + 1) (by omega))
      rw [copyLog_succ_ok K (h 0 (by omega)), hrest, List.range_succ_eq_map, List.map_cons,
        List.map_map]
      have hshift : ∀ k < n, (src + 4096 + k * 4096, dst + 4096 + k * 4096)
          = (src + (k + 1) * 4096, dst + (k + 1) * 4096) := by
        intro k _
        rw [Nat.succ_mul]
        exact Prod.ext (by dsimp only; omega) (by dsimp only; omega)
      rw [Nat.zero_mul, Nat.add_zero, Nat.add_zero]
      exact congrArg _ (List.map_congr_left fun k hk => hshift k (List.mem_range.mp hk))

/-- The loop writes what its log says, and nothing else. -/
theorem copyPages_mem_eq_replay {n src dst : Nat} {s : Space}
    (h : ∀ k < n, PageOk K s.toMmStruct src dst k) :
    (copyPages K n src dst s).2.mem = replay (copyLog K n src dst s) s.mem := by
  induction n generalizing src dst s with
  | zero => rfl
  | succ n ih =>
      have h0 := h 0 (by omega)
      have hrest := ih (s := { s with mem := s.mem.write dst (s.mem.read src 4096) })
        fun k hk => (pageOk_succ K _ src dst k).mp (h (k + 1) (by omega))
      rw [copyPages_succ_ok K h0, copyLog_succ_ok K h0, hrest]
      rfl

/-! ## A move into a free range -/

/-- What a relocation leaves in memory is what the copies of its log make of the memory with the new
area in it. -/
def Replays (s : Space) (vma : VmAreaStruct) (src dst : Nat) : Prop :=
  ∃ log s₁, relocateLog K s vma src dst = some log
    ∧ K.vmMmap s dst (sizeFrom vma src) (protOf vma) (flagsOf vma) = some (dst, s₁)
    ∧ (relocate K s vma src dst).2.mem = replay log s₁.mem

/-- Into a free range a relocation always gets through, and has copied as many pages as the
counter said. -/
theorem relocate_room (hK : K.NoFault) {s : Space} {vma : VmAreaStruct} {src dst : Nat}
    (h : Room s vma src dst) :
    (relocate K s vma src dst).1 = .moved
      ∧ relocateLog K s vma src dst
        = some ((List.range (iterations (vma.stop - src))).map
            fun k => (src + k * 4096, dst + k * 4096))
      ∧ Replays K s vma src dst := by
  obtain ⟨s₁, hmmap, hp⟩ := h.mmap (K := K)
  have hsize := sizeFrom_eq h.source
  have hle := iterations_le (vma.stop - src)
  have hok : ∀ k < iterations (vma.stop - src), PageOk K s₁.toMmStruct src dst k :=
    fun k hk => h.pageOk hK hp (by omega)
  have hnone := (copyPages_none_iff K).mpr hok
  have hlog : relocateLog K s vma src dst
      = some (copyLog K (iterations (vma.stop - src)) src dst s₁) := by
    unfold relocateLog
    rw [hmmap, hsize]
    dsimp only
    cases hc : copyPages K (iterations (vma.stop - src)) src dst s₁ with
    | mk e s₂ =>
        rw [hc] at hnone
        dsimp only at hnone
        subst hnone
        rfl
  refine ⟨?_, by rw [hlog, copyLog_eq K hok], _, s₁, hlog, hmmap, ?_⟩
  · rw [relocate_exit_eq K hmmap, hsize, hnone]
    rfl
  · rw [(relocate_mm K hmmap).2.2, hsize]
    exact copyPages_mem_eq_replay K hok

/-- All pages are copied exactly if their number fits the counter. -/
theorem copiesAll_iff (hK : K.NoFault) {s : Space} {vma : VmAreaStruct} {src dst : Nat}
    (h : Room s vma src dst) :
    CopiesAll K s vma src dst ↔ (vma.stop - src) / 4096 < 2 ^ 32 := by
  have hlog := (relocate_room K hK h).2.1
  constructor
  · rintro ⟨log, hlog', hall⟩
    obtain rfl := Option.some.inj (hlog'.symm.trans hlog)
    by_contra hbig
    -- the last page is not among the first `iterations` ones
    have hlast := hall ((vma.stop - src) / 4096 - 1) (by omega)
    obtain ⟨k, hk, heq⟩ := List.mem_map.mp hlast
    have hk' : k < iterations (vma.stop - src) := List.mem_range.mp hk
    have hsame : src + k * 4096 = src + ((vma.stop - src) / 4096 - 1) * 4096 :=
      congrArg Prod.fst heq
    unfold iterations at hk'
    omega
  · intro hsmall
    refine ⟨_, hlog, fun k hk => List.mem_map.mpr ⟨k, List.mem_range.mpr ?_, rfl⟩⟩
    unfold iterations
    omega

/--
**When a move drops pages.**

For every area of any size, readable and writable, with a free destination range and
copies that do not fail: both commands are the same relocation, it gets through to the
unmapping of the source, it leaves in memory what its copies make, and these are copies of
every page exactly if there are fewer than 2³² of them.
-/
theorem moves_copy_all_iff (hK : K.NoFault) {s : Space} {param src dst : Nat} {vma : VmAreaStruct}
    (harg : K.CanRead s.toMmStruct param 16) (h : Room s vma src dst) :
    (s.address param = ⟨src, dst⟩ → mveVmaTo K s param = relocate K s vma src dst)
      ∧ ((s.address param).fromAddr = src → s.hole vma src = some dst →
          mveVma K s param = writeBack K param src dst (relocate K s vma src dst))
      ∧ (relocate K s vma src dst).1 = .moved
      ∧ Replays K s vma src dst
      ∧ (CopiesAll K s vma src dst ↔ (vma.stop - src) / 4096 < 2 ^ 32) := by
  obtain ⟨hmoved, -, hreplays⟩ := relocate_room K hK h
  refine ⟨fun ha => ?_, fun ha hole => ?_, hmoved, hreplays, copiesAll_iff K hK h⟩
  · have hpos := h.size_pos
    exact mveVmaTo_eq_relocate K harg ha h.source
      (mtreeLoad_eq_none_iff.mpr (h.free dst (Nat.le_refl dst) (by omega)))
  · exact mveVma_of_hole harg ha h.source hole

theorem holes_room : Room holes (rwPage 0x12000) 0x12000 0x13000 where
  source := holes_second.2.2.1
  read := rfl
  write := rfl
  srcAligned := rfl
  dstAligned := rfl
  below := by decide
  free := (isFree_iff (by decide)).mp (by decide)

/-- Two pages moved to 0x50000 as told, and a page moved to the hole behind it. -/
theorem moves_copy_all_small :
    ((mveVmaTo Kernel.topDown (twoPages 0x10000 0x50000) 0x30000).1 = .moved
        ∧ CopiesAll Kernel.topDown (twoPages 0x10000 0x50000) ⟨0x10000, 0x12000, plainInfo⟩
            0x10000 0x50000)
      ∧ mveVma Kernel.topDown holes 0x30010 = writeBack Kernel.topDown 0x30010 0x12000 0x13000
          (relocate Kernel.topDown holes (rwPage 0x12000) 0x12000 0x13000)
        ∧ CopiesAll Kernel.topDown holes (rwPage 0x12000) 0x12000 0x13000 := by
  have hK : Kernel.topDown.NoFault := fun _ _ => rfl
  have harg : Kernel.topDown.CanRead (twoPages 0x10000 0x50000).toMmStruct 0x30000 16 := by decide
  obtain ⟨hto, -, hmoved, -, hall⟩ :=
    moves_copy_all_iff Kernel.topDown hK harg twoPages_feasible.toRoom
  obtain ⟨harg', ha, -, hole⟩ := holes_second
  obtain ⟨-, hmve, -, -, hall'⟩ := moves_copy_all_iff Kernel.topDown hK harg' holes_room
  exact ⟨⟨by rw [hto (by decide)]; exact hmoved, hall.mpr (by decide)⟩, hmve ha hole,
    hall'.mpr (by decide)⟩

/-- An area of 2³² pages. -/
def hugeArea : VmAreaStruct := ⟨0x10000, 0x100000010000, plainInfo⟩

/-- The area, and a page with the request to move it to a free range of its size. -/
def huge : Space where
  areas := [hugeArea, ⟨0x700000000000, 0x700000001000, plainInfo⟩]
  sorted := by decide
  wf := by decide
  mem := Mem.write (fun x => UInt8.ofNat x) 0x700000000000
    (Address.encode ⟨0x10000, 0x200000000000⟩)

theorem huge_room : Room huge hugeArea 0x10000 0x200000000000 where
  source := by decide
  read := rfl
  write := rfl
  srcAligned := rfl
  dstAligned := rfl
  below := by decide
  free := (isFree_iff (by decide)).mp (by decide)

/-- The move of 2³² pages reports success and unmaps them without having copied one. -/
theorem mveVmaTo_drops_huge :
    huge.address 0x700000000000 = ⟨0x10000, 0x200000000000⟩
      ∧ (mveVmaTo Kernel.topDown huge 0x700000000000).1 = .moved
      ∧ relocateLog Kernel.topDown huge hugeArea 0x10000 0x200000000000 = some []
      ∧ (mveVmaTo Kernel.topDown huge 0x700000000000).2.attr 0x10000 = none
      ∧ ¬CopiesAll Kernel.topDown huge hugeArea 0x10000 0x200000000000 := by
  have hK : Kernel.topDown.NoFault := fun _ _ => rfl
  have ha : huge.address 0x700000000000 = ⟨0x10000, 0x200000000000⟩ := by decide
  have hrun : mveVmaTo Kernel.topDown huge 0x700000000000
      = relocate Kernel.topDown huge hugeArea 0x10000 0x200000000000 :=
    mveVmaTo_eq_relocate Kernel.topDown (by decide) ha huge_room.source (by decide)
  obtain ⟨hmoved, hlog, -⟩ := relocate_room Kernel.topDown hK huge_room
  obtain ⟨s₁, hmmap, -⟩ := huge_room.mmap (K := Kernel.topDown)
  have hnone : iterations (hugeArea.stop - 0x10000) = 0 := by decide
  rw [hnone] at hlog
  refine ⟨ha, by rw [hrun]; exact hmoved, hlog, ?_, ?_⟩
  · rw [hrun, relocate_moved_attr Kernel.topDown huge_room.source rfl hmmap hmoved,
      if_pos ⟨by decide, by decide⟩]
  · rw [copiesAll_iff Kernel.topDown hK huge_room]
    decide

end LinuxDrivers.Vma
