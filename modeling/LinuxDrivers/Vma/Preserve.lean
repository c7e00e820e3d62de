import LinuxDrivers.Vma.Move

/-!
# A move preserves memory

Into a free range, a readable and writable area is moved as `View.move` says: the
pages arrive with their bytes and their attributes, the old range is gone, and the
rest of the address space is as it was.

The destination is free and the source mapped, so the two never meet; that is what
makes the page-by-page copy read only pages it has not yet written.
-/

namespace LinuxDrivers.Vma

variable (K : Kernel)

/-- A request with `src` on a page of the readable and writable area `vma`, and room for the rest of
the area at `dst`. -/
structure Room (s : Space) (vma : VmAreaStruct) (src dst : Nat) : Prop where
  source : s.mtreeLoad src = some vma
  read : vma.data.attr.read = true
  write : vma.data.attr.write = true
  srcAligned : src % 4096 = 0
  dstAligned : dst % 4096 = 0
  below : dst + (vma.stop - src) ≤ taskSize
  free : ∀ x, dst ≤ x → x < dst + (vma.stop - src) → s.attr x = none

/-- What the relocation itself needs of a request: it can count the pages that are to be moved. -/
structure Movable (s : Space) (vma : VmAreaStruct) (src dst : Nat) : Prop
    extends Room s vma src dst where
  pages : (vma.stop - src) / 4096 < 2 ^ 32

/-- A request that can be carried out: all pages of the area can be counted. -/
structure Feasible (s : Space) (vma : VmAreaStruct) (src dst : Nat) : Prop
    extends Room s vma src dst where
  pages : vmaPages vma < 2 ^ 31

theorem Feasible.movable {s : Space} {vma : VmAreaStruct} {src dst : Nat}
    (h : Feasible s vma src dst) : Movable s vma src dst where
  toRoom := h.toRoom
  pages := by
    have hpages := h.pages
    have hstart := (mtreeLoad_spec h.source).2.1
    unfold vmaPages at hpages
    omega

namespace Room

variable {K} {s s₁ : Space} {vma : VmAreaStruct} {src dst : Nat}

theorem size_aligned (h : Room s vma src dst) : (vma.stop - src) % 4096 = 0 := by
  have hstop := (mtreeLoad_spec h.source).1.stop
  have hsrc := h.srcAligned
  omega

theorem size_pos (h : Room s vma src dst) : 0 < vma.stop - src := by
  have hlt := (mtreeLoad_spec h.source).2.2
  omega

/-- Every address of the source has the area's attributes. -/
theorem attr_source (h : Room s vma src dst) {x : Nat} (h1 : src ≤ x) (h2 : x < vma.stop) :
    s.attr x = some vma.data.attr := by
  have hstart := (mtreeLoad_spec h.source).2.1
  exact attr_of_mtreeLoad h.source ⟨by omega, h2⟩

/-- The two ranges do not meet. -/
theorem apart (h : Room s vma src dst) {x : Nat} (h1 : dst ≤ x)
    (h2 : x < dst + (vma.stop - src)) : ¬(src ≤ x ∧ x < vma.stop) := by
  intro hx
  have hnone := h.free x h1 h2
  rw [h.attr_source hx.1 hx.2] at hnone
  exact absurd hnone (by simp)

/-- The new area is put where it was asked for. -/
theorem mmap (h : Room s vma src dst) :
    ∃ s₁, K.vmMmap s dst (sizeFrom vma src) (protOf vma) (flagsOf vma) = some (dst, s₁)
      ∧ Placed s dst (vma.stop - src) vma.data.attr s₁ := by
  have halign := pageAlign_of_aligned h.size_aligned
  obtain ⟨s₁, hs₁⟩ := K.mmap_hint (s := s) (protOf vma) (flagsOf vma) h.dstAligned h.size_pos
    (by rw [halign]; exact h.below) (by rw [halign]; exact h.free)
  rw [sizeFrom_eq h.source]
  exact ⟨s₁, hs₁, K.mmap_placed hs₁⟩

/-- Every page can be copied once the new area is there. -/
theorem pageOk (h : Room s vma src dst) (hK : K.NoFault)
    (hp : Placed s dst (vma.stop - src) vma.data.attr s₁) {k : Nat}
    (hk : k < (vma.stop - src) / 4096) : PageOk K s₁.toMmStruct src dst k := by
  have halign := pageAlign_of_aligned h.size_aligned
  constructor
  · intro i hi
    have hx := hp.attr_of_mapped (h.attr_source (x := src + k * 4096 + i) (by omega) (by omega))
    unfold Kernel.canRead
    rw [hx, hK]
    simp [K.readable_of_read _ h.read]
  · intro i hi
    have hx := hp.new (dst + k * 4096 + i) (by omega) (by rw [halign]; omega)
    unfold Kernel.canWrite
    rw [hx, hK]
    simp [h.write]

end Room

/-- What such a relocation leaves behind, address by address. -/
theorem relocate_movable (hK : K.NoFault) {s : Space} {vma : VmAreaStruct} {src dst : Nat}
    (h : Movable s vma src dst) :
    ∃ s', relocate K s vma src dst = (.moved, s')
      ∧ (∀ x, s'.attr x = if dst ≤ x ∧ x < dst + (vma.stop - src) then some vma.data.attr
          else if src ≤ x ∧ x < vma.stop then none else s.attr x)
      ∧ ∀ x, s'.mem x = if dst ≤ x ∧ x < dst + (vma.stop - src) then s.mem (src + (x - dst))
          else s.mem x := by
  have hsize := sizeFrom_eq h.source
  have hpos := h.toRoom.size_pos
  have halign := h.toRoom.size_aligned
  have hpa := pageAlign_of_aligned halign
  obtain ⟨s₁, hmmap, hp⟩ := h.toRoom.mmap (K := K)
  obtain ⟨n, hn⟩ : ∃ n, vma.stop - src = n * 4096 := ⟨(vma.stop - src) / 4096, by omega⟩
  have hiter : iterations (sizeFrom vma src) = n := by
    have hpages := h.pages
    rw [iterations, hsize]
    omega
  -- the loop gets through
  have hok : ∀ k < n, PageOk K s₁.toMmStruct src dst k :=
    fun k hk => h.toRoom.pageOk hK hp (by omega)
  have hnone : (copyPages K n src dst s₁).1 = none := (copyPages_none_iff K).mpr hok
  have hcopied : copied K s₁.toMmStruct n src dst = n :=
    leading_eq_iff.mpr fun k hk => decide_eq_true (hok k hk)
  have hapart : dst < src ∨ src + n * 4096 ≤ dst := by
    have hdst := h.toRoom.apart (x := dst) (Nat.le_refl dst) (by omega)
    omega
  have hmoved : (relocate K s vma src dst).1 = .moved := by
    rw [relocate_exit_eq K hmmap, hiter, hnone]
    rfl
  have hmem := copyPages_mem K h.dstAligned hapart s₁
  rw [hcopied, ← hn] at hmem
  refine ⟨(relocate K s vma src dst).2, Prod.ext hmoved rfl, fun x => ?_, fun x => ?_⟩
  · rw [relocate_moved_attr K h.source h.srcAligned hmmap hmoved]
    by_cases hd : dst ≤ x ∧ x < dst + (vma.stop - src)
    · rw [if_neg (h.toRoom.apart hd.1 hd.2), if_pos hd]
      exact hp.new x hd.1 (by rw [hpa]; exact hd.2)
    · rw [if_neg hd, hp.old x (by rw [hpa]; exact hd)]
  · rw [(relocate_mm K hmmap).2.2, hiter, hmem]
    by_cases hd : dst ≤ x ∧ x < dst + (vma.stop - src)
    · rw [if_pos hd, if_pos hd]
      exact hp.mem_of_mapped (h.toRoom.attr_source (by omega) (by omega))
    · rw [if_neg hd, if_neg hd]
      exact hp.mem x (by rw [hpa]; exact hd)

/-- **Such a relocation moves the view.** -/
theorem relocate_view (hK : K.NoFault) {s : Space} {vma : VmAreaStruct} {src dst : Nat}
    (h : Movable s vma src dst) :
    ∃ s', relocate K s vma src dst = (.moved, s')
      ∧ s'.view = s.view.move src dst (vma.stop - src) := by
  obtain ⟨s', hrun, hattr, hmem⟩ := relocate_movable K hK h
  refine ⟨s', hrun, funext fun x => ?_⟩
  have hlt := (mtreeLoad_spec h.source).2.2
  have hend : src + (vma.stop - src) = vma.stop := by omega
  unfold Space.view View.move
  rw [hattr, hmem, hend]
  by_cases hd : dst ≤ x ∧ x < dst + (vma.stop - src)
  · have hsrc := h.toRoom.attr_source (x := src + (x - dst)) (by omega) (by omega)
    rw [if_pos hd, if_pos hd, if_pos hd]
    dsimp only
    rw [hsrc]
  · rw [if_neg hd, if_neg hd, if_neg hd]
    split
    · rfl
    · rfl

/--
**A directed move preserves memory.**

The pages arrive with their bytes and attributes, the old range is unmapped, and
everything outside the two ranges is as it was.
-/
theorem mveVmaTo_preserves (hK : K.NoFault) (s : Space) (param : Nat) {src dst : Nat}
    {vma : VmAreaStruct} (harg : K.CanRead s.toMmStruct param 16)
    (ha : s.address param = ⟨src, dst⟩) (h : Feasible s vma src dst) :
    ∃ e s', mveVmaTo K s param = (e, s') ∧ e.ret = 0
      ∧ (∀ d < vma.stop - src, s'.attr (dst + d) = s.attr (src + d)
          ∧ s'.mem (dst + d) = s.mem (src + d))
      ∧ (∀ x, src ≤ x → x < vma.stop → s'.attr x = none)
      ∧ ∀ x, ¬(dst ≤ x ∧ x < dst + (vma.stop - src)) → ¬(src ≤ x ∧ x < vma.stop) →
          s'.attr x = s.attr x ∧ s'.mem x = s.mem x := by
  have hdst : s.mtreeLoad dst = none :=
    mtreeLoad_eq_none_iff.mpr
      (h.free dst (Nat.le_refl dst) (by have := h.toRoom.size_pos; omega))
  obtain ⟨s', hrun, hattr, hmem⟩ := relocate_movable K hK h.movable
  refine ⟨.moved, s', ?_, rfl, ?_, ?_, ?_⟩
  · rw [mveVmaTo_eq_relocate K harg ha h.source hdst, hrun]
  · intro d hd
    have hin : dst ≤ dst + d ∧ dst + d < dst + (vma.stop - src) := by omega
    have hsub : dst + d - dst = d := by omega
    rw [hattr, hmem, if_pos hin, if_pos hin, h.toRoom.attr_source (by omega) (by omega), hsub]
    exact ⟨rfl, rfl⟩
  · intro x h1 h2
    have hout : ¬(dst ≤ x ∧ x < dst + (vma.stop - src)) :=
      fun hd => h.toRoom.apart hd.1 hd.2 ⟨h1, h2⟩
    rw [hattr, if_neg hout, if_pos ⟨h1, h2⟩]
  · intro x hd hs
    rw [hattr, hmem, if_neg hd, if_neg hd, if_neg hs]
    exact ⟨rfl, rfl⟩

/-! ## A space to try things on -/

/-- Two pages at 0x10000 holding their own low address bytes, and a page at 0x30000
with the argument `(src, dst)` at its start. -/
def twoPages (src dst : Nat) : Space where
  toMmStruct := twoAreas
  mem := Mem.write (fun x => UInt8.ofNat x) 0x30000 (Address.encode ⟨src, dst⟩)

theorem twoPages_feasible : Feasible (twoPages 0x10000 0x50000) ⟨0x10000, 0x12000, plainInfo⟩
    0x10000 0x50000 where
  source := by decide
  read := rfl
  write := rfl
  pages := by decide
  srcAligned := rfl
  dstAligned := rfl
  below := by decide
  free := (isFree_iff (by decide)).mp (by decide)

/-- Two pages moved from 0x10000 to 0x50000. -/
theorem mveVmaTo_preserves_twoPages :
    ∃ e s', mveVmaTo Kernel.topDown (twoPages 0x10000 0x50000) 0x30000 = (e, s') ∧ e.ret = 0
      ∧ s'.mem 0x50005 = (twoPages 0x10000 0x50000).mem 0x10005 ∧ s'.attr 0x10000 = none := by
  obtain ⟨e, s', h1, h2, h3, h4, -⟩ := mveVmaTo_preserves Kernel.topDown (fun _ _ => rfl)
    (twoPages 0x10000 0x50000) 0x30000 (by decide) (by decide) twoPages_feasible
  exact ⟨e, s', h1, h2, (h3 5 (by decide)).2, h4 0x10000 (by decide) (by decide)⟩

end LinuxDrivers.Vma
