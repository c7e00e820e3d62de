import LinuxDrivers.Vma.Merge
import LinuxDrivers.Vma.Preserve

/-!
# There and back

Moving a range away and moving it back should change nothing. The first call does its
part (`relocate_movable`); what the second one moves is the area it *finds* at the
destination, from there to its end. With a kernel that merges areas this is the range that
was moved, unless a private anonymous area of the same permissions starts right behind it:
then that area comes along.

A neighbour below does no harm, the area found then starts earlier but is moved from the
address given on. Neither does the source itself as the neighbour above: its pages are
unmapped by the first call, and the cut takes the merged area back to the moved range.
-/

namespace LinuxDrivers.Vma

variable (K : Kernel)

/-- Another area with the same data starts where the moved range will end. -/
def NeighbourAbove (s : Space) (vma : VmAreaStruct) (src dst : Nat) : Prop :=
  ∃ u ∈ s.areas, u ≠ vma ∧ u.start = dst + (vma.stop - src) ∧ u.data = vma.data

/-! ## The view -/

/-- Moving a range into an unmapped one and back is the identity. -/
theorem move_move {v : View} {src dst size : Nat}
    (hfree : ∀ x, dst ≤ x → x < dst + size → v x = none) :
    (v.move src dst size).move dst src size = v := by
  funext x
  unfold View.move
  by_cases hsrc : src ≤ x ∧ x < src + size
  · have hback : dst ≤ dst + (x - src) ∧ dst + (x - src) < dst + size := by omega
    have hsame : src + (dst + (x - src) - dst) = x := by omega
    rw [if_pos hsrc, if_pos hback, hsame]
  · rw [if_neg hsrc]
    by_cases hdst : dst ≤ x ∧ x < dst + size
    · rw [if_pos hdst, hfree x hdst.1 hdst.2]
    · rw [if_neg hdst, if_neg hdst, if_neg hsrc]

theorem view_eq_none_iff {s : Space} {x : Nat} : s.view x = none ↔ s.attr x = none := by
  unfold Space.view
  rw [Option.map_eq_none_iff]

/-! ## What the second call finds -/

section

variable {K} {s : Space} {vma : VmAreaStruct} {src dst : Nat}

/-- The area around the destination after the move: the merged one, cut at the source. -/
theorem found_after_move (hM : K.Merges) (h : Movable s vma src dst) (hplain : vma.data.Plain)
    (hmoved : (relocate K s vma src dst).1 = .moved) :
    ∃ v, (relocate K s vma src dst).2.mtreeLoad dst = some v ∧ v.data = vma.data
      ∧ v.stop = if dst < src then min (s.mergedStop vma.data (dst + (vma.stop - src))) src
          else s.mergedStop vma.data (dst + (vma.stop - src)) := by
  have hsize := sizeFrom_eq h.source
  have hpos := h.toRoom.size_pos
  have halign := h.toRoom.size_aligned
  obtain ⟨hwf, -, hlt⟩ := mtreeLoad_spec h.source
  obtain ⟨s₁, hmmap, -⟩ := h.toRoom.mmap (K := K)
  -- the new area has the data of the old one
  have hdata : (⟨attrOf (protOf vma) (flagsOf vma), false⟩ : VmInfo) = vma.data := by
    rw [← hplain.1]
    rfl
  have hfound := hM hmmap (by simp [flagsOf, hplain.1]) hplain.2
  rw [hdata, hsize, pageAlign_of_aligned halign] at hfound
  have hend : src + (vma.stop - src) = vma.stop := by omega
  have hout : ¬(src ≤ dst ∧ dst < src + (vma.stop - src)) := by
    rw [hend]
    exact h.toRoom.apart (Nat.le_refl dst) (by omega)
  obtain ⟨v, hv, hvdata, hvstop⟩ := vmMunmap_mtreeLoad s₁.toMmStruct h.srcAligned halign hpos
    (by rw [hend]; exact hwf.below) hout hfound
  refine ⟨v, ?_, hvdata, hvstop⟩
  rw [(relocate_mm K hmmap).1 hmoved, hsize]
  exact hv

/-- Without a neighbour above, that is the moved range. -/
theorem mergedStop_of_no_neighbour (h : Movable s vma src dst) (hstart : vma.start = src)
    (hno : ¬NeighbourAbove s vma src dst) :
    (if dst < src then min (s.mergedStop vma.data (dst + (vma.stop - src))) src
      else s.mergedStop vma.data (dst + (vma.stop - src))) = dst + (vma.stop - src) := by
  have hpos := h.toRoom.size_pos
  have hapart := h.toRoom.apart (Nat.le_refl dst) (by omega)
  have hlast := h.toRoom.apart (x := dst + (vma.stop - src) - 1) (by omega) (by omega)
  rcases mergedStop_cases s.toMmStruct vma.data (dst + (vma.stop - src)) with
    ⟨u, hu, hustart, hudata, heq⟩ | ⟨-, heq⟩
  · -- the only such area is the source, and the cut takes it away again
    have hself : u = vma := by
      by_contra hne
      exact hno ⟨u, hu, hne, hustart, hudata⟩
    rw [hself, hstart] at hustart
    rw [heq, hself, if_pos (by omega)]
    omega
  · rw [heq]
    split <;> omega

/-- With one, it reaches to the end of the neighbour. -/
theorem mergedStop_of_neighbour (h : Movable s vma src dst) (hstart : vma.start = src)
    {u : VmAreaStruct} (hu : u ∈ s.areas) (hne : u ≠ vma)
    (hustart : u.start = dst + (vma.stop - src)) (hudata : u.data = vma.data) :
    (if dst < src then min (s.mergedStop vma.data (dst + (vma.stop - src))) src
      else s.mergedStop vma.data (dst + (vma.stop - src))) = u.stop := by
  have hpos := h.toRoom.size_pos
  have hnonempty := (s.wf u hu).nonempty
  obtain ⟨hvma, -⟩ := Area.has_of_lookup h.source
  have heq : s.mergedStop vma.data (dst + (vma.stop - src)) = u.stop := by
    rcases mergedStop_cases s.toMmStruct vma.data (dst + (vma.stop - src)) with
      ⟨w, hw, hwstart, -, heq⟩ | ⟨hnone, -⟩
    · have hwne := (s.wf w hw).nonempty
      have hwu : w = u := s.sorted.unique hw hu (x := u.start) ⟨by omega, by omega⟩
        ⟨Nat.le_refl _, hnonempty⟩
      rw [heq, hwu]
    · exact absurd hudata (hnone u hu hustart)
  rw [heq]
  split
  · rename_i hlt
    -- the source lies above the neighbour, or it would be the neighbour
    have hlast := h.toRoom.apart (x := dst + (vma.stop - src) - 1) (by omega) (by omega)
    have hfirst := h.toRoom.apart (x := dst) (Nat.le_refl dst) (by omega)
    have habove : u.stop ≤ src := by
      by_contra hin
      exact hne (s.sorted.unique hu hvma (x := src) ⟨by omega, by omega⟩ ⟨by omega, by omega⟩)
    omega
  · rfl

end

/-! ## The way back -/

section

variable {K} {s s' : Space} {vma v : VmAreaStruct} {src dst : Nat}

/-- If the second call finds the moved range, it restores the view. -/
theorem back_restores (hK : K.NoFault) (h : Movable s vma src dst)
    (hrun : relocate K s vma src dst = (.moved, s')) (hv : s'.mtreeLoad dst = some v)
    (hdata : v.data = vma.data) (hstop : v.stop = dst + (vma.stop - src)) :
    ∃ s'', relocate K s' v dst src = (.moved, s'') ∧ s''.view = s.view := by
  have hpos := h.toRoom.size_pos
  obtain ⟨hwf, -, hlt⟩ := mtreeLoad_spec h.source
  have hsize : v.stop - dst = vma.stop - src := by omega
  have hend : src + (vma.stop - src) = vma.stop := by omega
  obtain ⟨t, ht, hattr, -⟩ := relocate_movable K hK h
  obtain ⟨t', ht', hview⟩ := relocate_view K hK h
  rw [hrun] at ht ht'
  cases ht
  cases ht'
  have hmovable : Movable s' v dst src :=
    { source := hv
      read := by rw [hdata]; exact h.read
      write := by rw [hdata]; exact h.write
      pages := by rw [hsize]; exact h.pages
      srcAligned := h.dstAligned
      dstAligned := h.srcAligned
      below := by rw [hsize, hend]; exact hwf.below
      free := by
        intro x h1 h2
        rw [hsize, hend] at h2
        have hout : ¬(dst ≤ x ∧ x < dst + (vma.stop - src)) :=
          fun hd => h.toRoom.apart hd.1 hd.2 ⟨h1, h2⟩
        rw [hattr, if_neg hout, if_pos ⟨h1, h2⟩] }
  obtain ⟨s'', hrun'', hview''⟩ := relocate_view K hK hmovable
  refine ⟨s'', hrun'', ?_⟩
  rw [hview'', hview, hsize]
  exact move_move fun x h1 h2 => view_eq_none_iff.mpr (h.free x h1 h2)

/-- If it finds more, the space is not what it was: what came along is gone, or the moved
range is still there. -/
theorem back_of_more (h : Movable s vma src dst) (hdst : s'.attr dst = some vma.data.attr)
    (hv : s'.mtreeLoad dst = some v) (hmore : dst + (vma.stop - src) < v.stop)
    (hmapped : s.attr (dst + (vma.stop - src)) ≠ none) :
    ¬((relocate K s' v dst src).1.ret = 0 ∧ (relocate K s' v dst src).2.view = s.view) := by
  have hpos := h.toRoom.size_pos
  rintro ⟨hret, hview⟩
  have hsame : ∀ x, (relocate K s' v dst src).2.attr x = none ↔ s.attr x = none := by
    intro x
    rw [← view_eq_none_iff, ← view_eq_none_iff, hview]
  cases hmmap : K.vmMmap s' src (sizeFrom v dst) (protOf v) (flagsOf v) with
  | none =>
      rw [relocate_mmapFailed K hmmap] at hret
      exact absurd hret (by simp [MoveExit.ret])
  | some r =>
      obtain ⟨ptr, s₁⟩ := r
      by_cases hmoved : (relocate K s' v dst src).1 = .moved
      · -- the neighbour's first page was unmapped with the rest
        have hgone := relocate_moved_attr K hv h.dstAligned hmmap hmoved (dst + (vma.stop - src))
        rw [if_pos ⟨by omega, hmore⟩] at hgone
        exact hmapped ((hsame _).mp hgone)
      · have hstill : (relocate K s' v dst src).2.attr dst = some vma.data.attr := by
          rw [(relocate_mm K hmmap).2.1 hmoved]
          exact (mmap_placed_attr K hmmap).attr_of_mapped hdst
        have hnone := (hsame dst).mpr (h.free dst (Nat.le_refl dst) (by omega))
        rw [hstill] at hnone
        cases hnone

end

/-! ## The two calls -/

section

variable {K} {s : Space} {p₁ p₂ src dst : Nat} {vma : VmAreaStruct}

/-- What is known after the first call. -/
theorem there (hK : K.NoFault) (hM : K.Merges) (harg : K.CanRead s.toMmStruct p₁ 16)
    (ha : s.address p₁ = ⟨src, dst⟩) (h : Movable s vma src dst) (hplain : vma.data.Plain) :
    ∃ s' v, mveVmaTo K s p₁ = (.moved, s') ∧ relocate K s vma src dst = (.moved, s')
      ∧ s'.mtreeLoad dst = some v ∧ s'.mtreeLoad src = none ∧ v.data = vma.data
      ∧ v.stop = if dst < src then min (s.mergedStop vma.data (dst + (vma.stop - src))) src
          else s.mergedStop vma.data (dst + (vma.stop - src)) := by
  have hpos := h.toRoom.size_pos
  obtain ⟨s', hrun, hattr, -⟩ := relocate_movable K hK h
  have hfree : s.mtreeLoad dst = none :=
    mtreeLoad_eq_none_iff.mpr (h.free dst (Nat.le_refl dst) (by omega))
  obtain ⟨v, hv, hdata, hstop⟩ := found_after_move hM h hplain (by rw [hrun])
  rw [hrun] at hv
  have hgone : s'.mtreeLoad src = none := by
    have hlt := (mtreeLoad_spec h.source).2.2
    have hout : ¬(dst ≤ src ∧ src < dst + (vma.stop - src)) :=
      fun hd => h.toRoom.apart hd.1 hd.2 ⟨Nat.le_refl _, hlt⟩
    rw [mtreeLoad_eq_none_iff, hattr, if_neg hout, if_pos ⟨Nat.le_refl _, hlt⟩]
  exact ⟨s', v, by rw [mveVmaTo_eq_relocate K harg ha h.source hfree, hrun], hrun, hv, hgone,
    hdata, hstop⟩

/-- Without a neighbour above, both calls succeed and the view is as before. -/
theorem back_of_no_neighbour (hK : K.NoFault) (hM : K.Merges)
    (harg : K.CanRead s.toMmStruct p₁ 16) (ha : s.address p₁ = ⟨src, dst⟩)
    (h : Movable s vma src dst) (hstart : vma.start = src) (hplain : vma.data.Plain)
    (harg' : K.CanRead (mveVmaTo K s p₁).2.toMmStruct p₂ 16)
    (ha' : (mveVmaTo K s p₁).2.address p₂ = ⟨dst, src⟩) (hno : ¬NeighbourAbove s vma src dst) :
    (mveVmaTo K s p₁).1.ret = 0 ∧ (mveVmaTo K (mveVmaTo K s p₁).2 p₂).1.ret = 0
      ∧ (mveVmaTo K (mveVmaTo K s p₁).2 p₂).2.view = s.view := by
  obtain ⟨s', v, hcall, hrun, hv, hgone, hdata, hstop⟩ := there hK hM harg ha h hplain
  rw [mergedStop_of_no_neighbour h hstart hno] at hstop
  rw [hcall] at harg' ha' ⊢
  obtain ⟨s'', hback, hview⟩ := back_restores hK h hrun hv hdata hstop
  rw [mveVmaTo_eq_relocate K harg' ha' hv hgone, hback]
  exact ⟨rfl, rfl, hview⟩

/-- With one, the second call fails or the view has changed. -/
theorem not_back_of_neighbour (hK : K.NoFault) (hM : K.Merges)
    (harg : K.CanRead s.toMmStruct p₁ 16) (ha : s.address p₁ = ⟨src, dst⟩)
    (h : Movable s vma src dst) (hstart : vma.start = src) (hplain : vma.data.Plain)
    (harg' : K.CanRead (mveVmaTo K s p₁).2.toMmStruct p₂ 16)
    (ha' : (mveVmaTo K s p₁).2.address p₂ = ⟨dst, src⟩) (hyes : NeighbourAbove s vma src dst) :
    ¬((mveVmaTo K (mveVmaTo K s p₁).2 p₂).1.ret = 0
      ∧ (mveVmaTo K (mveVmaTo K s p₁).2 p₂).2.view = s.view) := by
  obtain ⟨u, hu, hne, hustart, hudata⟩ := hyes
  have hpos := h.toRoom.size_pos
  have hnonempty := (s.wf u hu).nonempty
  obtain ⟨s', v, hcall, hrun, hv, hgone, hdata, hstop⟩ := there hK hM harg ha h hplain
  rw [mergedStop_of_neighbour h hstart hu hne hustart hudata] at hstop
  rw [hcall] at harg' ha' ⊢
  rw [mveVmaTo_eq_relocate K harg' ha' hv hgone]
  obtain ⟨t, ht, hattr, -⟩ := relocate_movable K hK h
  rw [hrun] at ht
  cases ht
  refine back_of_more h ?_ hv (by omega) ?_
  · rw [hattr, if_pos ⟨Nat.le_refl _, by omega⟩]
  · have hload : s.mtreeLoad (dst + (vma.stop - src)) = some u :=
      (Area.lookup_eq_some_iff s.sorted).mpr ⟨hu, by omega, by omega⟩
    rw [attr_of_mtreeLoad hload ⟨by omega, by omega⟩]
    simp

/--
**When moving there and back is the identity.**

On a kernel that merges private anonymous areas, for such an area moved as a whole into a free
range: both calls return 0 and every page has its old mapping and contents, exactly if no
other private anonymous area of the same permissions starts where the moved range ends.
-/
theorem there_and_back_iff (hK : K.NoFault) (hM : K.Merges)
    (harg : K.CanRead s.toMmStruct p₁ 16) (ha : s.address p₁ = ⟨src, dst⟩)
    (h : Feasible s vma src dst) (hstart : vma.start = src) (hplain : vma.data.Plain)
    (harg' : K.CanRead (mveVmaTo K s p₁).2.toMmStruct p₂ 16)
    (ha' : (mveVmaTo K s p₁).2.address p₂ = ⟨dst, src⟩) :
    ((mveVmaTo K s p₁).1.ret = 0 ∧ (mveVmaTo K (mveVmaTo K s p₁).2 p₂).1.ret = 0
      ∧ (mveVmaTo K (mveVmaTo K s p₁).2 p₂).2.view = s.view) ↔ ¬NeighbourAbove s vma src dst := by
  constructor
  · intro hback hyes
    exact not_back_of_neighbour hK hM harg ha h.movable hstart hplain harg' ha' hyes hback.2
  · exact back_of_no_neighbour hK hM harg ha h.movable hstart hplain harg' ha'

end

/-! ## A space to try it on -/

/-- An argument outside both ranges is still there after the move. -/
theorem arg_after_move (hK : K.NoFault) {s : Space} {p₁ p src dst : Nat} {vma : VmAreaStruct}
    (harg : K.CanRead s.toMmStruct p₁ 16) (ha : s.address p₁ = ⟨src, dst⟩)
    (h : Movable s vma src dst) (hp : K.CanRead s.toMmStruct p 16)
    (hout : ∀ i < 16, ¬(dst ≤ p + i ∧ p + i < dst + (vma.stop - src))
      ∧ ¬(src ≤ p + i ∧ p + i < vma.stop)) :
    K.CanRead (mveVmaTo K s p₁).2.toMmStruct p 16
      ∧ (mveVmaTo K s p₁).2.address p = s.address p := by
  have hpos := h.toRoom.size_pos
  obtain ⟨s', hrun, hattr, hmem⟩ := relocate_movable K hK h
  have hfree : s.mtreeLoad dst = none :=
    mtreeLoad_eq_none_iff.mpr (h.free dst (Nat.le_refl dst) (by omega))
  rw [mveVmaTo_eq_relocate K harg ha h.source hfree, hrun]
  constructor
  · intro i hi
    have hcan := hp i hi
    unfold Kernel.canRead at hcan ⊢
    rw [hattr, if_neg (hout i hi).1, if_neg (hout i hi).2]
    exact hcan
  · have hread : s'.mem.read p 16 = s.mem.read p 16 := by
      refine List.map_congr_left fun x hx => ?_
      obtain ⟨h1, h2⟩ := List.mem_range'_1.mp hx
      have hx' : p + (x - p) = x := by omega
      have hnot := (hout (x - p) (by omega)).1
      rw [hx'] at hnot
      rw [hmem, if_neg hnot]
    unfold Space.address
    rw [hread]

/-- The area to be moved. -/
def sourceArea : VmAreaStruct := ⟨0x10000, 0x12000, plainInfo⟩

/-- Both requests, one after the other. -/
def requests : List UInt8 := Address.encode ⟨0x10000, 0x50000⟩ ++ Address.encode ⟨0x50000, 0x10000⟩

/-- Two pages to be moved to 0x50000 and back, the requests, and nothing else. -/
def alone : Space where
  areas := [sourceArea, ⟨0x30000, 0x31000, plainInfo⟩]
  sorted := by decide
  wf := by decide
  mem := Mem.write (fun x => UInt8.ofNat x) 0x30000 requests

/-- The same with a page right behind the destination. -/
def crowded : Space where
  areas := [sourceArea, ⟨0x30000, 0x31000, plainInfo⟩, ⟨0x52000, 0x53000, plainInfo⟩]
  sorted := by decide
  wf := by decide
  mem := Mem.write (fun x => UInt8.ofNat x) 0x30000 requests

theorem alone_feasible : Feasible alone sourceArea 0x10000 0x50000 where
  source := by decide
  read := rfl
  write := rfl
  pages := by decide
  srcAligned := rfl
  dstAligned := rfl
  below := by decide
  free := (isFree_iff (by decide)).mp (by decide)

theorem crowded_feasible : Feasible crowded sourceArea 0x10000 0x50000 where
  source := by decide
  read := rfl
  write := rfl
  pages := by decide
  srcAligned := rfl
  dstAligned := rfl
  below := by decide
  free := (isFree_iff (by decide)).mp (by decide)

/-- The second request lies in neither range. -/
theorem second_request_outside : ∀ i < 16, ¬(0x50000 ≤ 0x30010 + i
      ∧ 0x30010 + i < 0x50000 + (sourceArea.stop - 0x10000))
    ∧ ¬(0x10000 ≤ 0x30010 + i ∧ 0x30010 + i < sourceArea.stop) := by
  intro i hi
  have hstop : sourceArea.stop = 0x12000 := rfl
  omega

/-- Two pages with nothing behind the destination are moved there and back. -/
theorem there_and_back_alone :
    (mveVmaTo Kernel.merging alone 0x30000).1.ret = 0
      ∧ (mveVmaTo Kernel.merging (mveVmaTo Kernel.merging alone 0x30000).2 0x30010).1.ret = 0
      ∧ (mveVmaTo Kernel.merging (mveVmaTo Kernel.merging alone 0x30000).2 0x30010).2.view
          = alone.view := by
  have harg : Kernel.merging.CanRead alone.toMmStruct 0x30000 16 := by decide
  have ha : alone.address 0x30000 = ⟨0x10000, 0x50000⟩ := by decide
  have hp : Kernel.merging.CanRead alone.toMmStruct 0x30010 16 := by decide
  have ha' : alone.address 0x30010 = ⟨0x50000, 0x10000⟩ := by decide
  obtain ⟨hread, haddr⟩ := arg_after_move Kernel.merging Kernel.merging_noFault harg ha
    alone_feasible.movable hp second_request_outside
  refine (there_and_back_iff Kernel.merging_noFault Kernel.merging_merges harg ha alone_feasible rfl
    ⟨rfl, rfl⟩ hread (haddr.trans ha')).mpr ?_
  rintro ⟨u, hu, hne, hstart, -⟩
  have hmem : u = sourceArea ∨ u = ⟨0x30000, 0x31000, plainInfo⟩ := by simpa [alone] using hu
  rcases hmem with rfl | rfl
  · exact hne rfl
  · exact absurd hstart (by decide)

/-- A page behind the destination, of the same permissions, comes along on the way back. -/
theorem not_there_and_back_crowded :
    (mveVmaTo Kernel.merging crowded 0x30000).1.ret = 0
      ∧ (mveVmaTo Kernel.merging crowded 0x30000).2.address 0x30010 = ⟨0x50000, 0x10000⟩
      ∧ ¬((mveVmaTo Kernel.merging (mveVmaTo Kernel.merging crowded 0x30000).2 0x30010).1.ret = 0
        ∧ (mveVmaTo Kernel.merging (mveVmaTo Kernel.merging crowded 0x30000).2 0x30010).2.view
            = crowded.view) := by
  have harg : Kernel.merging.CanRead crowded.toMmStruct 0x30000 16 := by decide
  have ha : crowded.address 0x30000 = ⟨0x10000, 0x50000⟩ := by decide
  have hp : Kernel.merging.CanRead crowded.toMmStruct 0x30010 16 := by decide
  have ha' : crowded.address 0x30010 = ⟨0x50000, 0x10000⟩ := by decide
  obtain ⟨hread, haddr⟩ := arg_after_move Kernel.merging Kernel.merging_noFault harg ha
    crowded_feasible.movable hp second_request_outside
  obtain ⟨s', v, hcall, -⟩ := there Kernel.merging_noFault Kernel.merging_merges harg ha
    crowded_feasible.movable ⟨rfl, rfl⟩
  refine ⟨by rw [hcall]; rfl, haddr.trans ha', ?_⟩
  refine not_back_of_neighbour Kernel.merging_noFault Kernel.merging_merges harg ha
    crowded_feasible.movable rfl ⟨rfl, rfl⟩ hread (haddr.trans ha') ?_
  exact ⟨⟨0x52000, 0x53000, plainInfo⟩, by decide, by decide, rfl, rfl⟩

end LinuxDrivers.Vma
