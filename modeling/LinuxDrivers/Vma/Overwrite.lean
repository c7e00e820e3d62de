import LinuxDrivers.Vma.Preserve

/-!
# When a directed move destroys other memory

`IOCTL_MVE_VMA_TO` tests the first destination page and no other, and copies to
`to_addr` wherever `vm_mmap` has put the new area. If the destination range runs
into an existing area the new one goes elsewhere, and where it goes decides what
happens next. Usually `to_addr` stays unmapped and the first copy fails. But a
kernel that places areas top down may well put it so that it ends in the hole at
`to_addr`; the copy then starts in the new area and runs on into the old one.

The result at the end says exactly when that happens.
-/

namespace LinuxDrivers.Vma

variable (K : Kernel)

/-- The end of the area around `src`; a source that is not mapped has no pages. -/
def Space.sourceEnd (s : Space) (src : Nat) : Nat :=
  match s.mtreeLoad src with
  | none => src
  | some vma => vma.stop

/-- Every page mapped in `s` outside `[lo, hi)` is mapped in `s'` with the same bytes. -/
def Intact (s s' : Space) (lo hi : Nat) : Prop :=
  ∀ p, p % 4096 = 0 → s.attr p ≠ none → (p + 4096 ≤ lo ∨ hi ≤ p) →
    s'.attr p ≠ none ∧ ∀ i < 4096, s'.mem (p + i) = s.mem (p + i)

/-- The copy from `src` to `dst` reaches a page that was mapped outside the source
and holds other bytes: the request is admitted, the new area goes to `ptr`, and all
pages up to page `k` can be copied. -/
def Overwrites (s : Space) (param src dst : Nat) : Prop :=
  K.CanRead s.toMmStruct param 16 ∧
  ∃ vma ptr s₁ k,
    s.mtreeLoad src = some vma ∧ s.mtreeLoad dst = none ∧
    K.vmMmap s dst (sizeFrom vma src) (protOf vma) (flagsOf vma) = some (ptr, s₁) ∧
    k < iterations (sizeFrom vma src) ∧ (∀ j ≤ k, Copyable K s vma src dst ptr j) ∧
    s.attr (dst + k * 4096) ≠ none ∧
    (dst + k * 4096 + 4096 ≤ src ∨ vma.stop ≤ dst + k * 4096) ∧
    ∃ i < 4096, s.mem (src + k * 4096 + i) ≠ s.mem (dst + k * 4096 + i)

theorem Intact.refl (s : Space) (lo hi : Nat) : Intact s s lo hi := by
  intro p _ hp _
  exact ⟨hp, fun _ _ => rfl⟩

theorem sourceEnd_of_mtreeLoad {s : Space} {src : Nat} {vma : VmAreaStruct}
    (h : s.mtreeLoad src = some vma) : s.sourceEnd src = vma.stop := by
  unfold Space.sourceEnd
  rw [h]

section

variable {K} {s s₁ : Space} {vma : VmAreaStruct} {src dst ptr : Nat}

/-- An unmapped destination page lies below the source or past its end. -/
theorem apart_of_unmapped (hsrc : s.mtreeLoad src = some vma) (hdst : s.mtreeLoad dst = none) :
    dst < src ∨ vma.stop ≤ dst := by
  obtain ⟨-, hstart, -⟩ := mtreeLoad_spec hsrc
  by_contra hin
  have hattr := attr_of_mtreeLoad hsrc (y := dst) ⟨by omega, by omega⟩
  rw [mtreeLoad_eq_none_iff.mp hdst] at hattr
  exact absurd hattr (by simp)

/-- What the loop of an admitted request leaves at `x`: the source's byte if it got
that far, otherwise what was there. -/
theorem loop_mem (hsrc : s.mtreeLoad src = some vma) (hdst : s.mtreeLoad dst = none)
    (hda : dst % 4096 = 0) (hp : Placed s ptr (sizeFrom vma src) vma.data.attr s₁) (x : Nat) :
    (copyPages K (iterations (sizeFrom vma src)) src dst s₁).2.mem x
      = if dst ≤ x ∧ x < dst
          + copied K s₁.toMmStruct (iterations (sizeFrom vma src)) src dst * 4096
        then s.mem (src + (x - dst)) else s₁.mem x := by
  have hle := iterations_le (sizeFrom vma src)
  have hsize := sizeFrom_eq hsrc
  obtain ⟨-, hstart, hstop⟩ := mtreeLoad_spec hsrc
  have hcopied : copied K s₁.toMmStruct (iterations (sizeFrom vma src)) src dst
      ≤ iterations (sizeFrom vma src) := leading_le _ _
  have hapart := apart_of_unmapped hsrc hdst
  rw [copyPages_mem K hda (by omega)]
  split
  · rename_i hx
    exact hp.mem_of_mapped (attr_of_mtreeLoad hsrc ⟨by omega, by omega⟩)
  · rfl

/-- How far the loop gets, seen from before the call. -/
theorem lt_copied_iff (dst : Nat) (hsrc : s.mtreeLoad src = some vma)
    (hp : Placed s ptr (sizeFrom vma src) vma.data.attr s₁) {k : Nat} :
    k < copied K s₁.toMmStruct (iterations (sizeFrom vma src)) src dst
      ↔ k < iterations (sizeFrom vma src) ∧ ∀ j ≤ k, Copyable K s vma src dst ptr j := by
  unfold copied
  rw [lt_leading_iff]
  refine and_congr_right fun hk => forall_congr' fun j => forall_congr' fun hj => ?_
  rw [decide_eq_true_iff]
  exact pageOk_iff_copyable K hsrc hp (by omega)

end

/-- A page the copy reaches is destroyed. -/
theorem not_intact_of_overwrites {s : Space} {param src dst : Nat}
    (ha : s.address param = ⟨src, dst⟩) (hda : dst % 4096 = 0)
    (h : Overwrites K s param src dst) :
    ¬Intact s (mveVmaTo K s param).2 src (s.sourceEnd src) := by
  obtain ⟨harg, vma, ptr, s₁, k, hsrc, hdst, hmmap, hk, hcopy, hold, hout, i, hi, hne⟩ := h
  have hp := mmap_placed_attr K hmmap
  have hreach := (lt_copied_iff (K := K) dst hsrc hp).mpr ⟨hk, hcopy⟩
  rw [sourceEnd_of_mtreeLoad hsrc, mveVmaTo_eq_relocate K harg ha hsrc hdst]
  intro hintact
  have hsame := (hintact _ (by omega) hold hout).2 i hi
  rw [(relocate_outside K hsrc hmmap).2, loop_mem hsrc hdst hda hp, if_pos (by omega)] at hsame
  have hoff : src + (dst + k * 4096 + i - dst) = src + k * 4096 + i := by omega
  rw [hoff] at hsame
  exact hne hsame

/-- If the copy reaches no such page, nothing is destroyed. -/
theorem intact_of_not_overwrites {s : Space} {param src dst : Nat}
    (ha : s.address param = ⟨src, dst⟩) (hda : dst % 4096 = 0)
    (h : ¬Overwrites K s param src dst) :
    Intact s (mveVmaTo K s param).2 src (s.sourceEnd src) := by
  cases mveVmaTo_cases K ha with
  | argFault _ hrun =>
      rw [hrun]
      exact Intact.refl s _ _
  | refused e _ _ hrun =>
      rw [hrun]
      exact Intact.refl s _ _
  | relocated vma ptr s₁ harg hsrc hdst hmmap hrun =>
      rw [hrun, sourceEnd_of_mtreeLoad hsrc]
      have hp := mmap_placed_attr K hmmap
      obtain ⟨hattr, hmem⟩ := relocate_outside K hsrc hmmap
      intro p hpa hmapped hout
      obtain ⟨a, hattr_p⟩ := Option.ne_none_iff_exists'.mp hmapped
      refine ⟨?_, fun i hi => ?_⟩
      · rw [hattr p (by omega), hp.attr_of_mapped hattr_p]
        simp
      · rw [hmem, loop_mem hsrc hdst hda hp]
        split
        · -- a page of the destination that was mapped before
          rename_i hreach
          by_contra hne
          obtain ⟨k, rfl⟩ : ∃ k, p = dst + k * 4096 := ⟨(p - dst) / 4096, by omega⟩
          have hlt := (lt_copied_iff (K := K) dst hsrc hp (k := k)).mp (by omega)
          refine h ⟨harg, vma, ptr, s₁, k, hsrc, hdst, hmmap, hlt.1, hlt.2, hmapped, hout, i,
            hi, ?_⟩
          have hoff : src + k * 4096 + i = src + (dst + k * 4096 + i - dst) := by omega
          rw [hoff]
          exact hne
        · refine hp.mem_of_mapped (b := a) ?_
          rw [attr_page s.toMmStruct (by omega : (p + i) / 4096 = p / 4096), hattr_p]

/--
**When a directed move leaves all other memory alone.**

Whatever the call returns: exactly if the copy reaches no page that was mapped
before, lies outside the source, and holds other bytes than the source page that
is copied to it.
-/
theorem mveVmaTo_intact_iff (s : Space) (param : Nat) {src dst : Nat}
    (ha : s.address param = ⟨src, dst⟩) (hda : dst % 4096 = 0) :
    Intact s (mveVmaTo K s param).2 src (s.sourceEnd src) ↔ ¬Overwrites K s param src dst :=
  ⟨fun hintact h => not_intact_of_overwrites K ha hda h hintact, intact_of_not_overwrites K ha hda⟩

/-- Moving two pages into a range that is free leaves everything else alone. -/
theorem mveVmaTo_intact_twoPages :
    Intact (twoPages 0x10000 0x50000)
      (mveVmaTo Kernel.topDown (twoPages 0x10000 0x50000) 0x30000).2 0x10000 0x12000 := by
  have ha : (twoPages 0x10000 0x50000).address 0x30000 = ⟨0x10000, 0x50000⟩ := by decide
  refine (mveVmaTo_intact_iff Kernel.topDown (twoPages 0x10000 0x50000) 0x30000 ha
    (by decide)).mpr ?_
  rintro ⟨-, vma, ptr, s₁, k, hsrc, -, -, hk, -, hold, -⟩
  obtain rfl := Option.some.inj (twoPages_feasible.source.symm.trans hsrc)
  have hk' : k < 2 := hk
  exact hold (twoPages_feasible.free _ (by omega) (by show 0x50000 + k * 4096 < 0x52000; omega))

/-- Two pages of sevens at 0x10000, and a large area of zeros that reaches up to where
the kernel starts placing new ones. Its second page holds the argument: move the two
pages to the page just below it. -/
def hemmedIn : Space where
  areas := [⟨0x10000, 0x12000, plainInfo⟩, ⟨0x7ffff0000000, 0x7ffff7fff000, plainInfo⟩]
  sorted := by decide
  wf := by decide
  mem := Mem.write (fun x => if x < 0x12000 then 7 else 0) 0x7ffff0001000
    (Address.encode ⟨0x10000, 0x7fffeffff000⟩)

/-- The new area ends at the hole's end, and the second page is copied over the neighbour. -/
theorem hemmedIn_overwrites :
    Overwrites Kernel.topDown hemmedIn 0x7ffff0001000 0x10000 0x7fffeffff000 := by
  have hplace : hemmedIn.place 0x7fffeffff000 (pageAlign 0x2000) = some 0x7fffefffe000 := by decide
  obtain ⟨s₁, hmmap⟩ := topDownMmap_of_place (protOf ⟨0x10000, 0x12000, plainInfo⟩)
    (flagsOf ⟨0x10000, 0x12000, plainInfo⟩) (by decide : 0x2000 ≠ 0) hplace (by decide)
  refine ⟨by decide, ⟨0x10000, 0x12000, plainInfo⟩, 0x7fffefffe000, s₁, 1, by decide, by decide,
    hmmap, by decide, ?_, by decide, Or.inr (by decide), 0, by decide, by decide⟩
  intro j hj
  have hread : ∀ p, p % 4096 = 0 → Kernel.topDown.canRead hemmedIn.toMmStruct p = true →
      Kernel.topDown.CanRead hemmedIn.toMmStruct p 4096 :=
    fun p hp h => (canRead_page_iff Kernel.topDown hp).mpr h
  have hwrite : Kernel.topDown.CanWrite hemmedIn.toMmStruct 0x7ffff0000000 4096 :=
    (canWrite_page_iff Kernel.topDown (by decide)).mpr (by decide)
  obtain rfl | rfl : j = 0 ∨ j = 1 := by omega
  · refine ⟨hread _ (by decide) (by decide), fun i hi => Or.inr ⟨?_, ?_, rfl, rfl⟩⟩
    · omega
    · show 0x7fffeffff000 + 0 * 4096 + i < 0x7fffefffe000 + 0x2000
      omega
  · exact ⟨hread _ (by decide) (by decide), fun i hi => Or.inl (hwrite i hi)⟩

/-- A page of the neighbour is destroyed. -/
theorem mveVmaTo_destroys_neighbour :
    hemmedIn.address 0x7ffff0001000 = ⟨0x10000, 0x7fffeffff000⟩
      ∧ ¬Intact hemmedIn (mveVmaTo Kernel.topDown hemmedIn 0x7ffff0001000).2 0x10000
          (hemmedIn.sourceEnd 0x10000) :=
  ⟨by decide, not_intact_of_overwrites Kernel.topDown (by decide) (by decide) hemmedIn_overwrites⟩

end LinuxDrivers.Vma
