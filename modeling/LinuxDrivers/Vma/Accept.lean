import LinuxDrivers.Vma.Preserve

/-!
# Which directed moves are accepted

`IOCTL_MVE_VMA_TO` should move a range if there is room for it at the destination, and
return -1 if there is not. Of the destination it looks at the first page only. If that
page is free and a later one is not, the request goes on to the kernel, and the kernel,
asked without `MAP_FIXED`, takes the address as a hint: it puts the area elsewhere and
reports success. From there on every way out of the command returns 0.

So a request without room is refused by the kernel or not at all.
-/

namespace LinuxDrivers.Vma

variable (K : Kernel)

/-- Some page of the destination is mapped. -/
def MmStruct.Occupied (mm : MmStruct) (lo n : Nat) : Prop :=
  ∃ x, lo ≤ x ∧ x < lo + n ∧ (mm.mtreeLoad x).isSome

/-- The command accepts the requests there is room for, and refuses the ones without a source
or without room. -/
structure AcceptsFeasible (s : Space) (param src dst : Nat) : Prop where
  noSource : s.mtreeLoad src = none → (mveVmaTo K s param).1.ret = -1
  noRoom : ∀ vma, s.mtreeLoad src = some vma → s.Occupied dst (vma.stop - src) →
    (mveVmaTo K s param).1.ret = -1
  room : ∀ vma, Room s vma src dst → (mveVmaTo K s param).1.ret = 0

/-- Where only a later page of the destination is mapped, the kernel refuses to map the area. -/
def KernelRefuses (s : Space) (src dst : Nat) : Prop :=
  ∀ vma, s.mtreeLoad src = some vma → s.mtreeLoad dst = none → s.Occupied dst (vma.stop - src) →
    K.vmMmap s dst (sizeFrom vma src) (protOf vma) (flagsOf vma) = none

theorem ret_of_refused {e : MoveExit} (h : e.refused = true) : e.ret = -1 := by
  cases e <;> first | rfl | cases h

/-- Once the area is mapped, 0 is returned whatever happens. -/
theorem relocate_ret {s s₁ : Space} {vma : VmAreaStruct} {src dst ptr : Nat}
    (hmmap : K.vmMmap s dst (sizeFrom vma src) (protOf vma) (flagsOf vma) = some (ptr, s₁)) :
    (relocate K s vma src dst).1.ret = 0 := by
  rw [relocate_exit_eq K hmmap]
  cases h : (copyPages K (iterations (sizeFrom vma src)) src dst s₁).1 with
  | none => rfl
  | some e =>
      rcases copyPages_some K h with rfl | rfl
      · rfl
      · rfl

/-- A free range has no occupied page. -/
theorem Room.not_occupied {s : Space} {vma : VmAreaStruct} {src dst : Nat}
    (h : Room s vma src dst) : ¬s.Occupied dst (vma.stop - src) := by
  rintro ⟨x, hlo, hhi, hmapped⟩
  rw [mtreeLoad_eq_none_iff.mpr (h.free x hlo hhi)] at hmapped
  exact absurd hmapped (by simp)

/--
**Which requests are accepted.**

For every address space, every source and every destination, the command accepts exactly
the feasible requests if and only if the kernel refuses those whose first destination page
is free and a later one is not.
-/
theorem mveVmaTo_accepts_iff {s : Space} {param src dst : Nat}
    (harg : K.CanRead s.toMmStruct param 16) (ha : s.address param = ⟨src, dst⟩) :
    AcceptsFeasible K s param src dst ↔ KernelRefuses K s src dst := by
  cases mveVmaTo_cases K ha with
  | argFault hno => exact absurd harg hno
  | refused e _ hexit hrun infeasible =>
      have hret : (mveVmaTo K s param).1.ret = -1 := by
        rw [hrun]
        exact ret_of_refused hexit
      refine iff_of_true ⟨fun _ => hret, fun _ _ _ => hret, fun vma hroom => ?_⟩ ?_
      · -- with room the kernel would have mapped the area
        obtain ⟨s₁, hmmap, -⟩ := hroom.mmap (K := K)
        have hfree := mtreeLoad_eq_none_iff.mpr
          (hroom.free dst (Nat.le_refl dst) (by have := hroom.size_pos; omega))
        exact absurd hmmap (infeasible vma dst s₁ hroom.source hfree)
      · intro vma hsrc hfree _
        exact Option.eq_none_iff_forall_ne_some.mpr
          fun r => infeasible vma r.1 r.2 hsrc hfree
  | relocated vma ptr s₁ _ hsrc hfree hmmap hrun =>
      have hret : (mveVmaTo K s param).1.ret = 0 := by
        rw [hrun]
        exact relocate_ret K hmmap
      constructor
      · intro h vma' hsrc' _ hocc
        have hbad := h.noRoom vma' hsrc' hocc
        rw [hret] at hbad
        exact absurd hbad (by decide)
      · intro h
        refine ⟨fun hnone => ?_, fun vma' hsrc' hocc => ?_, fun _ _ => hret⟩
        · rw [hsrc] at hnone
          cases hnone
        · obtain rfl := Option.some.inj (hsrc.symm.trans hsrc')
          rw [h vma hsrc hfree hocc] at hmmap
          cases hmmap

/-- Two pages at 0x10000, a page at 0x51000, and the request to move the two pages to 0x50000. -/
def secondTaken : Space where
  areas := [⟨0x10000, 0x12000, plainInfo⟩, ⟨0x30000, 0x31000, plainInfo⟩,
    ⟨0x51000, 0x52000, plainInfo⟩]
  sorted := by decide
  wf := by decide
  mem := Mem.write (fun x => UInt8.ofNat x) 0x30000 (Address.encode ⟨0x10000, 0x50000⟩)

/-- The second destination page is taken, and the call returns 0. -/
theorem mveVmaTo_accepts_taken :
    secondTaken.address 0x30000 = ⟨0x10000, 0x50000⟩
      ∧ secondTaken.mtreeLoad 0x10000 = some ⟨0x10000, 0x12000, plainInfo⟩
      ∧ (secondTaken.mtreeLoad 0x51000).isSome = true
      ∧ (mveVmaTo Kernel.topDown secondTaken 0x30000).1.ret = 0
      ∧ ¬AcceptsFeasible Kernel.topDown secondTaken 0x30000 0x10000 0x50000 := by
  have ha : secondTaken.address 0x30000 = ⟨0x10000, 0x50000⟩ := by decide
  have hsrc : secondTaken.mtreeLoad 0x10000 = some ⟨0x10000, 0x12000, plainInfo⟩ := by decide
  have hplace : secondTaken.place 0x50000 (pageAlign 0x2000) = some 0x7ffff7ffd000 := by decide
  obtain ⟨s₁, hmmap⟩ := topDownMmap_of_place (protOf ⟨0x10000, 0x12000, plainInfo⟩)
    (flagsOf ⟨0x10000, 0x12000, plainInfo⟩) (by decide : 0x2000 ≠ 0) hplace (by decide)
  have hret : (mveVmaTo Kernel.topDown secondTaken 0x30000).1.ret = 0 := by
    rw [mveVmaTo_eq_relocate Kernel.topDown (by decide) ha hsrc (by decide)]
    exact relocate_ret Kernel.topDown hmmap
  refine ⟨ha, hsrc, by decide, hret, fun h => ?_⟩
  have hbad := h.noRoom _ hsrc ⟨0x51000, by decide, by decide, by decide⟩
  rw [hret] at hbad
  exact absurd hbad (by decide)

/-- Two pages and nothing else in the way: the request is feasible and accepted. -/
theorem mveVmaTo_accepts_twoPages :
    AcceptsFeasible Kernel.topDown (twoPages 0x10000 0x50000) 0x30000 0x10000 0x50000 := by
  have hroom := twoPages_feasible.toRoom
  have harg : Kernel.topDown.CanRead (twoPages 0x10000 0x50000).toMmStruct 0x30000 16 := by decide
  refine (mveVmaTo_accepts_iff Kernel.topDown harg (by decide)).mpr ?_
  intro vma hsrc _ hocc
  obtain rfl := Option.some.inj (hroom.source.symm.trans hsrc)
  exact absurd hocc hroom.not_occupied

end LinuxDrivers.Vma
