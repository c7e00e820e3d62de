import LinuxDrivers.Vma.Preserve

/-!
# The two move commands agree

Once the search has selected an address, `IOCTL_MVE_VMA` does what
`IOCTL_MVE_VMA_TO` does when it is given that address: the two bodies are the same
relocation. What is left is the write-back. It cannot fail for an argument that can
be written and is not itself being moved, and it changes those sixteen bytes only.
-/

namespace LinuxDrivers.Vma

variable (K : Kernel)

/-- What could be written before a relocation can be written after it, outside the source. -/
theorem relocate_canWrite {s : Space} {vma : VmAreaStruct} {src dst x : Nat}
    (hsrc : s.mtreeLoad src = some vma) (hx : K.canWrite s.toMmStruct x = true)
    (hout : ¬(src ≤ x ∧ x < vma.stop)) :
    K.canWrite (relocate K s vma src dst).2.toMmStruct x = true := by
  cases hmmap : K.vmMmap s dst (sizeFrom vma src) (protOf vma) (flagsOf vma) with
  | none =>
      rw [relocate_mmapFailed K hmmap]
      exact hx
  | some r =>
      obtain ⟨ptr, s₁⟩ := r
      have hattr := (relocate_outside K hsrc hmmap).1 x hout
      have hp := mmap_placed_attr K hmmap
      have hx₁ := (canWrite_placed K hp x).mpr (Or.inl hx)
      unfold Kernel.canWrite at hx₁ ⊢
      rw [hattr]
      exact hx₁

/-- A write-back that is not in the way succeeds, and touches its sixteen bytes only. -/
theorem writeBack_ok {s : Space} {param : Nat} (src dst : Nat)
    (h : K.CanWrite s.toMmStruct param 16) :
    ∃ s', writeBack K param src dst (.moved, s) = (.moved, s') ∧ s'.areas = s.areas
      ∧ ∀ x, ¬(param ≤ x ∧ x < param + 16) → s'.mem x = s.mem x := by
  have hlen : (Address.encode ⟨src, dst⟩).length = 16 := Address.length_encode _
  rw [← hlen] at h
  refine ⟨{ s with mem := s.mem.write param (Address.encode ⟨src, dst⟩) }, ?_, rfl, fun x hx => ?_⟩
  · unfold writeBack
    dsimp only
    rw [copyToUser_of_canWrite K h]
  · exact Mem.write_of_not_mem _ (by rw [hlen]; exact hx)

/--
**The two move commands agree.**

Let the search select `t` for `src`. From one state, `IOCTL_MVE_VMA` with an
argument at `p` and `IOCTL_MVE_VMA_TO` with the argument `(src, t)` at `q` return
the same value and leave the same areas and the same bytes, the sixteen bytes at
`p` apart, wherever the copy may have stopped.
-/
theorem moves_agree (s : Space) (p q : Nat) {src t : Nat} {vma : VmAreaStruct}
    (hp : K.CanRead s.toMmStruct p 16) (hpw : K.CanWrite s.toMmStruct p 16)
    (hpa : (s.address p).fromAddr = src) (hq : K.CanRead s.toMmStruct q 16)
    (hqa : s.address q = ⟨src, t⟩) (hsrc : s.mtreeLoad src = some vma)
    (hout : ∀ i < 16, ¬(src ≤ p + i ∧ p + i < vma.stop))
    (hole : holeFor s.toMmStruct vma src = some t) :
    (mveVma K s p).1.ret = (mveVmaTo K s q).1.ret
      ∧ (mveVma K s p).2.areas = (mveVmaTo K s q).2.areas
      ∧ ∀ x, ¬(p ≤ x ∧ x < p + 16) → (mveVma K s p).2.mem x = (mveVmaTo K s q).2.mem x := by
  rw [mveVma_eq hp hpa hsrc, hole]
  dsimp only
  cases hdst : s.mtreeLoad t with
  | some w =>
      rw [mveVmaTo_destMapped K hq hqa hsrc hdst, if_pos (by simp)]
      exact ⟨rfl, rfl, fun _ _ => rfl⟩
  | none =>
      rw [mveVmaTo_eq_relocate K hq hqa hsrc hdst, if_neg (by simp)]
      have hback : K.CanWrite (relocate K s vma src t).2.toMmStruct p 16 :=
        fun i hi => relocate_canWrite K hsrc (hpw i hi) (hout i hi)
      cases hr : relocate K s vma src t with
      | mk e s' =>
          rw [hr] at hback
          by_cases he : e = .moved
          · subst he
            obtain ⟨s'', hwb, hareas, hmem⟩ := writeBack_ok K src t hback
            rw [hwb]
            exact ⟨rfl, hareas, hmem⟩
          · -- the relocation stopped early, and neither command goes on
            rw [writeBack_of_ne K he]
            exact ⟨rfl, rfl, fun _ _ => rfl⟩

/-- Both commands move the two pages to the hole right behind them. -/
theorem moves_agree_twoPages :
    (mveVma Kernel.topDown (twoPages 0x10000 0x12000) 0x30000).1.ret
        = (mveVmaTo Kernel.topDown (twoPages 0x10000 0x12000) 0x30000).1.ret
      ∧ (mveVma Kernel.topDown (twoPages 0x10000 0x12000) 0x30000).2.areas
        = (mveVmaTo Kernel.topDown (twoPages 0x10000 0x12000) 0x30000).2.areas := by
  have hqa : (twoPages 0x10000 0x12000).address 0x30000 = ⟨0x10000, 0x12000⟩ := by decide
  have hsrc : (twoPages 0x10000 0x12000).mtreeLoad 0x10000
      = some ⟨0x10000, 0x12000, plainInfo⟩ := by decide
  have hagree := moves_agree Kernel.topDown (twoPages 0x10000 0x12000) 0x30000 0x30000 (by decide)
    (by decide) (congrArg Address.fromAddr hqa) (by decide) hqa hsrc (by decide) (by decide)
  exact ⟨hagree.1, hagree.2.1⟩

end LinuxDrivers.Vma
