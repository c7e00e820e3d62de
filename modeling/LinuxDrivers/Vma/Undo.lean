import LinuxDrivers.Vma.Agree
import LinuxDrivers.Vma.Hole

/-!
# Failed moves

A move that fails should say so and leave no trace. Neither command undoes
anything: a copy that fails in the middle leaves the new area in place and returns
0. A call that cannot even read its argument returns 0 too, and a write-back that
fails returns -1 with the move already made. So a call keeps the promise exactly if
none of its copies fails, and the conditions below say when that is, in terms of the
address space before the call.
-/

namespace LinuxDrivers.Vma

variable (K : Kernel)

/-- The exits a failed user copy leads to. -/
def MoveExit.copyFailed : MoveExit → Bool
  | .argFault | .readFault | .writeFault | .writeBackFault => true
  | _ => false

/-- The call that ended with `r` reported and undid every failed copy, and changed
nothing if it reported a failure. -/
def Undone (s : Space) (r : MoveExit × Space) : Prop :=
  (r.1.copyFailed = true → r.1.ret = -1 ∧ r.2 = s) ∧ (r.1.ret = -1 → r.2 = s)

/-- No copy of `IOCTL_MVE_VMA_TO` can fail. -/
def CopiesOkTo (s : Space) (param src dst : Nat) : Prop :=
  K.CanRead s.toMmStruct param 16 ∧
  ∀ vma ptr s₁, s.mtreeLoad src = some vma → s.mtreeLoad dst = none →
    K.vmMmap s dst (sizeFrom vma src) (protOf vma) (flagsOf vma) = some (ptr, s₁) →
    ∀ k < iterations (sizeFrom vma src), Copyable K s vma src dst ptr k

/-- No copy of `IOCTL_MVE_VMA` can fail: as before, and the argument can be written
and is not part of what is moved. -/
def CopiesOk (s : Space) (param src : Nat) : Prop :=
  K.CanRead s.toMmStruct param 16 ∧
  ∀ vma dst ptr s₁, s.mtreeLoad src = some vma → holeFor s.toMmStruct vma src = some dst →
    s.mtreeLoad dst = none →
    K.vmMmap s dst (sizeFrom vma src) (protOf vma) (flagsOf vma) = some (ptr, s₁) →
    (∀ k < iterations (sizeFrom vma src), Copyable K s vma src dst ptr k)
      ∧ K.CanWrite s.toMmStruct param 16
      ∧ ∀ i < 16, ¬(src ≤ param + i ∧ param + i < vma.stop)

/-! ## Exits that are as promised, and exits that are not -/

/-- Nothing was copied and nothing was done. -/
theorem undone_of_refused (s : Space) {e : MoveExit} (h : e.refused = true) : Undone s (e, s) := by
  refine ⟨fun hc => ?_, fun _ => rfl⟩
  cases e <;> simp_all [MoveExit.refused, MoveExit.copyFailed]

/-- A failed copy that is reported as success breaks the promise. -/
theorem not_undone_of_silent {s : Space} {r : MoveExit × Space} (h : r.1.copyFailed = true)
    (hret : r.1.ret = 0) : ¬Undone s r := by
  intro hu
  have hm := (hu.1 h).1
  omega

/-- Nothing failed and everything was done. -/
theorem undone_of_moved {s : Space} {r : MoveExit × Space} (h : r.1 = .moved) : Undone s r := by
  refine ⟨fun hc => ?_, fun hret => ?_⟩
  · exact absurd hc (by simp [h, MoveExit.copyFailed])
  · exact absurd hret (by simp [h, MoveExit.ret])

/-! ## The relocation -/

section

variable {K} {s s₁ : Space} {vma : VmAreaStruct} {src dst ptr : Nat}

/-- A relocation whose area was placed gets through, or ends with a failed copy. -/
theorem relocate_exit (hsrc : s.mtreeLoad src = some vma)
    (hmmap : K.vmMmap s dst (sizeFrom vma src) (protOf vma) (flagsOf vma) = some (ptr, s₁)) :
    ((∀ k < iterations (sizeFrom vma src), Copyable K s vma src dst ptr k)
        ∧ (relocate K s vma src dst).1 = .moved)
      ∨ ((¬∀ k < iterations (sizeFrom vma src), Copyable K s vma src dst ptr k)
        ∧ ((relocate K s vma src dst).1 = .readFault
          ∨ (relocate K s vma src dst).1 = .writeFault)) := by
  have hp := mmap_placed_attr K hmmap
  have hall : (copyPages K (iterations (sizeFrom vma src)) src dst s₁).1 = none
      ↔ ∀ k < iterations (sizeFrom vma src), Copyable K s vma src dst ptr k := by
    rw [copyPages_none_iff]
    exact forall_congr' fun k => forall_congr' fun hk => pageOk_iff_copyable K hsrc hp hk
  rw [relocate_exit_eq K hmmap, ← hall]
  cases he : (copyPages K (iterations (sizeFrom vma src)) src dst s₁).1 with
  | none => exact Or.inl ⟨rfl, rfl⟩
  | some e =>
      refine Or.inr ⟨by simp, ?_⟩
      rcases copyPages_some K he with rfl | rfl
      · exact Or.inl rfl
      · exact Or.inr rfl

/-- A relocation whose area was placed keeps the promise exactly if every page can be copied. -/
theorem relocate_undone_iff (hsrc : s.mtreeLoad src = some vma)
    (hmmap : K.vmMmap s dst (sizeFrom vma src) (protOf vma) (flagsOf vma) = some (ptr, s₁)) :
    Undone s (relocate K s vma src dst)
      ↔ ∀ k < iterations (sizeFrom vma src), Copyable K s vma src dst ptr k := by
  rcases relocate_exit hsrc hmmap with ⟨hall, he⟩ | ⟨hnot, he | he⟩
  · exact iff_of_true (undone_of_moved he) hall
  · exact iff_of_false (not_undone_of_silent (by rw [he]; rfl) (by rw [he]; rfl)) hnot
  · exact iff_of_false (not_undone_of_silent (by rw [he]; rfl) (by rw [he]; rfl)) hnot

/-- A relocation that got through has unmapped its source. -/
theorem relocate_moved_source (hsrc : s.mtreeLoad src = some vma) (ha : src % 4096 = 0)
    (hmmap : K.vmMmap s dst (sizeFrom vma src) (protOf vma) (flagsOf vma) = some (ptr, s₁))
    (hmoved : (relocate K s vma src dst).1 = .moved) {x : Nat} (hx : src ≤ x ∧ x < vma.stop) :
    (relocate K s vma src dst).2.attr x = none := by
  rw [relocate_moved_attr K hsrc ha hmmap hmoved, if_pos hx]

end

/-! ## The two commands -/

theorem mveVmaTo_undone_iff (s : Space) (param : Nat) {src dst : Nat}
    (ha : s.address param = ⟨src, dst⟩) :
    Undone s (mveVmaTo K s param) ↔ CopiesOkTo K s param src dst := by
  cases mveVmaTo_cases K ha with
  | argFault harg hrun =>
      rw [hrun]
      exact iff_of_false (not_undone_of_silent rfl rfl) fun h => harg h.1
  | refused e harg he hrun hinf =>
      rw [hrun]
      refine iff_of_true (undone_of_refused s he) ⟨harg, fun vma ptr s₁ hsrc hdst hm => ?_⟩
      exact absurd hm (hinf vma ptr s₁ hsrc hdst)
  | relocated vma ptr s₁ harg hsrc hdst hmmap hrun =>
      rw [hrun, relocate_undone_iff hsrc hmmap]
      constructor
      · intro hall
        refine ⟨harg, fun vma' ptr' s₁' h _ hm => ?_⟩
        obtain rfl := Option.some.inj (hsrc.symm.trans h)
        obtain ⟨rfl, -⟩ := Prod.mk.inj (Option.some.inj (hmmap.symm.trans hm))
        exact hall
      · intro h
        exact h.2 vma ptr s₁ hsrc hdst hmmap

/-- After a relocation that got through, exactly those bytes of a mapped argument can be
written that could be before and were not moved away. -/
theorem canWrite_moved_iff {s s₁ : Space} {vma : VmAreaStruct} {src dst ptr x : Nat} {a : Attr}
    (hsrc : s.mtreeLoad src = some vma) (ha : src % 4096 = 0)
    (hmmap : K.vmMmap s dst (sizeFrom vma src) (protOf vma) (flagsOf vma) = some (ptr, s₁))
    (hmoved : (relocate K s vma src dst).1 = .moved) (hx : s.attr x = some a) :
    K.canWrite (relocate K s vma src dst).2.toMmStruct x = true
      ↔ K.canWrite s.toMmStruct x = true ∧ ¬(src ≤ x ∧ x < vma.stop) := by
  by_cases hin : src ≤ x ∧ x < vma.stop
  · refine iff_of_false ?_ (fun h => h.2 hin)
    unfold Kernel.canWrite
    rw [relocate_moved_source hsrc ha hmmap hmoved hin]
    simp
  · have hattr : (relocate K s vma src dst).2.attr x = s.attr x := by
      rw [(relocate_outside K hsrc hmmap).1 x hin, (mmap_placed_attr K hmmap).attr_of_mapped hx, hx]
    unfold Kernel.canWrite
    rw [hattr]
    exact ⟨fun h => ⟨h, hin⟩, fun h => h.1⟩

/-- The write-back after a relocation that got through keeps the promise exactly if it succeeds. -/
theorem writeBack_undone_iff {s s' : Space} {vma : VmAreaStruct} {param src dst : Nat}
    (hsrc : s.mtreeLoad src = some vma) (hgone : s'.attr src = none) :
    Undone s (writeBack K param src dst (.moved, s')) ↔ K.CanWrite s'.toMmStruct param 16 := by
  have hlen : (Address.encode ⟨src, dst⟩).length = 16 := Address.length_encode _
  by_cases hw : K.CanWrite s'.toMmStruct param 16
  · obtain ⟨s'', hwb, -⟩ := writeBack_ok K src dst hw
    rw [hwb]
    exact iff_of_true (undone_of_moved rfl) hw
  · refine iff_of_false ?_ hw
    unfold writeBack
    dsimp only
    cases hc : K.copyToUser s' param (Address.encode ⟨src, dst⟩) with
    | mk b s'' =>
        cases b with
        | true =>
            have hok : (K.copyToUser s' param (Address.encode ⟨src, dst⟩)).1 = true := by rw [hc]
            rw [copyToUser_fst_eq_true_iff, hlen] at hok
            exact absurd hok hw
        | false =>
            -- the call reports a failure, but the source is gone
            intro hu
            have hsame : s'' = s := hu.2 rfl
            have hmm : s''.toMmStruct = s'.toMmStruct := by
              have hkeep := copyToUser_mm K s' param (Address.encode ⟨src, dst⟩)
              rw [hc] at hkeep
              exact hkeep
            have hattr : s.attr src = none := by
              rw [← hsame, hmm]
              exact hgone
            rw [mtreeLoad_eq_none_iff.mpr hattr] at hsrc
            exact absurd hsrc (by simp)

/-- A relocation with a write-back keeps the promise exactly if every page can be
copied, and the argument can be written and stays where it is. -/
theorem relocate_writeBack_undone_iff {s s₁ : Space} {vma : VmAreaStruct}
    {param src dst ptr : Nat} (harg : K.CanRead s.toMmStruct param 16)
    (hsrc : s.mtreeLoad src = some vma) (hal : src % 4096 = 0)
    (hmmap : K.vmMmap s dst (sizeFrom vma src) (protOf vma) (flagsOf vma) = some (ptr, s₁)) :
    Undone s (writeBack K param src dst (relocate K s vma src dst))
      ↔ (∀ k < iterations (sizeFrom vma src), Copyable K s vma src dst ptr k)
        ∧ K.CanWrite s.toMmStruct param 16
        ∧ ∀ i < 16, ¬(src ≤ param + i ∧ param + i < vma.stop) := by
  have hcopies := relocate_undone_iff hsrc hmmap
  by_cases hmoved : (relocate K s vma src dst).1 = .moved
  swap
  · -- without a move there is no write-back, and some page could not be copied
    have hnot : ¬∀ k < iterations (sizeFrom vma src), Copyable K s vma src dst ptr k := by
      rcases relocate_exit hsrc hmmap with ⟨-, he⟩ | ⟨hnot, -⟩
      · exact absurd he hmoved
      · exact hnot
    rw [writeBack_of_ne K hmoved, hcopies]
    exact iff_of_false hnot fun h => hnot h.1
  have hall := hcopies.mp (undone_of_moved hmoved)
  have hlt := (mtreeLoad_spec hsrc).2.2
  have hgone := relocate_moved_source hsrc hal hmmap hmoved ⟨Nat.le_refl src, hlt⟩
  have hpair : relocate K s vma src dst = (.moved, (relocate K s vma src dst).2) :=
    Prod.ext hmoved rfl
  -- the argument was read, so it was mapped
  have hbyte : ∀ i < 16, K.canWrite (relocate K s vma src dst).2.toMmStruct (param + i) = true
      ↔ K.canWrite s.toMmStruct (param + i) = true
        ∧ ¬(src ≤ param + i ∧ param + i < vma.stop) := by
    intro i hi
    obtain ⟨a, hx⟩ := attr_of_canRead K (harg i hi)
    exact canWrite_moved_iff K hsrc hal hmmap hmoved hx
  rw [hpair, writeBack_undone_iff K hsrc hgone]
  constructor
  · intro hw
    exact ⟨hall, fun i hi => ((hbyte i hi).mp (hw i hi)).1,
      fun i hi => ((hbyte i hi).mp (hw i hi)).2⟩
  · rintro ⟨-, hw, hout⟩ i hi
    exact (hbyte i hi).mpr ⟨hw i hi, hout i hi⟩

theorem mveVma_undone_iff (s : Space) (param : Nat) {src : Nat}
    (ha : (s.address param).fromAddr = src) :
    Undone s (mveVma K s param) ↔ CopiesOk K s param src := by
  cases mveVma_cases K ha with
  | argFault harg hrun =>
      rw [hrun]
      exact iff_of_false (not_undone_of_silent rfl rfl) fun h => harg h.1
  | refused e harg he hrun hinf =>
      rw [hrun]
      refine iff_of_true (undone_of_refused s he)
        ⟨harg, fun vma dst ptr s₁ hsrc hole hdst hm => ?_⟩
      exact absurd hm (hinf vma dst ptr s₁ hsrc hole hdst)
  | relocated vma dst ptr s₁ harg hsrc hole hdst hmmap hrun =>
      have hal := src_aligned_of_hole hsrc hole hdst
      rw [hrun, relocate_writeBack_undone_iff K harg hsrc hal hmmap]
      constructor
      · intro hok
        refine ⟨harg, fun vma' d ptr' s₁' h hd _ hm => ?_⟩
        obtain rfl := Option.some.inj (hsrc.symm.trans h)
        obtain rfl := Option.some.inj (hole.symm.trans hd)
        obtain ⟨rfl, -⟩ := Prod.mk.inj (Option.some.inj (hmmap.symm.trans hm))
        exact hok
      · intro h
        exact h.2 vma dst ptr s₁ hsrc hole hdst hmmap

/--
**When a move that fails says so and leaves no trace.**

For either command: exactly if no user copy of the call can fail, the copies being
those of the argument, of each page once the new area is in place, and for
`IOCTL_MVE_VMA` of the result.
-/
theorem moves_undone_iff (s : Space) (param : Nat) :
    (Undone s (mveVmaTo K s param)
        ↔ CopiesOkTo K s param (s.address param).fromAddr (s.address param).toAddr)
      ∧ (Undone s (mveVma K s param) ↔ CopiesOk K s param (s.address param).fromAddr) :=
  ⟨mveVmaTo_undone_iff K s param rfl, mveVma_undone_iff K s param rfl⟩

/-- Two pages that can only be read -/
def readOnlyArea : VmAreaStruct := ⟨0x10000, 0x12000, ⟨⟨true, false, false, false⟩, false⟩⟩

/-- They and a page with the request to move them to 0x50000 -/
def readOnly : Space where
  areas := [readOnlyArea, ⟨0x30000, 0x31000, plainInfo⟩]
  sorted := by decide
  wf := by decide
  mem := Mem.write (fun x => UInt8.ofNat x) 0x30000 (Address.encode ⟨0x10000, 0x50000⟩)

/-- The new area is as read-only as the old one, so the first page cannot be copied. -/
theorem readOnly_not_copiesOkTo : ¬CopiesOkTo Kernel.topDown readOnly 0x30000 0x10000 0x50000 := by
  intro h
  have hfree : ∀ x, 0x50000 ≤ x → x < 0x50000 + pageAlign (sizeFrom readOnlyArea 0x10000) →
      readOnly.attr x = none := (isFree_iff (by decide)).mp (by decide)
  obtain ⟨s₁, hmmap⟩ := Kernel.topDown.mmap_hint (protOf readOnlyArea) (flagsOf readOnlyArea)
    (by decide) (by decide) (by decide) hfree
  have hcopy := h.2 readOnlyArea 0x50000 s₁ (by decide) (by decide) hmmap 0 (by decide)
  rcases hcopy.2 0 (by decide) with hold | ⟨-, -, hwrite, -⟩
  · exact absurd hold (by decide)
  · exact absurd hwrite (by decide)

/-- The move fails, is reported as a success, and leaves the new area behind. -/
theorem readOnly_move_not_undone :
    readOnly.address 0x30000 = ⟨0x10000, 0x50000⟩
      ∧ ¬Undone readOnly (mveVmaTo Kernel.topDown readOnly 0x30000) := by
  have ha : readOnly.address 0x30000 = ⟨0x10000, 0x50000⟩ := by decide
  refine ⟨ha, fun hu => readOnly_not_copiesOkTo ?_⟩
  exact (mveVmaTo_undone_iff Kernel.topDown readOnly 0x30000 ha).mp hu

end LinuxDrivers.Vma
