import LinuxDrivers.Vma.Kernel

/-!
# Merging

Linux does not keep two areas side by side that could be one. A new private anonymous
area is merged with a neighbour that is private anonymous memory of the same permissions:
it then starts where the neighbour below starts, and ends where the neighbour above ends.
A program cannot see this, its view is the same either way. The module can: it takes the
size of a move from the area it finds.

`Kernel.Merges` is this as a law, and `Kernel.merging` is the top-down kernel with it.
-/

namespace LinuxDrivers.Vma

/-- Private anonymous memory. -/
def VmInfo.Plain (d : VmInfo) : Prop := d.vmOps = false ∧ d.attr.shared = false

/-- Where an area with the data `d` that starts at `start` will start once merged. -/
def MmStruct.mergedStart (mm : MmStruct) (d : VmInfo) (start : Nat) : Nat :=
  match mm.areas.find? (fun u => u.stop = start ∧ u.data = d) with
  | some u => u.start
  | none => start

/-- Where an area with the data `d` that ends at `stop` will end once merged. -/
def MmStruct.mergedStop (mm : MmStruct) (d : VmInfo) (stop : Nat) : Nat :=
  match mm.areas.find? (fun u => u.start = stop ∧ u.data = d) with
  | some u => u.stop
  | none => stop

/-- The area that a new one in `[lo, hi)` becomes part of. -/
def MmStruct.merged (mm : MmStruct) (d : VmInfo) (lo hi : Nat) : VmAreaStruct :=
  ⟨mm.mergedStart d lo, mm.mergedStop d hi, d⟩

/-- New private anonymous areas are merged with their neighbours. -/
def Kernel.Merges (K : Kernel) : Prop :=
  ∀ {s addr len prot flags ptr s'}, K.vmMmap s addr len prot flags = some (ptr, s') →
    flags.anonymous = true → flags.shared = false →
      s'.mtreeLoad ptr = some (s.merged ⟨attrOf prot flags, false⟩ ptr (ptr + pageAlign len))

/-! ## How far a merged area reaches -/

theorem mergedStart_cases (mm : MmStruct) (d : VmInfo) (start : Nat) :
    (∃ u ∈ mm.areas, u.stop = start ∧ u.data = d ∧ mm.mergedStart d start = u.start)
      ∨ mm.mergedStart d start = start := by
  unfold MmStruct.mergedStart
  cases hu : mm.areas.find? (fun u => u.stop = start ∧ u.data = d) with
  | none => exact Or.inr rfl
  | some u =>
      have hpred := List.find?_some hu
      simp only [decide_eq_true_eq] at hpred
      exact Or.inl ⟨u, List.mem_of_find?_eq_some hu, hpred.1, hpred.2, rfl⟩

theorem mergedStop_cases (mm : MmStruct) (d : VmInfo) (stop : Nat) :
    (∃ u ∈ mm.areas, u.start = stop ∧ u.data = d ∧ mm.mergedStop d stop = u.stop)
      ∨ ((∀ u ∈ mm.areas, u.start = stop → u.data ≠ d) ∧ mm.mergedStop d stop = stop) := by
  unfold MmStruct.mergedStop
  cases hu : mm.areas.find? (fun u => u.start = stop ∧ u.data = d) with
  | none =>
      refine Or.inr ⟨fun u hmem hstart hdata => ?_, rfl⟩
      have hno := List.find?_eq_none.mp hu u hmem
      simp [hstart, hdata] at hno
  | some u =>
      have hpred := List.find?_some hu
      simp only [decide_eq_true_eq] at hpred
      exact Or.inl ⟨u, List.mem_of_find?_eq_some hu, hpred.1, hpred.2, rfl⟩

/-- A merged area contains the new one, and is an area as any other. -/
theorem merged_wf (mm : MmStruct) (d : VmInfo) {lo hi : Nat} (hlo : lo % 4096 = 0)
    (hhi : hi % 4096 = 0) (hlt : lo < hi) (hbelow : hi ≤ taskSize) :
    WellFormed (mm.merged d lo hi) ∧ (mm.merged d lo hi).start ≤ lo
      ∧ hi ≤ (mm.merged d lo hi).stop := by
  have hstart : mm.mergedStart d lo % 4096 = 0 ∧ mm.mergedStart d lo ≤ lo := by
    rcases mergedStart_cases mm d lo with ⟨u, hu, hstop, -, heq⟩ | heq
    · have hwf := mm.wf u hu
      have := hwf.nonempty
      exact ⟨by rw [heq]; exact hwf.start, by omega⟩
    · rw [heq]
      exact ⟨hlo, Nat.le_refl _⟩
  have hstop : mm.mergedStop d hi % 4096 = 0 ∧ hi ≤ mm.mergedStop d hi
      ∧ mm.mergedStop d hi ≤ taskSize := by
    rcases mergedStop_cases mm d hi with ⟨u, hu, hstart, -, heq⟩ | ⟨-, heq⟩
    · have hwf := mm.wf u hu
      have := hwf.nonempty
      exact ⟨by rw [heq]; exact hwf.stop, by omega, by rw [heq]; exact hwf.below⟩
    · rw [heq]
      exact ⟨hhi, Nat.le_refl _, hbelow⟩
  refine ⟨⟨hstart.1, hstop.1, ?_, hstop.2.2⟩, hstart.2, hstop.2.1⟩
  exact Nat.lt_of_le_of_lt hstart.2 (Nat.lt_of_lt_of_le hlt hstop.2.1)

/-- What a merged area has beyond the new one, the neighbours had already. -/
theorem attr_of_merged (mm : MmStruct) (d : VmInfo) {lo hi x : Nat}
    (hx : (mm.merged d lo hi).Has x) (hout : ¬(lo ≤ x ∧ x < hi)) : mm.attr x = some d.attr := by
  obtain ⟨h1, h2⟩ := hx
  have hneighbour : ∃ u ∈ mm.areas, u.Has x ∧ u.data = d := by
    rcases Nat.lt_or_ge x lo with hlow | hhigh
    · rcases mergedStart_cases mm d lo with ⟨u, hu, hstop, hdata, heq⟩ | heq
      · exact ⟨u, hu, ⟨by rw [← heq]; exact h1, by omega⟩, hdata⟩
      · have hstart : mm.mergedStart d lo ≤ x := h1
        omega
    · rcases mergedStop_cases mm d hi with ⟨u, hu, hstart, hdata, heq⟩ | ⟨-, heq⟩
      · exact ⟨u, hu, ⟨by omega, by rw [← heq]; exact h2⟩, hdata⟩
      · have hstop : x < mm.mergedStop d hi := h2
        omega
  unfold MmStruct.attr
  rw [(Area.dataAt_eq_some_iff mm.sorted).mpr hneighbour]
  rfl

/-! ## A kernel that merges -/

theorem isFree_remove (mm : MmStruct) {a : VmAreaStruct} (hwf : WellFormed a) :
    (mm.remove a.start a.stop hwf.start hwf.stop (Nat.le_of_lt hwf.nonempty)).isFree a.start a.stop
      = true := by
  refine (isFree_iff hwf.nonempty).mpr fun x h1 h2 => ?_
  rw [remove_attr, if_pos ⟨h1, h2⟩]

/-- Put an area in place of whatever was there. -/
def MmStruct.absorb (mm : MmStruct) (a : VmAreaStruct) (hwf : WellFormed a) : MmStruct :=
  (mm.remove a.start a.stop hwf.start hwf.stop (Nat.le_of_lt hwf.nonempty)).insert a hwf
    (isFree_remove mm hwf)

theorem absorb_attr (mm : MmStruct) {a : VmAreaStruct} (hwf : WellFormed a) (x : Nat) :
    (mm.absorb a hwf).attr x = if a.Has x then some a.data.attr else mm.attr x := by
  unfold MmStruct.absorb
  rw [insert_attr, remove_attr]
  split
  · rfl
  · rename_i hx
    exact if_neg hx

theorem absorb_mtreeLoad (mm : MmStruct) {a : VmAreaStruct} (hwf : WellFormed a) {x : Nat}
    (hx : a.Has x) : (mm.absorb a hwf).mtreeLoad x = some a :=
  (Area.lookup_eq_some_iff (mm.absorb a hwf).sorted).mpr ⟨Area.mem_insert.mpr (Or.inl rfl), hx⟩

/-- Shared memory is not merged. -/
def MmStruct.areaFor (mm : MmStruct) (lo len : Nat) (prot : Prot) (flags : MapFlags) :
    VmAreaStruct :=
  if flags.shared then newArea lo len prot flags
  else mm.merged ⟨attrOf prot flags, false⟩ lo (lo + pageAlign len)

/-- The area is one, contains what was asked for, and has the attributes asked for. -/
theorem areaFor_wf (mm : MmStruct) {lo len : Nat} (prot : Prot) (flags : MapFlags) (hlen : len ≠ 0)
    (hlo : lo % 4096 = 0) (hbelow : lo + pageAlign len ≤ taskSize) :
    WellFormed (mm.areaFor lo len prot flags)
      ∧ (mm.areaFor lo len prot flags).start ≤ lo
      ∧ lo + pageAlign len ≤ (mm.areaFor lo len prot flags).stop
      ∧ (mm.areaFor lo len prot flags).data.attr = attrOf prot flags := by
  have hpos : 0 < pageAlign len := Nat.lt_of_lt_of_le (by omega) (le_pageAlign len)
  unfold MmStruct.areaFor
  split
  · exact ⟨newArea_wf prot flags hlen hlo hbelow, Nat.le_refl _, Nat.le_refl _, rfl⟩
  · obtain ⟨hwf, hstart, hstop⟩ := merged_wf mm ⟨attrOf prot flags, false⟩ hlo
      (add_pageAlign_mod hlo len) (Nat.lt_add_of_pos_right hpos) hbelow
    exact ⟨hwf, hstart, hstop, rfl⟩

/-- Beyond what was asked for it takes nothing that had other attributes. -/
theorem areaFor_outside (mm : MmStruct) {lo len : Nat} (prot : Prot) (flags : MapFlags) {x : Nat}
    (hx : (mm.areaFor lo len prot flags).Has x) (hout : ¬(lo ≤ x ∧ x < lo + pageAlign len)) :
    mm.attr x = some (attrOf prot flags) := by
  unfold MmStruct.areaFor at hx
  split at hx
  · exact absurd hx hout
  · exact attr_of_merged mm ⟨attrOf prot flags, false⟩ hx hout

def mergingMmap (s : Space) (addr len : Nat) (prot : Prot) (flags : MapFlags) :
    Option (Nat × Space) :=
  if hlen : len = 0 then none
  else
    match s.place addr (pageAlign len) with
    | none => none
    | some lo =>
      if h : lo % 4096 = 0 ∧ lo + pageAlign len ≤ taskSize
          ∧ s.isFree lo (lo + pageAlign len) = true then
        some (lo,
          { toMmStruct := s.toMmStruct.absorb (s.toMmStruct.areaFor lo len prot flags)
              (areaFor_wf s.toMmStruct prot flags hlen h.1 h.2.1).1
            mem := fun x => if lo ≤ x ∧ x < lo + pageAlign len then 0 else s.mem x })
      else none

/-- What is known when it returns. -/
theorem mergingMmap_eq_some {s : Space} {addr len : Nat} {prot : Prot} {flags : MapFlags}
    {ptr : Nat} {s' : Space} (h : mergingMmap s addr len prot flags = some (ptr, s')) :
    ∃ (hlen : len ≠ 0) (hlo : ptr % 4096 = 0) (hbelow : ptr + pageAlign len ≤ taskSize),
      s.isFree ptr (ptr + pageAlign len) = true
        ∧ s'.toMmStruct = s.toMmStruct.absorb (s.toMmStruct.areaFor ptr len prot flags)
            (areaFor_wf s.toMmStruct prot flags hlen hlo hbelow).1
        ∧ ∀ x, ¬(ptr ≤ x ∧ x < ptr + pageAlign len) → s'.mem x = s.mem x := by
  unfold mergingMmap at h
  split at h
  · cases h
  · rename_i hlen
    split at h
    · cases h
    · split at h
      · rename_i lo _ hfit
        obtain ⟨rfl, rfl⟩ := Prod.mk.inj (Option.some.inj h)
        exact ⟨hlen, hfit.1, hfit.2.1, hfit.2.2, rfl, fun x hx => if_neg hx⟩
      · cases h

theorem mergingMmap_placed {s : Space} {addr len : Nat} {prot : Prot} {flags : MapFlags}
    {ptr : Nat} {s' : Space} (h : mergingMmap s addr len prot flags = some (ptr, s')) :
    Placed s ptr len (attrOf prot flags) s' := by
  obtain ⟨hlen, hlo, hbelow, hfree, hmm, hmem⟩ := mergingMmap_eq_some h
  have hpos : 0 < pageAlign len := Nat.lt_of_lt_of_le (by omega) (le_pageAlign len)
  obtain ⟨hwf, hstart, hstop, hattr⟩ := areaFor_wf s.toMmStruct prot flags hlen hlo hbelow
  refine ⟨hlo, hbelow, (isFree_iff (Nat.lt_add_of_pos_right hpos)).mp hfree, ?_, ?_, hmem⟩
  · intro x h1 h2
    rw [hmm, absorb_attr, if_pos ⟨Nat.le_trans hstart h1, Nat.lt_of_lt_of_le h2 hstop⟩, hattr]
  · intro x hx
    rw [hmm, absorb_attr]
    split
    · rename_i hin
      rw [hattr, areaFor_outside s.toMmStruct prot flags hin hx]
    · rfl

theorem mergingMmap_hint {s : Space} {addr len : Nat} (prot : Prot) (flags : MapFlags)
    (ha : addr % 4096 = 0) (hlen : 0 < len) (hbelow : addr + pageAlign len ≤ taskSize)
    (hfree : ∀ x, addr ≤ x → x < addr + pageAlign len → s.attr x = none) :
    ∃ s', mergingMmap s addr len prot flags = some (addr, s') := by
  have hpos : 0 < pageAlign len := Nat.lt_of_lt_of_le hlen (le_pageAlign len)
  have hfree' : s.isFree addr (addr + pageAlign len) = true :=
    (isFree_iff (Nat.lt_add_of_pos_right hpos)).mpr hfree
  have hplace : s.place addr (pageAlign len) = some addr := if_pos (by
    simp [MmStruct.fits, ha, hbelow, hfree'])
  unfold mergingMmap
  rw [dif_neg (by omega), hplace]
  dsimp only
  rw [dif_pos ⟨ha, hbelow, hfree'⟩]
  exact ⟨_, rfl⟩

/-- The top-down kernel, with new private anonymous areas merged into their neighbours. -/
def Kernel.merging : Kernel :=
  { Kernel.topDown with
    vmMmap := mergingMmap
    mmap_placed := mergingMmap_placed
    mmap_hint := mergingMmap_hint }

theorem Kernel.merging_merges : Kernel.merging.Merges := by
  intro s addr len prot flags ptr s' h _ hshared
  obtain ⟨hlen, hlo, hbelow, -, hmm, -⟩ := mergingMmap_eq_some h
  obtain ⟨hwf, hstart, hstop, -⟩ := areaFor_wf s.toMmStruct prot flags hlen hlo hbelow
  have hpos : 0 < pageAlign len := Nat.lt_of_lt_of_le (by omega) (le_pageAlign len)
  have harea : s.toMmStruct.areaFor ptr len prot flags
      = s.merged ⟨attrOf prot flags, false⟩ ptr (ptr + pageAlign len) := if_neg (by simp [hshared])
  rw [hmm, absorb_mtreeLoad _ _ ⟨hstart, by omega⟩, harea]

theorem Kernel.merging_noFault : Kernel.merging.NoFault := fun _ _ => rfl

end LinuxDrivers.Vma
