import LinuxDrivers.Vma.Table

/-!
# What compaction compacts

After `IOCTL_COMPACT_VMA` the mapped pages of the range should be at its front, as many
as before, with everything outside the range left alone. A call returns 0 in every case
and never maps, unmaps or moves a page. So the pages are at the front afterwards exactly
if they were there before, and what can change outside the range is the first entry of
the table.

A range that does not lie in one area should have been refused. The area looked up, the
one at the range's end, is never compared with the range, so no range is.
-/

namespace LinuxDrivers.Vma

/-- The addresses of the range. -/
def Input.range (inp : Input) : Set Nat := Set.Ico inp.addr (inp.addr + inp.length * 4096)

/-- Whether page `k` of the range is mapped, as the module tests it. -/
def MmStruct.pageMapped (mm : MmStruct) (inp : Input) (k : Nat) : Bool :=
  (mm.mtreeLoad (inp.addr + k * 4096)).isSome

/-- The mapped pages of the range are its first ones. -/
def InFront (mm : MmStruct) (inp : Input) : Prop :=
  ∃ m, ∀ k < inp.length, mm.pageMapped inp k = true ↔ k < m

/-- The range was compacted, and outside it nothing changed but, at most, bytes of `table`. -/
structure Compacted (s : Space) (inp : Input) (table : Set Nat) (s' : Space) : Prop where
  front : InFront s'.toMmStruct inp
  count : (List.range inp.length).countP (s'.pageMapped inp)
    = (List.range inp.length).countP (s.pageMapped inp)
  mapping : ∀ x ∉ inp.range, s'.attr x = s.attr x
  contents : ∀ x ∉ inp.range, x ∉ table → s'.mem x = s.mem x

variable (K : Kernel) (R : Option VmAreaStruct → Nat → Space → Option Space)

/-- The first entry, with the range's own address twice, can be stored without changing a byte
that is neither in the range nor in `table`. -/
def EntryFits (s : Space) (inp : Input) (table : Set Nat) : Prop :=
  ∀ x ∉ inp.range, x ∉ table → (K.copyToUser s inp.buff inp.stay.encode).2.mem x = s.mem x

section

variable {K R} {s : Space} {param : Nat} {inp : Input}

/-- All that a call does to memory is to store the first entry, as far as it can be written. -/
theorem compactVma_space (hi : s.input param = inp) (hr : K.CanRead s.toMmStruct param 24) :
    (compactVma K R s param).2.1 = (K.copyToUser s inp.buff inp.stay.encode).2 := by
  by_cases hw : K.CanWrite s.toMmStruct inp.buff 16
  · obtain ⟨log, heq, -⟩ := compactVma_done (R := R) hi hr hw
    have hlen : inp.stay.encode.length = 16 := Address.length_encode _
    rw [heq, copyToUser_of_canWrite K (by rw [hlen]; exact hw)]
  · rw [compactVma_tableFault hi hr hw]

/-- Nothing is ever mapped or unmapped. -/
theorem compactVma_mm (s : Space) (param : Nat) :
    (compactVma K R s param).2.1.toMmStruct = s.toMmStruct := by
  by_cases hr : K.CanRead s.toMmStruct param 24
  · rw [compactVma_space rfl hr, copyToUser_mm]
  · rw [compactVma_argFault hr]

end

/--
**When a range is compacted.**

Exactly if its mapped pages were at the front already and the first entry of the table does
no harm outside. With an empty `table` no byte outside the range may change at all; with the
table the caller asked for, the entry may be stored there.
-/
theorem compactVma_compacted_iff (s : Space) (param : Nat) (table : Set Nat) :
    ((compactVma K R s param).1.ret = some 0 →
        Compacted s (s.input param) table (compactVma K R s param).2.1)
      ↔ InFront s.toMmStruct (s.input param)
        ∧ (K.CanRead s.toMmStruct param 24 → EntryFits K s (s.input param) table) := by
  have hmm := compactVma_mm (K := K) (R := R) s param
  constructor
  · intro h
    obtain ⟨hfront, -, -, hcontents⟩ := h (compactVma_ret s param)
    refine ⟨hmm ▸ hfront, fun hr => ?_⟩
    rw [compactVma_space rfl hr] at hcontents
    exact hcontents
  · rintro ⟨hfront, hentry⟩ -
    refine ⟨hmm ▸ hfront, by rw [hmm], fun x _ => by rw [hmm], fun x hx ht => ?_⟩
    by_cases hr : K.CanRead s.toMmStruct param 24
    · rw [compactVma_space rfl hr]
      exact hentry hr x hx ht
    · rw [compactVma_argFault hr]

/-- A page at 0x11000, and a page with a request to compact it and the free page before it;
the table follows the request. -/
def gapFirst : Space where
  areas := [⟨0x11000, 0x12000, plainInfo⟩, ⟨0x30000, 0x31000, plainInfo⟩]
  sorted := by decide
  wf := by decide
  mem := Mem.write (fun x => UInt8.ofNat x) 0x30000 (toLe 0x10000 ++ toLe 2 ++ toLe 0x30100)

/-- The call returns 0 and the mapped page is still the second one, whatever is allowed to
change outside the range. -/
theorem compactVma_leaves_gap :
    gapFirst.input 0x30000 = ⟨0x10000, 2, 0x30100⟩
      ∧ (compactVma Kernel.topDown (fun _ _ s => some s) gapFirst 0x30000).1.ret = some 0
      ∧ ¬InFront (compactVma Kernel.topDown (fun _ _ s => some s) gapFirst 0x30000).2.1.toMmStruct
          (gapFirst.input 0x30000)
      ∧ ¬Compacted gapFirst (gapFirst.input 0x30000) Set.univ
          (compactVma Kernel.topDown (fun _ _ s => some s) gapFirst 0x30000).2.1 := by
  have hi : gapFirst.input 0x30000 = ⟨0x10000, 2, 0x30100⟩ := by decide
  have hgap : ¬InFront
      (compactVma Kernel.topDown (fun _ _ s => some s) gapFirst 0x30000).2.1.toMmStruct
      (gapFirst.input 0x30000) := by
    rw [compactVma_mm, hi]
    rintro ⟨m, hm⟩
    have hfirst := hm 0 (by decide)
    have hsecond := (hm 1 (by decide)).mp (by decide)
    exact absurd (hfirst.mpr (by omega)) (by decide)
  exact ⟨hi, compactVma_ret _ _, hgap, fun h => hgap h.front⟩

/-! ## Ranges that should be refused -/

/-- The range has a page, and all of it lies in one area. -/
def InOneArea (mm : MmStruct) (inp : Input) : Prop :=
  1 ≤ inp.length ∧ ∃ v ∈ mm.areas, v.start ≤ inp.addr ∧ inp.addr + inp.length * 4096 ≤ v.stop

/--
**When a bad range is refused.**

Never: a call returns 0 for ranges in one area only, and refuses the others with -1 and
without a side effect, exactly if the range is one that need not be refused.
-/
theorem compactVma_refuses_iff (s : Space) (param : Nat) :
    (((compactVma K R s param).1.ret = some 0 → InOneArea s.toMmStruct (s.input param))
        ∧ (¬InOneArea s.toMmStruct (s.input param) →
            (compactVma K R s param).1.ret = some (-1) ∧ (compactVma K R s param).2.1 = s))
      ↔ InOneArea s.toMmStruct (s.input param) := by
  have hret := compactVma_ret (K := K) (R := R) s param
  constructor
  · rintro ⟨honly, -⟩
    exact honly hret
  · intro hin
    exact ⟨fun _ => hin, fun hout => absurd hin hout⟩

/-- A request for three pages of an area that has two: 0 is returned, and a byte of the table
has changed. -/
theorem compactVma_past_area_end :
    ¬InOneArea (compactTwo 3).toMmStruct ((compactTwo 3).input 0x30000)
      ∧ (compactVma Kernel.topDown (fun _ _ s => some s) (compactTwo 3) 0x30000).1.ret = some 0
      ∧ (compactTwo 3).mem 0x30101 = 1
      ∧ (compactVma Kernel.topDown (fun _ _ s => some s) (compactTwo 3) 0x30000).2.1.mem 0x30101
        = 0 := by
  have hi : (compactTwo 3).input 0x30000 = ⟨0x10000, 3, 0x30100⟩ := by decide
  have hr : Kernel.topDown.CanRead (compactTwo 3).toMmStruct 0x30000 24 := by decide
  refine ⟨?_, compactVma_ret _ _, by decide, ?_⟩
  · rw [hi]
    rintro ⟨-, v, hv, hlo, hhi⟩
    rcases List.mem_pair.mp hv with rfl | rfl
    · exact absurd hhi (by decide)
    · exact absurd hlo (by decide)
  · rw [compactVma_space hi hr]
    decide

end LinuxDrivers.Vma
