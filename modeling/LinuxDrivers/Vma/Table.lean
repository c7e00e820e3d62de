import LinuxDrivers.Vma.Compact

/-!
# The compaction table

What the caller of `IOCTL_COMPACT_VMA` wants from the table: entry `k` says where
page `k` went, no two pages went to the same place, and what page `k` held can be
found where it went. Of a call that returned 0 this is true in one case only, that
the range is a single page. Of a longer range the call never writes an entry but the
first, and of an empty one it writes that entry too, outside the caller's table.
-/

namespace LinuxDrivers.Vma

variable (K : Kernel) (R : Option VmAreaStruct → Nat → Space → Option Space)

/-- What entry `k` was last written with. -/
def lastWrite (log : List TableWrite) (k : Nat) : Option Address :=
  (log.reverse.find? fun w => w.ok && w.index == k).map TableWrite.entry

/-- The table describes a renaming of the range's pages that kept their contents. -/
def Renames (s : Space) (inp : Input) (s' : Space) (log : List TableWrite) : Prop :=
  ∃ dest : Nat → Nat,
    (∀ k < inp.length, lastWrite log k = some ⟨inp.addr + k * 4096, dest k⟩)
    ∧ ((List.range inp.length).map dest).Perm
      ((List.range inp.length).map fun k => inp.addr + k * 4096)
    ∧ ∀ k < inp.length, (s.mtreeLoad (inp.addr + k * 4096)).isSome →
      ∀ i < 4096, s'.mem (dest k + i) = s.mem (inp.addr + k * 4096 + i)

/-- The request can be read and is for a single page, its entry can be written, and
if the page is mapped, then the entry does not change it. -/
structure SinglePage (s : Space) (param : Nat) (inp : Input) : Prop where
  read : K.CanRead s.toMmStruct param 24
  single : inp.length = 1
  write : K.CanWrite s.toMmStruct inp.buff 16
  keeps : (s.mtreeLoad inp.addr).isSome →
    ∀ i < 4096, s.mem.write inp.buff inp.stay.encode (inp.addr + i) = s.mem (inp.addr + i)

section

variable {K R} {s : Space} {param : Nat} {inp : Input}

theorem lastWrite_of_all {log : List TableWrite} {w : TableWrite} (hall : ∀ v ∈ log, v = w)
    (hne : log ≠ []) (hok : w.ok = true) : lastWrite log w.index = some w.entry := by
  obtain ⟨v, rest, hv⟩ := List.exists_cons_of_ne_nil (List.reverse_ne_nil_iff.mpr hne)
  have hvw : v = w := hall v (List.mem_reverse.mp (by rw [hv]; exact List.mem_cons_self))
  unfold lastWrite
  rw [hv, hvw, List.find?_cons_of_pos (by simp [hok])]
  rfl

/-- An entry that no write succeeded at. -/
theorem lastWrite_eq_none {log : List TableWrite} {k : Nat}
    (h : ∀ v ∈ log, ¬(v.ok = true ∧ v.index = k)) : lastWrite log k = none := by
  unfold lastWrite
  rw [Option.map_eq_none_iff, List.find?_eq_none]
  intro v hv
  simpa using h v (List.mem_reverse.mp hv)

/-! ## The three ways a call ends -/

theorem input_buff_lt (s : Space) (param : Nat) : (s.input param).buff < 2 ^ 64 := by
  have hlen : (((s.mem.read param 24).drop 16).take 8).length = 8 := by simp
  have hlt := fromLe_lt (((s.mem.read param 24).drop 16).take 8)
  rw [hlen] at hlt
  exact hlt

theorem compactVma_argFault (h : ¬K.CanRead s.toMmStruct param 24) :
    compactVma K R s param = (.argFault, s, []) := by
  unfold compactVma
  rw [copyFromUser_eq_none K h]

theorem compactVma_of_read (h : K.CanRead s.toMmStruct param 24)
    (hi : s.input param = inp) :
    compactVma K R s param = ((compact K R inp s).1.getD .done, (compact K R inp s).2.space,
      (compact K R inp s).2.log) := by
  subst hi
  unfold compactVma
  rw [copyFromUser_of_canRead K h]
  rfl

theorem compactVma_done (hi : s.input param = inp) (hr : K.CanRead s.toMmStruct param 24)
    (hw : K.CanWrite s.toMmStruct inp.buff 16) :
    ∃ log, compactVma K R s param
        = (.done, { s with mem := s.mem.write inp.buff inp.stay.encode }, log)
      ∧ log ≠ [] ∧ ∀ w ∈ log, w = ⟨0, inp.stay, true⟩ := by
  have hb : inp.buff < 2 ^ 64 := hi ▸ input_buff_lt s param
  obtain ⟨hexit, hm, hne⟩ := (compact_spec (R := R) hb s).1 hw
  refine ⟨_, ?_, hne, hm.log⟩
  rcases hm.space with ⟨hlog, -⟩ | ⟨-, hs⟩
  · exact absurd hlog hne
  · rw [compactVma_of_read hr hi, hexit, hs]
    rfl

theorem compactVma_tableFault (hi : s.input param = inp) (hr : K.CanRead s.toMmStruct param 24)
    (hw : ¬K.CanWrite s.toMmStruct inp.buff 16) :
    compactVma K R s param = (.tableFault, (K.copyToUser s inp.buff inp.stay.encode).2,
      [⟨0, inp.stay, false⟩]) := by
  have hb : inp.buff < 2 ^ 64 := hi ▸ input_buff_lt s param
  obtain ⟨hexit, hf⟩ := (compact_spec (R := R) hb s).2 hw
  rw [compactVma_of_read hr hi, hexit, hf.log, hf.space]
  rfl

/-- Every call returns 0. -/
theorem compactVma_ret (s : Space) (param : Nat) : (compactVma K R s param).1.ret = some 0 := by
  by_cases hr : K.CanRead s.toMmStruct param 24
  swap
  · rw [compactVma_argFault hr]
    rfl
  by_cases hw : K.CanWrite s.toMmStruct (s.input param).buff 16
  · obtain ⟨log, heq, -⟩ := compactVma_done (R := R) rfl hr hw
    rw [heq]
    rfl
  · rw [compactVma_tableFault rfl hr hw]
    rfl

/-- Nothing is written before the request was read. -/
theorem canRead_of_mem_log {w : TableWrite} (hw : w ∈ (compactVma K R s param).2.2) :
    K.CanRead s.toMmStruct param 24 := by
  by_contra hr
  rw [compactVma_argFault hr] at hw
  exact absurd hw List.not_mem_nil

/-- A call that read its request writes to the table, or tries to, and then to entry 0. -/
theorem compactVma_log (hr : K.CanRead s.toMmStruct param 24) :
    (compactVma K R s param).2.2 ≠ [] ∧ ∀ w ∈ (compactVma K R s param).2.2, w.index = 0 := by
  by_cases hw : K.CanWrite s.toMmStruct (s.input param).buff 16
  · obtain ⟨log, heq, hne, hall⟩ := compactVma_done (R := R) rfl hr hw
    rw [heq]
    exact ⟨hne, fun w hw => by rw [hall w hw]⟩
  · rw [compactVma_tableFault rfl hr hw]
    exact ⟨List.cons_ne_nil _ _, fun w hw => by rw [List.mem_singleton.mp hw]⟩

/-- No call writes an entry but the first. -/
theorem lastWrite_compactVma {k : Nat} (hk : k ≠ 0) :
    lastWrite (compactVma K R s param).2.2 k = none := by
  refine lastWrite_eq_none fun w hw h => ?_
  have hindex := (compactVma_log (canRead_of_mem_log hw)).2 w hw
  exact hk (h.2.symm.trans hindex)

/-! ## When the table is right -/

theorem renames_of_singlePage (hi : s.input param = inp) (h : SinglePage K s param inp) :
    Renames s inp (compactVma K R s param).2.1 (compactVma K R s param).2.2 := by
  obtain ⟨log, heq, hne, hall⟩ := compactVma_done (R := R) hi h.read h.write
  have hentry := lastWrite_of_all hall hne rfl
  rw [heq]
  refine ⟨fun _ => inp.addr, ?_, ?_, ?_⟩
  · intro k hk
    obtain rfl : k = 0 := by have := h.single; omega
    rw [Nat.zero_mul, Nat.add_zero]
    exact hentry
  · rw [h.single]
    simp
  · intro k hk hmapped i hi
    obtain rfl : k = 0 := by have := h.single; omega
    rw [Nat.zero_mul, Nat.add_zero] at hmapped ⊢
    exact h.keeps hmapped i hi

theorem singlePage_of_renames (hi : s.input param = inp) (hpos : 1 ≤ inp.length)
    (h : Renames s inp (compactVma K R s param).2.1 (compactVma K R s param).2.2) :
    SinglePage K s param inp := by
  obtain ⟨dest, hentries, -, hkeeps⟩ := h
  have hfirst := hentries 0 hpos
  have hr : K.CanRead s.toMmStruct param 24 := by
    by_contra hr
    rw [compactVma_argFault hr] at hfirst
    exact absurd hfirst (by simp [lastWrite])
  have hw : K.CanWrite s.toMmStruct inp.buff 16 := by
    by_contra hw
    rw [compactVma_tableFault hi hr hw] at hfirst
    exact absurd hfirst (by simp [lastWrite])
  have hsingle : inp.length = 1 := by
    by_contra hlen
    have hsecond := hentries 1 (by omega)
    rw [lastWrite_compactVma (by decide)] at hsecond
    exact absurd hsecond (by simp)
  obtain ⟨log, heq, hne, hall⟩ := compactVma_done (R := R) hi hr hw
  refine ⟨hr, hsingle, hw, fun hmapped i hi => ?_⟩
  -- entry 0 says that page 0 is at its own address
  rw [heq] at hfirst hkeeps
  have hdest : dest 0 = inp.addr := by
    have hstay := lastWrite_of_all hall hne rfl
    exact (congrArg Address.toAddr (Option.some.inj (hstay.symm.trans hfirst))).symm
  have hpage := hkeeps 0 hpos
  rw [Nat.zero_mul, Nat.add_zero, hdest] at hpage
  exact hpage hmapped i hi

end

/--
**When the compaction table is a faithful renaming.**

Of the requests for at least one page, exactly for those for a single page whose entry
can be written and does not overwrite the page.
-/
theorem compactVma_renames_iff (s : Space) (param : Nat) (hpos : 1 ≤ (s.input param).length) :
    ((compactVma K R s param).1.ret = some 0 → Renames s (s.input param)
        (compactVma K R s param).2.1 (compactVma K R s param).2.2)
      ↔ SinglePage K s param (s.input param) :=
  ⟨fun h => singlePage_of_renames rfl hpos (h (compactVma_ret s param)),
    fun h _ => renames_of_singlePage rfl h⟩

/-- Two pages at 0x10000, and a page with a request to compact the first `n` of them; the
table follows the request. -/
def compactTwo (n : Nat) : Space where
  toMmStruct := twoAreas
  mem := Mem.write (fun x => UInt8.ofNat x) 0x30000 (toLe 0x10000 ++ toLe n ++ toLe 0x30100)

/-- A single page, renamed to itself. -/
theorem compactVma_renames_onePage :
    Renames (compactTwo 1) ⟨0x10000, 1, 0x30100⟩
      (compactVma Kernel.topDown (fun _ _ s => some s) (compactTwo 1) 0x30000).2.1
      (compactVma Kernel.topDown (fun _ _ s => some s) (compactTwo 1) 0x30000).2.2 := by
  have hi : (compactTwo 1).input 0x30000 = ⟨0x10000, 1, 0x30100⟩ := by decide
  have hiff := compactVma_renames_iff Kernel.topDown (fun _ _ s => some s) (compactTwo 1) 0x30000
    (by rw [hi])
  rw [hi] at hiff
  refine hiff.mpr ⟨by decide, rfl, by decide, fun _ i hi' => ?_⟩ (compactVma_ret _ _)
  refine Mem.write_of_not_mem _ fun hx => ?_
  have hlow : 0x30100 ≤ 0x10000 + i := hx.1
  omega

/-- Of two mapped pages only the first gets an entry. -/
theorem compactVma_forgets_second_page :
    (compactTwo 2).input 0x30000 = ⟨0x10000, 2, 0x30100⟩
      ∧ (compactVma Kernel.topDown (fun _ _ s => some s) (compactTwo 2) 0x30000).1.ret = some 0
      ∧ ¬Renames (compactTwo 2) ((compactTwo 2).input 0x30000)
          (compactVma Kernel.topDown (fun _ _ s => some s) (compactTwo 2) 0x30000).2.1
          (compactVma Kernel.topDown (fun _ _ s => some s) (compactTwo 2) 0x30000).2.2 := by
  have hi : (compactTwo 2).input 0x30000 = ⟨0x10000, 2, 0x30100⟩ := by decide
  refine ⟨hi, compactVma_ret _ _, fun h => ?_⟩
  rw [hi] at h
  obtain ⟨dest, hentries, -⟩ := h
  have hsecond := hentries 1 (by decide)
  rw [lastWrite_compactVma (by decide)] at hsecond
  exact absurd hsecond (by simp)

/-! ## Writes outside the table -/

/--
**When the table writes stay in the caller's table.**

Unless the request cannot be read, entry 0 is written whatever the length is: the write after
the loops has no condition. A table of no entries is the only one it misses.
-/
theorem compactVma_in_table_iff (s : Space) (param : Nat) :
    (∀ w ∈ (compactVma K R s param).2.2, w.index < (s.input param).length)
      ↔ (K.CanRead s.toMmStruct param 24 → 1 ≤ (s.input param).length) := by
  refine ⟨fun hin hr => ?_, fun hpos w hw => ?_⟩
  · obtain ⟨hne, hindex⟩ := compactVma_log (R := R) hr
    obtain ⟨w, hw⟩ := List.exists_mem_of_ne_nil _ hne
    have hlt := hin w hw
    rw [hindex w hw] at hlt
    exact hlt
  · have hr := canRead_of_mem_log hw
    rw [(compactVma_log hr).2 w hw]
    exact hpos hr

/-- A request for no pages still gets an entry, over what follows it in memory. -/
theorem compactVma_writes_empty_table :
    ((compactTwo 0).input 0x30000).length = 0
      ∧ ⟨0, ⟨0x10000, 0x10000⟩, true⟩
        ∈ (compactVma Kernel.topDown (fun _ _ s => some s) (compactTwo 0) 0x30000).2.2
      ∧ (compactTwo 0).mem 0x30101 = 1
      ∧ (compactVma Kernel.topDown (fun _ _ s => some s) (compactTwo 0) 0x30000).2.1.mem 0x30101
        = 0
      ∧ ¬∀ w ∈ (compactVma Kernel.topDown (fun _ _ s => some s) (compactTwo 0) 0x30000).2.2,
          w.index < ((compactTwo 0).input 0x30000).length := by
  have hi : (compactTwo 0).input 0x30000 = ⟨0x10000, 0, 0x30100⟩ := by decide
  obtain ⟨log, heq, hne, hall⟩ := compactVma_done (R := fun _ _ s => some s)
    (K := Kernel.topDown) hi (by decide) (by decide)
  obtain ⟨w, hw⟩ := List.exists_mem_of_ne_nil _ hne
  have hmem : (compactTwo 0).mem.write 0x30100 (Address.encode ⟨0x10000, 0x10000⟩) 0x30101 = 0 := by
    decide
  rw [heq, hi]
  refine ⟨rfl, hall w hw ▸ hw, by decide, hmem, fun hin => ?_⟩
  exact absurd (hin w hw) (Nat.not_lt_zero _)

end LinuxDrivers.Vma
