import LinuxDrivers.Lib.FirstFit
import LinuxDrivers.Vma.Move

/-!
# The search for a hole

`IOCTL_MVE_VMA` looks for the first hole behind the source area. Its loop is a first-fit
scan over pages, but for one page more than there are to move, and the address it then
takes is computed back from where the loop stopped.

For a page-aligned source the extra page is cut off again: what is left is free, lies
behind the area and inside user space. For any other source the address falls into the
mapped page before the hole, and the check behind the search refuses it. What the extra
page costs is every hole that fits exactly. Such a hole is passed over, so the search
finds the first hole that fits exactly if that one is at least a page too large.
-/

namespace LinuxDrivers.Vma

/-- The exits of the search and of the check behind it. -/
def MoveExit.noRoom : MoveExit → Bool
  | .noHole | .destMapped => true
  | _ => false

/-- Where `IOCTL_MVE_VMA` moves the pages of `vma` from `src` on: the address the search
selects, if the check lets it pass. -/
def MmStruct.hole (mm : MmStruct) (vma : VmAreaStruct) (src : Nat) : Option Nat :=
  (holeFor mm vma src).filter fun dst => (mm.mtreeLoad dst).isNone

/-- The pages of `vma` from `src` on fit at `t`: behind the area, inside user space, and over
nothing that is mapped. -/
structure Fits (mm : MmStruct) (vma : VmAreaStruct) (src t : Nat) : Prop where
  aligned : t % 4096 = 0
  after : vma.stop ≤ t
  below : t + (vma.stop - src) ≤ taskSize
  free : ∀ x, t ≤ x → x < t + (vma.stop - src) → mm.mtreeLoad x = none

/-! ## Past the search -/

section

variable {K : Kernel} {s : Space} {param src dst : Nat} {vma : VmAreaStruct}

/-- A relocation has left the search behind. -/
theorem writeBack_relocate_noRoom :
    (writeBack K param src dst (relocate K s vma src dst)).1.noRoom = false := by
  unfold relocate
  cases K.vmMmap s dst (sizeFrom vma src) (protOf vma) (flagsOf vma) with
  | none => rfl
  | some r =>
      dsimp only
      cases hc : copyPages K (iterations (sizeFrom vma src)) src dst r.2 with
      | mk e s₂ =>
          cases e with
          | some e =>
              rcases copyPages_some K (congrArg Prod.fst hc) with rfl | rfl
              · rfl
              · rfl
          | none =>
              dsimp only [writeBack]
              cases K.copyToUser _ param (Address.encode ⟨src, dst⟩) with
              | mk b s₃ => cases b <;> rfl

variable (harg : K.CanRead s.toMmStruct param 16) (ha : (s.address param).fromAddr = src)
  (hsrc : s.mtreeLoad src = some vma)

include harg ha hsrc

theorem mveVma_of_hole (h : s.hole vma src = some dst) :
    mveVma K s param = writeBack K param src dst (relocate K s vma src dst) := by
  obtain ⟨hole, hfree⟩ := Option.filter_eq_some_iff.mp h
  rw [mveVma_eq harg ha hsrc, hole]
  dsimp only
  rw [if_neg (by rw [Option.isNone_iff_eq_none.mp hfree]; simp)]

theorem mveVma_of_no_hole (h : s.hole vma src = none) :
    (mveVma K s param).1.noRoom = true ∧ (mveVma K s param).1.ret = -1 := by
  rw [mveVma_eq harg ha hsrc]
  cases hole : holeFor s.toMmStruct vma src with
  | none => exact ⟨rfl, rfl⟩
  | some dst =>
      have hmapped : (s.mtreeLoad dst).isSome := by
        rw [MmStruct.hole, hole, Option.filter_eq_none_iff] at h
        cases hload : s.mtreeLoad dst with
        | none => exact absurd (by rw [hload]; rfl) (h dst rfl)
        | some w => rfl
      dsimp only
      rw [if_pos hmapped]
      exact ⟨rfl, rfl⟩

/-- The call ends with the search exactly if there is no hole for it. -/
theorem mveVma_noRoom_iff : (mveVma K s param).1.noRoom = true ↔ s.hole vma src = none := by
  cases h : s.hole vma src with
  | none => exact iff_of_true (mveVma_of_no_hole harg ha hsrc h).1 rfl
  | some dst =>
      rw [mveVma_of_hole harg ha hsrc h, writeBack_relocate_noRoom]
      simp

end

/-! ## The loop as a scan over pages -/

section

variable {mm : MmStruct} {vma : VmAreaStruct} {src dst : Nat}

/-- Page `i` is not mapped. -/
def MmStruct.pageFree (mm : MmStruct) (i : Nat) : Bool := (mm.mtreeLoad (i * 4096)).isNone

/-- The page at `0x7ffffffff000` is the last one the loop looks at. -/
theorem findHole_eq_scan (mm : MmStruct) (need fuel i j : Nat) :
    findHole mm need fuel (i * 4096) j
      = ((FirstFit.scan mm.pageFree 0x7ffffffff need fuel i j).1 * 4096,
        (FirstFit.scan mm.pageFree 0x7ffffffff need fuel i j).2) := by
  induction fuel generalizing i j with
  | zero => rfl
  | succ fuel ih =>
      have hnext : i * 4096 + 4096 = (i + 1) * 4096 := (Nat.succ_mul i 4096).symm
      rw [findHole, FirstFit.scan]
      by_cases hlast : i > 0x7ffffffff
      · rw [if_pos hlast, if_pos (by omega)]
      rw [if_neg hlast, if_neg (by omega), hnext]
      by_cases hfree : mm.pageFree i = true
      · rw [if_pos hfree, if_pos (by exact hfree)]
        by_cases hneed : j + 1 = need
        · rw [if_pos hneed, if_pos hneed]
        · rw [if_neg hneed, if_neg hneed]
          exact ih (i + 1) (j + 1)
      · rw [if_neg hfree, if_neg (by exact hfree)]
        exact ih (i + 1) 0

/-- Free pages are free addresses. -/
theorem run_pageFree_iff {t n : Nat} :
    FirstFit.Run mm.pageFree t n
      ↔ ∀ x, t * 4096 ≤ x → x < (t + n) * 4096 → mm.mtreeLoad x = none := by
  constructor
  · intro h x hlo hhi
    have hpage : mm.mtreeLoad x = mm.mtreeLoad (x / 4096 * 4096) :=
      mtreeLoad_page mm (by omega)
    rw [hpage]
    exact Option.isNone_iff_eq_none.mp (h (x / 4096) (by omega) (by omega))
  · intro h i hlo hhi
    exact Option.isNone_iff_eq_none.mpr (h (i * 4096) (by omega) (by omega))

/-- What the search found out: the first page from which one page more is free than there
are to move, or that there is none. -/
inductive Searched (mm : MmStruct) (vma : VmAreaStruct) (src : Nat) : Prop where
  | found (t : Nat)
      (first : FirstFit.First mm.pageFree (vma.stop / 4096) 0x7ffffffff
        ((vma.stop - src) / 4096 + 1) t)
      (hole : holeFor mm vma src
        = some ((t + (vma.stop - src) / 4096) * 4096 - (vma.stop - src)))
  | exhausted
      (none : ∀ t, vma.stop / 4096 ≤ t → t + ((vma.stop - src) / 4096 + 1) ≤ 0x7ffffffff + 1 →
        ¬FirstFit.Run mm.pageFree t ((vma.stop - src) / 4096 + 1))
      (hole : holeFor mm vma src = Option.none)

/-- What is selected, from how the loop ended. -/
theorem holeFor_eq (hsrc : mm.mtreeLoad src = some vma) {toAddr j : Nat}
    (h : findHole mm ((vma.stop - src) / 4096 + 1) holeFuel vma.stop 0 = (toAddr, j)) :
    holeFor mm vma src
      = if j ≠ (vma.stop - src) / 4096 + 1 then none else some (toAddr - (vma.stop - src)) := by
  unfold holeFor
  rw [sizeFrom_eq hsrc]
  dsimp only
  rw [h]

theorem holeFor_searched (hsrc : mm.mtreeLoad src = some vma) : Searched mm vma src := by
  have hstop := (mtreeLoad_spec hsrc).1.stop
  have hend : FirstFit.Ended mm.pageFree (vma.stop / 4096) 0x7ffffffff
      ((vma.stop - src) / 4096 + 1)
      (FirstFit.scan mm.pageFree 0x7ffffffff ((vma.stop - src) / 4096 + 1) holeFuel
        (vma.stop / 4096) 0) := by
    refine FirstFit.scan_ended holeFuel (FirstFit.scanned_start (Nat.succ_pos _)) ?_
    unfold holeFuel
    omega
  have hscan := findHole_eq_scan mm ((vma.stop - src) / 4096 + 1) holeFuel (vma.stop / 4096) 0
  rw [Nat.div_mul_cancel (Nat.dvd_of_mod_eq_zero hstop)] at hscan
  have hole := holeFor_eq hsrc hscan
  generalize FirstFit.scan mm.pageFree 0x7ffffffff ((vma.stop - src) / 4096 + 1) holeFuel
    (vma.stop / 4096) 0 = r at hend hole
  cases hend with
  | @found i t stopped first =>
      have hi : i = t + (vma.stop - src) / 4096 := by omega
      rw [if_neg (not_not.mpr rfl), hi] at hole
      exact .found t first hole
  | exhausted short none =>
      rw [if_pos short] at hole
      exact .exhausted none hole

/-- A source that is not page aligned never gets past the check on the hole: the address
the search selects for it lies in the mapped page before the hole. -/
theorem src_aligned_of_hole (hsrc : mm.mtreeLoad src = some vma)
    (hole : holeFor mm vma src = some dst) (hdst : mm.mtreeLoad dst = none) : src % 4096 = 0 := by
  obtain ⟨⟨hstart, hstop, hne, -⟩, h1, h2⟩ := mtreeLoad_spec hsrc
  cases holeFor_searched hsrc with
  | exhausted none hnone => exact absurd (hnone.symm.trans hole) (by simp)
  | found t first hsome =>
      obtain rfl := Option.some.inj (hsome.symm.trans hole)
      by_contra hodd
      have hlower := first.lower
      obtain ⟨u, rfl⟩ : ∃ u, t = u + 1 := ⟨t - 1, by omega⟩
      -- the page before the hole: the last one of the area, or one the scan stopped at
      have hbefore : ¬mm.pageFree u = true := by
        by_cases hu : vma.stop / 4096 ≤ u
        · exact first.taken_before hu
        · intro hfree
          have hattr := attr_of_mtreeLoad hsrc (y := u * 4096) ⟨by omega, by omega⟩
          rw [mtreeLoad_eq_none_iff.mp (Option.isNone_iff_eq_none.mp hfree)] at hattr
          exact absurd hattr (by simp)
      refine hbefore (Option.isNone_iff_eq_none.mpr ?_)
      rw [mtreeLoad_page mm (y := (u + 1 + (vma.stop - src) / 4096) * 4096 - (vma.stop - src))
        (by omega)]
      exact hdst

/-! ## Holes that fit -/

variable (hsrc : mm.mtreeLoad src = some vma)

include hsrc

/-- The pages at `x` and the one behind them are free, and the scan comes as far. -/
theorem Fits.run {x : Nat} (h : Fits mm vma src x)
    (hnext : mm.mtreeLoad (x + (vma.stop - src)) = none) :
    vma.stop / 4096 ≤ x / 4096
      ∧ x / 4096 + ((vma.stop - src) / 4096 + 1) ≤ 0x7ffffffff + 1
      ∧ FirstFit.Run mm.pageFree (x / 4096) ((vma.stop - src) / 4096 + 1) := by
  obtain ⟨⟨-, hstop, -, -⟩, -, -⟩ := mtreeLoad_spec hsrc
  have haligned := h.aligned
  have hafter := h.after
  have hbelow : x + (vma.stop - src) ≤ 0x7ffffffff000 := h.below
  refine ⟨by omega, by omega, run_pageFree_iff.mpr fun y hlo hhi => ?_⟩
  by_cases hy : y < x + (vma.stop - src)
  · exact h.free y (by omega) hy
  · rw [mtreeLoad_page mm (y := x + (vma.stop - src)) (by omega)]
    exact hnext

variable (hal : src % 4096 = 0)

include hal

/-- A place the scan stopped at fits, with a page to spare. -/
theorem fits_of_first {t : Nat} (h : FirstFit.First mm.pageFree (vma.stop / 4096) 0x7ffffffff
      ((vma.stop - src) / 4096 + 1) t) :
    Fits mm vma src (t * 4096) ∧ mm.mtreeLoad (t * 4096 + (vma.stop - src)) = none := by
  obtain ⟨⟨-, hstop, -, -⟩, -, -⟩ := mtreeLoad_spec hsrc
  have hlower := h.lower
  have hupper := h.upper
  have hfree := run_pageFree_iff.mp h.run
  refine ⟨⟨Nat.mul_mod_left .., by omega, ?_, fun x hlo hhi => hfree x hlo (by omega)⟩,
    hfree _ (by omega) (by omega)⟩
  show t * 4096 + (vma.stop - src) ≤ 0x7ffffffff000
  omega

/-- What the search and the check behind it yield. -/
theorem hole_searched :
    (∃ t, FirstFit.First mm.pageFree (vma.stop / 4096) 0x7ffffffff
        ((vma.stop - src) / 4096 + 1) t ∧ mm.hole vma src = some (t * 4096))
      ∨ ((∀ x, Fits mm vma src x → mm.mtreeLoad (x + (vma.stop - src)) ≠ none)
        ∧ mm.hole vma src = none) := by
  obtain ⟨⟨-, hstop, -, -⟩, -, hlt⟩ := mtreeLoad_spec hsrc
  cases holeFor_searched hsrc with
  | found t first hole =>
      have hdst : (t + (vma.stop - src) / 4096) * 4096 - (vma.stop - src) = t * 4096 := by omega
      have hfree : mm.mtreeLoad (t * 4096) = none :=
        (fits_of_first hsrc hal first).1.free _ (Nat.le_refl _) (by omega)
      refine Or.inl ⟨t, first, Option.filter_eq_some_iff.mpr ⟨?_, ?_⟩⟩
      · rw [hole, hdst]
      · rw [hfree]
        rfl
  | exhausted none hole =>
      refine Or.inr ⟨fun x hfits hnext => ?_, ?_⟩
      · obtain ⟨hlower, hupper, hrun⟩ := hfits.run hsrc hnext
        exact none _ hlower hupper hrun
      · rw [MmStruct.hole, hole]
        rfl

end

/-! ## The command -/

variable (K : Kernel)

/--
**The search is sound.**

Once `IOCTL_MVE_VMA` is past its search and the check behind it, what it relocates to is
a place where the pages fit. A source that is not page aligned never gets there.
-/
theorem mveVma_hole_fits {s : Space} {param src : Nat} {vma : VmAreaStruct}
    (harg : K.CanRead s.toMmStruct param 16) (ha : (s.address param).fromAddr = src)
    (hsrc : s.mtreeLoad src = some vma) :
    ((mveVma K s param).1.noRoom = false → ∃ dst, s.hole vma src = some dst
        ∧ mveVma K s param = writeBack K param src dst (relocate K s vma src dst)
        ∧ Fits s.toMmStruct vma src dst)
      ∧ (src % 4096 ≠ 0 → (mveVma K s param).1.ret = -1) := by
  -- a source with a hole is page aligned
  have haligned : ∀ dst, s.hole vma src = some dst → src % 4096 = 0 := by
    intro dst h
    obtain ⟨hole, hfree⟩ := Option.filter_eq_some_iff.mp h
    exact src_aligned_of_hole hsrc hole (Option.isNone_iff_eq_none.mp hfree)
  cases h : s.hole vma src with
  | none =>
      obtain ⟨hroom, hret⟩ := mveVma_of_no_hole harg ha hsrc h
      refine ⟨fun hpast => ?_, fun _ => hret⟩
      rw [hroom] at hpast
      exact absurd hpast (by simp)
  | some dst =>
      have hal := haligned dst h
      refine ⟨fun _ => ⟨dst, rfl, mveVma_of_hole harg ha hsrc h, ?_⟩, fun hodd => absurd hal hodd⟩
      rcases hole_searched hsrc hal with ⟨t, first, hole⟩ | ⟨-, hole⟩
      · obtain rfl := Option.some.inj (hole.symm.trans h)
        exact (fits_of_first hsrc hal first).1
      · exact absurd (hole.symm.trans h) (by simp)

/-- A private anonymous page that can be read and written. -/
def rwPage (start : Nat) : VmAreaStruct := ⟨start, start + 0x1000, plainInfo⟩

/-- A page fits wherever one is free behind it. -/
theorem rwPage_fits {mm : MmStruct} {start t : Nat} (ha : t % 4096 = 0)
    (hafter : start + 0x1000 ≤ t) (hbelow : t + 0x1000 ≤ taskSize) (hfree : mm.mtreeLoad t = none) :
    Fits mm (rwPage start) start t := by
  have hsize : (rwPage start).stop - start = 0x1000 := Nat.add_sub_cancel_left ..
  refine ⟨ha, hafter, hsize ▸ hbelow, fun x hlo hhi => ?_⟩
  rw [hsize] at hhi
  rw [mtreeLoad_page mm (y := t) (by omega)]
  exact hfree

/-- Two pages with a hole of one page between them and a large one behind them, and a page
with two arguments: one to move the first page, one to move the second. -/
def holes : Space where
  areas := [rwPage 0x10000, rwPage 0x12000, rwPage 0x30000]
  sorted := by decide
  wf := by decide
  mem := Mem.write (fun x => UInt8.ofNat x) 0x30000
    (toLe 0x10000 ++ toLe 0 ++ toLe 0x12000 ++ toLe 0)

theorem holes_second : Kernel.topDown.CanRead holes.toMmStruct 0x30010 16
    ∧ (holes.address 0x30010).fromAddr = 0x12000
    ∧ holes.mtreeLoad 0x12000 = some (rwPage 0x12000)
    ∧ holes.hole (rwPage 0x12000) 0x12000 = some 0x13000 := by
  refine ⟨by decide, by decide, by decide, by decide⟩

/-- The second page goes to the large hole, where it fits. -/
theorem mveVma_second_fits :
    ∃ dst, holes.hole (rwPage 0x12000) 0x12000 = some dst
      ∧ mveVma Kernel.topDown holes 0x30010 = writeBack Kernel.topDown 0x30010 0x12000 dst
        (relocate Kernel.topDown holes (rwPage 0x12000) 0x12000 dst)
      ∧ Fits holes.toMmStruct (rwPage 0x12000) 0x12000 dst := by
  obtain ⟨harg, ha, hsrc, hole⟩ := holes_second
  refine (mveVma_hole_fits Kernel.topDown harg ha hsrc).1 ?_
  rw [mveVma_of_hole harg ha hsrc hole, writeBack_relocate_noRoom]

/--
**When the search finds the first hole that fits.**

It does unless the first hole is filled exactly. Behind the first place that fits, the page
after the last one needed has to be free as well.
-/
theorem mveVma_first_fit_iff {s : Space} {param src : Nat} {vma : VmAreaStruct}
    (harg : K.CanRead s.toMmStruct param 16) (ha : (s.address param).fromAddr = src)
    (hsrc : s.mtreeLoad src = some vma) (hal : src % 4096 = 0) :
    (((mveVma K s param).1.noRoom = true → ∀ t, ¬Fits s.toMmStruct vma src t)
        ∧ ∀ dst, s.hole vma src = some dst → IsLeast {t | Fits s.toMmStruct vma src t} dst)
      ↔ ∀ t, IsLeast {t | Fits s.toMmStruct vma src t} t
        → s.mtreeLoad (t + (vma.stop - src)) = none := by
  rw [mveVma_noRoom_iff harg ha hsrc]
  rcases hole_searched hsrc hal with ⟨u, first, hole⟩ | ⟨hnone, hole⟩
  · obtain ⟨hfits, hnext⟩ := fits_of_first hsrc hal first
    constructor
    · rintro ⟨-, hleast⟩ t ht
      rw [ht.unique (hleast _ hole)]
      exact hnext
    · intro hspare
      refine ⟨fun h => absurd (hole.symm.trans h) (by simp), fun dst h => ?_⟩
      obtain rfl := Option.some.inj (hole.symm.trans h)
      refine ⟨hfits, fun x hx => ?_⟩
      -- the scan would have stopped at the least place, where there is a page to spare
      obtain ⟨t, ht⟩ : ∃ t, IsLeast {t | Fits s.toMmStruct vma src t} t :=
        ⟨_, isLeast_csInf ⟨x, hx⟩⟩
      obtain ⟨hlower, -, hrun⟩ := ht.1.run hsrc (hspare t ht)
      have hle : u ≤ t / 4096 := by
        by_contra hlt
        exact first.least _ hlower (Nat.lt_of_not_le hlt) hrun
      have hx' : t ≤ x := ht.2 hx
      omega
  · constructor
    · rintro ⟨hcomplete, -⟩ t ht
      exact absurd ht.1 (hcomplete hole t)
    · intro hspare
      refine ⟨fun _ x hx => ?_, fun dst h => absurd (hole.symm.trans h) (by simp)⟩
      have hleast : IsLeast {t | Fits s.toMmStruct vma src t} _ := isLeast_csInf ⟨x, hx⟩
      exact hnone _ hleast.1 (hspare _ hleast)

/-- The second page is moved to the first place that fits. -/
theorem mveVma_second_first_fit : holes.hole (rwPage 0x12000) 0x12000 = some 0x13000
    ∧ IsLeast {t | Fits holes.toMmStruct (rwPage 0x12000) 0x12000 t} 0x13000 := by
  obtain ⟨harg, ha, hsrc, hole⟩ := holes_second
  refine ⟨hole, ((mveVma_first_fit_iff Kernel.topDown harg ha hsrc (by decide)).mpr
    fun t ht => ?_).2 _ hole⟩
  have hfits : Fits holes.toMmStruct (rwPage 0x12000) 0x12000 0x13000 :=
    rwPage_fits (by decide) (by decide) (by decide) (by decide)
  have hle : t ≤ 0x13000 := ht.2 hfits
  have hge : 0x13000 ≤ t := ht.1.after
  obtain rfl : t = 0x13000 := by omega
  decide

/-- The first page fits exactly between the two, and is moved behind the second. -/
theorem mveVma_skips_exact_hole :
    Kernel.topDown.CanRead holes.toMmStruct 0x30000 16
      ∧ (holes.address 0x30000).fromAddr = 0x10000
      ∧ holes.mtreeLoad 0x10000 = some (rwPage 0x10000)
      ∧ Fits holes.toMmStruct (rwPage 0x10000) 0x10000 0x11000
      ∧ holes.hole (rwPage 0x10000) 0x10000 = some 0x13000 := by
  refine ⟨by decide, by decide, by decide, ?_, by decide⟩
  exact rwPage_fits (by decide) (by decide) (by decide) (by decide)

end LinuxDrivers.Vma
