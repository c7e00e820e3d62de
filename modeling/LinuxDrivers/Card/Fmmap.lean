import LinuxDrivers.Lib.Run

/-!
# What the card's `mmap` exposes

`cryptocard_fmmap` turns the page offset of the new area into a physical address, adds
the start of BAR0, and has the kernel map as many frames from there on as the area has
pages. It checks neither the offset nor the length, so what a process gets to see is
whatever physical memory its own arguments name; the addition may even wrap around and
end up below the card.

The page tables keep, for every process, the frames it sees through the device file.
-/

namespace LinuxDrivers.Card

/-- The card's BAR0: 1 MB of physical addresses, on a page boundary. -/
structure Bar0 where
  mmioStart : Nat
  aligned : mmioStart % 4096 = 0
  fits : mmioStart + 0x100000 ≤ 2 ^ 64

/-- The frame lies inside BAR0. -/
def Bar0.Holds (bar : Bar0) (frame : Nat) : Prop :=
  bar.mmioStart ≤ frame * 4096 ∧ frame * 4096 + 4096 ≤ bar.mmioStart + 0x100000

/-- An area the kernel has set up for a call of `mmap`. -/
structure VmArea where
  vmStart : Nat
  vmEnd : Nat
  vmPgoff : Nat
  nonempty : vmStart < vmEnd
  startAligned : vmStart % 4096 = 0
  endAligned : vmEnd % 4096 = 0
  pgoff64 : vmPgoff < 2 ^ 64

def VmArea.pages (vma : VmArea) : Nat := (vma.vmEnd - vma.vmStart) / 4096

/-- For each process, the frames its pages show through the device file. -/
abbrev Ptes := Nat → Nat → Option Nat

/-- `io_remap_pfn_range`, where it succeeds: `n` pages from `page` on show the frames from
`pfn` on. -/
def ioRemapPfnRange (pid page pfn n : Nat) (ptes : Ptes) : Ptes :=
  Function.update ptes pid fun p =>
    if page ≤ p ∧ p < page + n then some (pfn + (p - page)) else ptes pid p

def eagain : Int := 11

/-- `vma->vm_pgoff << PAGE_SHIFT`, in 64 bits. -/
def VmArea.offset (vma : VmArea) : Nat := vma.vmPgoff * 4096 % 2 ^ 64

/-- `cryptocard_fmmap`; `ok` says whether `io_remap_pfn_range` succeeds. -/
def cryptocardFmmap (bar : Bar0) (ok : Bool) (pid : Nat) (vma : VmArea) (ptes : Ptes) :
    Int × Ptes :=
  let offset := (bar.mmioStart + vma.offset) % 2 ^ 64
  if ok then (0, ioRemapPfnRange pid (vma.vmStart / 4096) (offset / 4096) vma.pages ptes)
  else (-eagain, ptes)

/-! ## Which frames are mapped -/

/-- The first frame the area shows. -/
def firstFrame (bar : Bar0) (vma : VmArea) : Nat := (bar.mmioStart + vma.offset) % 2 ^ 64 / 4096

theorem fmmap_ptes (bar : Bar0) (pid : Nat) (vma : VmArea) (ptes : Ptes) :
    (cryptocardFmmap bar true pid vma ptes).2 = Function.update ptes pid fun p =>
      if vma.vmStart / 4096 ≤ p ∧ p < vma.vmStart / 4096 + vma.pages
      then some (firstFrame bar vma + (p - vma.vmStart / 4096)) else ptes pid p := rfl

/-- After a call that succeeds, the `k`-th page of the area shows the `k`-th frame. -/
theorem fmmap_frame (bar : Bar0) (pid : Nat) (vma : VmArea) (ptes : Ptes) {k : Nat}
    (hk : k < vma.pages) :
    (cryptocardFmmap bar true pid vma ptes).2 pid (vma.vmStart / 4096 + k)
      = some (firstFrame bar vma + k) := by
  rw [fmmap_ptes, Function.update_self, if_pos ⟨Nat.le_add_right _ _, by omega⟩,
    Nat.add_sub_cancel_left]

/-- Every entry after a call is one of the area's frames, or was there before. -/
theorem fmmap_entry {bar : Bar0} {ok : Bool} {pid pid' p frame : Nat} {vma : VmArea} {ptes : Ptes}
    (h : (cryptocardFmmap bar ok pid vma ptes).2 pid' p = some frame) :
    ptes pid' p = some frame ∨ ∃ k < vma.pages, frame = firstFrame bar vma + k := by
  cases ok with
  | false => exact Or.inl h
  | true =>
      rw [fmmap_ptes] at h
      by_cases hpid : pid' = pid
      · subst hpid
        rw [Function.update_self] at h
        split at h
        · exact Or.inr ⟨p - vma.vmStart / 4096, by omega, (Option.some.inj h).symm⟩
        · exact Or.inl h
      · rw [Function.update_of_ne hpid] at h
        exact Or.inl h

/-! ## When they are the card's -/

/-- The area asked for lies within the 1 MB of the card. -/
def VmArea.Within (vma : VmArea) : Prop := vma.offset + (vma.vmEnd - vma.vmStart) ≤ 0x100000

/-- The frames of an area are all in BAR0 exactly if the area lies within it. -/
theorem frames_hold_iff (bar : Bar0) (vma : VmArea) :
    (∀ k < vma.pages, bar.Holds (firstFrame bar vma + k)) ↔ vma.Within := by
  have hpages : vma.vmEnd - vma.vmStart = vma.pages * 4096 := by
    have h1 := vma.startAligned
    have h2 := vma.endAligned
    unfold VmArea.pages
    omega
  have hpos : 0 < vma.pages := by
    have h := vma.nonempty
    omega
  have hoff : vma.offset < 2 ^ 64 ∧ vma.offset % 4096 = 0 := by
    unfold VmArea.offset
    omega
  have hbar := bar.aligned
  have hfits := bar.fits
  unfold VmArea.Within Bar0.Holds firstFrame
  rw [hpages]
  constructor
  · intro h
    have hfirst := h 0 hpos
    have hlast := h (vma.pages - 1) (by omega)
    -- were there a wrap-around, the first frame would lie below the card
    have hnowrap : bar.mmioStart + vma.offset < 2 ^ 64 := by omega
    rw [Nat.mod_eq_of_lt hnowrap] at hlast
    omega
  · intro h k hk
    rw [Nat.mod_eq_of_lt (by omega)]
    omega

/--
**What a mapping of the card exposes.**

For every place of BAR0, every area and every page offset: the frames the area shows once
it is mapped are all frames of the card exactly if offset and length stay within its 1 MB.
-/
theorem fmmap_only_card_iff (bar : Bar0) (pid : Nat) (vma : VmArea) (ptes : Ptes) :
    (∀ p frame, vma.vmStart / 4096 ≤ p → p < vma.vmEnd / 4096 →
        (cryptocardFmmap bar true pid vma ptes).2 pid p = some frame → bar.Holds frame)
      ↔ vma.offset + (vma.vmEnd - vma.vmStart) ≤ 0x100000 := by
  have hend : vma.vmEnd / 4096 = vma.vmStart / 4096 + vma.pages := by
    have h1 := vma.startAligned
    have h2 := vma.nonempty
    unfold VmArea.pages
    omega
  refine Iff.trans ⟨?_, ?_⟩ (frames_hold_iff bar vma)
  · intro h k hk
    exact h _ _ (Nat.le_add_right _ _) (by omega) (fmmap_frame bar pid vma ptes hk)
  · intro h p frame hlo hhi hp
    obtain ⟨k, rfl⟩ := Nat.exists_eq_add_of_le hlo
    have hk : k < vma.pages := by omega
    rw [fmmap_frame bar pid vma ptes hk] at hp
    cases hp
    exact h k hk

/-- A card at `0xfe000000`. -/
def someBar : Bar0 := ⟨0xfe000000, by decide, by decide⟩

/-- One page, at the given page offset of the device file. -/
def pageAt (vmPgoff : Fin (2 ^ 64)) : VmArea where
  vmStart := 0x7f0000000000
  vmEnd := 0x7f0000001000
  vmPgoff := vmPgoff
  nonempty := by decide
  startAligned := by decide
  endAligned := by decide
  pgoff64 := vmPgoff.isLt

/-- Page offset 256 shows the frame behind the card, and an offset that wraps around shows
the first frame of physical memory. -/
theorem fmmap_exposes_other_memory :
    ((cryptocardFmmap someBar true 1 (pageAt 256) fun _ _ => none).2 1 0x7f0000000 = some 0xfe100
        ∧ ¬someBar.Holds 0xfe100)
      ∧ (cryptocardFmmap someBar true 1 (pageAt 0xffffffff02000) fun _ _ => none).2 1 0x7f0000000
          = some 0
        ∧ ¬someBar.Holds 0 := by
  refine ⟨⟨by decide, fun h => ?_⟩, by decide, fun h => ?_⟩
  · exact absurd h.2 (by decide)
  · exact absurd h.1 (by decide)

/-! ## Whole runs -/

/-- One call of `mmap` on the device file. -/
structure MmapCall where
  pid : Nat
  vma : VmArea
  ok : Bool

/-- If every area asked for lies within the card, no process ever sees anything else
through it. -/
theorem run_only_card (bar : Bar0) {calls : List MmapCall} (hin : ∀ c ∈ calls, c.vma.Within)
    {ptes : Ptes}
    (hrun : runs (fun t (c : MmapCall) => some (cryptocardFmmap bar c.ok c.pid c.vma t).2)
      (fun _ _ => none) calls = some ptes) {pid p frame : Nat} (hp : ptes pid p = some frame) :
    bar.Holds frame := by
  refine runs_inv (P := fun t : Ptes => ∀ pid p frame, t pid p = some frame → bar.Holds frame)
    ?_ ?_ calls (along_of_forall hin) ptes hrun pid p frame hp
  · intro pid p frame h
    cases h
  · intro h t c t' _ ht hc hstep pid p frame hp
    cases hstep
    rcases fmmap_entry hp with hold | ⟨k, hk, rfl⟩
    · exact ht pid p frame hold
    · exact (frames_hold_iff bar c.vma).mpr hc k hk

end LinuxDrivers.Card
