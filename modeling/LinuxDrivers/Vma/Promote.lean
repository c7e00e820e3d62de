import LinuxDrivers.Vma.Space

/-!
# Promotion

`IOCTL_PROMOTE_VMA` walks over user space page by page and counts mapped pages.
Each time it has counted 512 it gets 512 consecutive frames, copies 2MB into them,
gives the user pages the entries the kernel's direct map has for the frames, and
maps the frames once more, at the start of the area it finds there.

Neither range is the one the pages were counted in. The copied 2MB begin one page
before the pages counted, so the copy may touch an address outside all areas. And the
frames are mapped at the start of the *area*, not of the window, so the pages there
show the window from then on (`promoteWindow_seen`).

What the kernel does when it touches a user page is not part of the module. It is a
field of `Frames`, with one law: if the kernel survives, the gap from the page up to the
next area has been mapped, as happens below an area that grows down, and nothing else.
-/

namespace LinuxDrivers.Vma

/-- An address space down to its frames. -/
structure Paged extends MmStruct where
  /-- The frame behind each user page; `none` is an empty entry. -/
  pte : Nat → Option Nat
  /-- The entry the kernel's direct map has for each frame. -/
  direct : Nat → Option Nat
  /-- The bytes of each frame. -/
  phys : Nat → Nat → UInt8

/-- The byte seen through a user address. A page that has no frame yet reads as
zeros, as anonymous memory does before it is first touched. -/
def Paged.byte (s : Paged) (x : Nat) : UInt8 :=
  match s.pte (x / 4096) with
  | none => 0
  | some f => s.phys f (x % 4096)

/-- What a read of `x` gives if a fault has to map it first. -/
def Paged.seen (s : Paged) (x : Nat) : UInt8 :=
  if (s.mtreeLoad x).isSome then s.byte x else 0

/-- The 512 frames from `pfn` on: no user page has one of them, and the direct map has
them all. -/
def Paged.Fresh (s : Paged) (pfn : Nat) : Prop :=
  ∀ k < 512, (∀ p < 2 ^ 35, s.pte p ≠ some (pfn + k)) ∧ s.direct (pfn + k) = some (pfn + k)

/-- What promotion asks of the kernel. -/
structure Frames where
  /-- `alloc_pages(GFP_KERNEL, 9)`: the first of 512 consecutive frames. -/
  alloc : Paged → Option Nat
  alloc_fresh : ∀ {s pfn}, alloc s = some pfn → s.Fresh pfn
  /-- The kernel reads from a user page: the areas afterwards, or `none` for an oops. -/
  touch : MmStruct → Nat → Option MmStruct
  /-- What a fault maps is the gap from its page up to the next area. -/
  touch_maps : ∀ {mm a mm'}, touch mm a = some mm' → ∀ x, (mm'.mtreeLoad x).isSome ↔
    (mm.mtreeLoad x).isSome
      ∨ a / 4096 * 4096 ≤ x ∧ ∀ y, a / 4096 * 4096 ≤ y → y ≤ x → mm.mtreeLoad y = none
  /-- Whether `remap_pfn_range` refuses to map the frames at the start of an area. -/
  remapFails : Paged → VmAreaStruct → Nat → Bool

variable (F : Frames)

/-! ## One window -/

/-- The first `n` pages from `start` on are touched. -/
def touchPages (start : Nat) : Nat → MmStruct → Option MmStruct
  | 0, mm => some mm
  | n + 1, mm =>
    (touchPages start n mm).bind fun mm' => F.touch mm' ((start + n * 4096) % 2 ^ 64)

theorem touchPages_zero (start : Nat) (mm : MmStruct) : touchPages F start 0 mm = some mm := rfl

theorem touchPages_succ (start n : Nat) (mm : MmStruct) :
    touchPages F start (n + 1) mm
      = (touchPages F start n mm).bind fun mm' => F.touch mm' ((start + n * 4096) % 2 ^ 64) := rfl

-- a window has 512 pages, too many to unfold
attribute [irreducible] touchPages

/-- The address space once faults have made its areas `mm`: a page that was not mapped
before has no frame yet. -/
def Paged.faulted (s : Paged) (mm : MmStruct) : Paged :=
  { s with
    toMmStruct := mm
    pte := fun p =>
      if (mm.mtreeLoad (p * 4096)).isSome ∧ s.mtreeLoad (p * 4096) = none then none
      else s.pte p }

/-- The frames from `pfn` on filled with the 2MB from the user address `start` on. -/
def Paged.copied (s : Paged) (pfn start : Nat) : Paged :=
  { s with
    phys := fun f o =>
      if pfn ≤ f ∧ f < pfn + 512 then s.byte ((start + (f - pfn) * 4096) % 2 ^ 64 + o)
      else s.phys f o }

/-- `memcpy` of the 2MB, through the direct map. It is no user copy: the kernel touches
the pages itself. -/
def Paged.memcpy (s : Paged) (pfn start : Nat) : Option Paged :=
  (touchPages F start 512 s.toMmStruct).map fun mm => (s.faulted mm).copied pfn start

/-- A round of the loop over the entries: the direct map's entry for a frame is taken
out and becomes the entry of a user page. -/
def Paged.moveEntry (s : Paged) (frame page : Nat) : Paged :=
  { s with
    direct := fun f => if f = frame then none else s.direct f
    pte := fun p => if p = page then s.direct frame else s.pte p }

/-- The first `n` rounds. -/
def Paged.moveEntries (s : Paged) (pfn start : Nat) : Nat → Paged
  | 0 => s
  | n + 1 => (s.moveEntries pfn start n).moveEntry (pfn + n) ((start + n * 4096) % 2 ^ 64 / 4096)

/-- Where the direct map begins. -/
def pageOffset : Nat := 0xffff888000000000

/-- `page_address`, from the frame number -/
def pageAddress (pfn : Nat) : Nat := pageOffset + pfn * 4096

/-- `vm_munmap`, which also empties the entries of the pages. -/
def Paged.vmMunmap (s : Paged) (start len : Nat) : Paged :=
  if start % 4096 = 0 ∧ 0 < len ∧ start + pageAlign len ≤ taskSize then
    { s with
      toMmStruct := s.toMmStruct.vmMunmap start len
      pte := fun p =>
        if start / 4096 ≤ p ∧ p < (start + pageAlign len) / 4096 then none else s.pte p }
  else s

/-- `remap_pfn_range(vma, start, pfn, 2MB, ..)`, when it succeeds. -/
def Paged.remapPfnRange (s : Paged) (start pfn : Nat) : Paged :=
  { s with
    pte := fun p =>
      if start / 4096 ≤ p ∧ p < start / 4096 + 512 then some (pfn + (p - start / 4096))
      else s.pte p }

/-- The promotion of the 2MB from `start` on: `none` is an oops, `false` a remapping
that was refused. -/
def promoteWindow (s : Paged) (start : Nat) : Option (Bool × Paged) :=
  match F.alloc s with
  | none => none
  | some pfn =>
    match s.memcpy F pfn start with
    | none => none
    | some s₁ =>
      let s₂ := (s₁.moveEntries pfn start 512).vmMunmap (pageAddress pfn) 0x200000
      match s₂.findVma start with
      | none => none
      | some vma =>
        if F.remapFails s₂ vma pfn then some (false, s₂)
        else some (true, s₂.remapPfnRange vma.start pfn)

/-! ## The walk -/

/--
The loop over user space. The first argument bounds the number of pages looked at,
`j` counts the mapped ones seen in a row since the last promotion. Yields the
returned value and the address space, or `none` if the call does not return.
-/
def promoteLoop : Nat → Nat → Nat → Paged → Option (Int × Paged)
  | 0, _, _, s => some (0, s)
  | fuel + 1, i, j, s =>
    if i > 0x7fffffffffff then some (0, s)
    else if (s.mtreeLoad i).isSome then
      if j + 1 = 512 then
        match promoteWindow F s ((i + 2 ^ 64 - 0x200000) % 2 ^ 64) with
        | none => none
        | some (false, s') => some (-11, s')
        | some (true, s') => promoteLoop fuel (i + 4096) 0 s'
      else promoteLoop fuel (i + 4096) (j + 1) s
    else promoteLoop fuel (i + 4096) 0 s

/-- More pages than the loop can look at. -/
def promoteFuel : Nat := 2 ^ 35 + 1

def promoteVma (s : Paged) : Option (Int × Paged) := promoteLoop F promoteFuel 0 0 s

section

variable {F} {s : Paged} {pfn start : Nat}

/-! ## The entries -/

theorem vmMunmap_kernel (s : Paged) (pfn len : Nat) : s.vmMunmap (pageAddress pfn) len = s := by
  refine if_neg fun h => ?_
  have hle : 0xffff888000000000 + pfn * 4096 + pageAlign len ≤ 0x7ffffffff000 := h.2.2
  omega

theorem moveEntries_phys (s : Paged) (n : Nat) : (s.moveEntries pfn start n).phys = s.phys := by
  induction n with
  | zero => rfl
  | succ n ih => exact ih

theorem moveEntries_mm (s : Paged) (n : Nat) :
    (s.moveEntries pfn start n).toMmStruct = s.toMmStruct := by
  induction n with
  | zero => rfl
  | succ n ih => exact ih

/-- The rounds do not touch the direct map's entries for later frames. -/
theorem moveEntries_direct (s : Paged) {n f : Nat} (h : pfn + n ≤ f) :
    (s.moveEntries pfn start n).direct f = s.direct f := by
  induction n with
  | zero => rfl
  | succ n ih =>
      have hne : f ≠ pfn + n := by omega
      show (if f = pfn + n then none else (s.moveEntries pfn start n).direct f) = s.direct f
      rw [if_neg hne]
      exact ih (by omega)

/-- After the rounds the user pages of the window have the frames' entries. -/
theorem moveEntries_pte (s : Paged) (ha : start % 4096 = 0) {n : Nat}
    (hlt : start + n * 4096 ≤ 2 ^ 64) (p : Nat) :
    (s.moveEntries pfn start n).pte p
      = if start / 4096 ≤ p ∧ p < start / 4096 + n then s.direct (pfn + (p - start / 4096))
        else s.pte p := by
  induction n with
  | zero => exact (if_neg (by omega)).symm
  | succ n ih =>
      have hpage : (start + n * 4096) % 2 ^ 64 / 4096 = start / 4096 + n := by
        rw [Nat.mod_eq_of_lt (by omega)]
        omega
      have hle : start + n * 4096 ≤ 2 ^ 64 :=
        Nat.le_trans (Nat.add_le_add_left (Nat.mul_le_mul_right 4096 (Nat.le_succ n)) start) hlt
      show (if p = (start + n * 4096) % 2 ^ 64 / 4096 then
          (s.moveEntries pfn start n).direct (pfn + n) else (s.moveEntries pfn start n).pte p) = _
      rw [hpage, ih hle, moveEntries_direct s (Nat.le_refl _)]
      by_cases hp : p = start / 4096 + n
      · subst hp
        rw [if_pos rfl, if_pos ⟨Nat.le_add_right .., Nat.lt_succ_self _⟩, Nat.add_sub_cancel_left]
      · rw [if_neg hp]
        by_cases hin : start / 4096 ≤ p ∧ p < start / 4096 + n
        · rw [if_pos hin, if_pos (by omega)]
        · rw [if_neg hin, if_neg (by omega)]

theorem remapPfnRange_phys (s : Paged) : (s.remapPfnRange start pfn).phys = s.phys := rfl

theorem remapPfnRange_mm (s : Paged) :
    (s.remapPfnRange start pfn).toMmStruct = s.toMmStruct := rfl

theorem copied_mm (s : Paged) : (s.copied pfn start).toMmStruct = s.toMmStruct := rfl

/-! ## What the touched pages are -/

/-- What was mapped before the pages were touched still is. -/
theorem touchPages_mono {mm mm' : MmStruct} {n x : Nat}
    (h : touchPages F start n mm = some mm') (hx : (mm.mtreeLoad x).isSome) :
    (mm'.mtreeLoad x).isSome := by
  induction n generalizing mm' with
  | zero =>
      rw [touchPages_zero] at h
      exact Option.some.inj h ▸ hx
  | succ n ih =>
      rw [touchPages_succ] at h
      obtain ⟨mm₁, h₁, h₂⟩ := Option.bind_eq_some_iff.mp h
      exact (F.touch_maps h₂ x).mpr (Or.inl (ih h₁))

/-- A touched page is mapped afterwards. -/
theorem touch_mapped {mm mm' : MmStruct} {a : Nat} (h : F.touch mm a = some mm') :
    (mm'.mtreeLoad a).isSome := by
  refine (F.touch_maps h a).mpr ?_
  by_cases hmapped : (mm.mtreeLoad a).isSome
  · exact Or.inl hmapped
  · refine Or.inr ⟨by omega, fun y hlo hhi => ?_⟩
    rw [mtreeLoad_page mm (by omega : y / 4096 = a / 4096)]
    simpa using hmapped

theorem touchPages_mapped {mm mm' : MmStruct} {n : Nat} (h : touchPages F start n mm = some mm')
    {k : Nat} (hk : k < n) : (mm'.mtreeLoad ((start + k * 4096) % 2 ^ 64)).isSome := by
  induction n generalizing mm' with
  | zero => exact absurd hk (Nat.not_lt_zero k)
  | succ n ih =>
      rw [touchPages_succ] at h
      obtain ⟨mm₁, h₁, h₂⟩ := Option.bind_eq_some_iff.mp h
      by_cases hlast : k = n
      · rw [hlast]
        exact touch_mapped h₂
      · exact (F.touch_maps h₂ _).mpr (Or.inl (ih h₁ (by omega)))

/-- The touched pages lie in user space, so their addresses do not wrap around. -/
theorem touchPages_start_lt {mm mm' : MmStruct} (hlt : start < 2 ^ 64)
    (h : touchPages F start 512 mm = some mm') : start < taskSize := by
  have hfirst := touchPages_mapped h (by decide : 0 < 512)
  rw [Nat.zero_mul, Nat.add_zero, Nat.mod_eq_of_lt hlt] at hfirst
  exact lt_taskSize_of_mtreeLoad hfirst

/-- Every address of the window is mapped once its pages have been touched. -/
theorem window_mapped {mm mm' : MmStruct} (hlt : start < 2 ^ 64)
    (ha : start % 4096 = 0) (h : touchPages F start 512 mm = some mm') {x : Nat}
    (hlo : start ≤ x) (hhi : x < start + 0x200000) : (mm'.mtreeLoad x).isSome := by
  have hstart : start < 0x7ffffffff000 := touchPages_start_lt hlt h
  have hpage := touchPages_mapped h (by omega : (x - start) / 4096 < 512)
  rw [Nat.mod_eq_of_lt (by omega)] at hpage
  rw [mtreeLoad_page mm' (by omega : x / 4096 = (start + (x - start) / 4096 * 4096) / 4096)]
  exact hpage

/-- Touching pages up to `i`, which is mapped, maps nothing above it. -/
theorem touchPages_above {mm mm' : MmStruct} {n i : Nat} (hi : (mm.mtreeLoad i).isSome)
    (hle : ∀ k < n, (start + k * 4096) % 2 ^ 64 ≤ i) (h : touchPages F start n mm = some mm')
    {x : Nat} (hx : i ≤ x) : (mm'.mtreeLoad x).isSome ↔ (mm.mtreeLoad x).isSome := by
  induction n generalizing mm' with
  | zero =>
      rw [touchPages_zero] at h
      rw [Option.some.inj h]
  | succ n ih =>
      rw [touchPages_succ] at h
      obtain ⟨mm₁, h₁, h₂⟩ := Option.bind_eq_some_iff.mp h
      have hsame := ih (fun k hk => hle k (by omega)) h₁
      rw [F.touch_maps h₂, hsame]
      refine ⟨fun hor => hor.elim id fun ⟨_, hgap⟩ => ?_, Or.inl⟩
      -- the gap would contain `i`
      have hnone := hgap i (by have := hle n (by omega); omega) hx
      have hmapped := touchPages_mono h₁ hi
      rw [hnone] at hmapped
      exact absurd hmapped (by decide)

/-! ## What a window does -/

/-- What a fault has mapped reads as zeros, and everything else as before. -/
theorem faulted_byte {mm : MmStruct} {x : Nat} (h : (mm.mtreeLoad x).isSome) :
    (s.faulted mm).byte x = s.seen x := by
  have hpage : x / 4096 * 4096 / 4096 = x / 4096 := by omega
  have hmm := mtreeLoad_page mm hpage
  have hs := mtreeLoad_page s.toMmStruct hpage
  unfold Paged.byte Paged.seen Paged.faulted
  dsimp only
  rw [hmm, hs]
  by_cases hx : (s.mtreeLoad x).isSome
  · rw [if_neg (fun hc => by rw [hc.2] at hx; exact absurd hx (by decide)), if_pos hx]
    rfl
  · rw [if_pos ⟨h, by simpa using hx⟩, if_neg hx]

/-- The address space once the frames are filled, given to the window's pages and mapped from
`v` on. -/
def Paged.promoted (s : Paged) (pfn start v : Nat) : Paged :=
  ((s.copied pfn start).moveEntries pfn start 512).remapPfnRange v pfn

theorem promoted_mm (s : Paged) (pfn start v : Nat) :
    (s.promoted pfn start v).toMmStruct = s.toMmStruct :=
  (remapPfnRange_mm ..).trans ((moveEntries_mm ..).trans (copied_mm ..))

theorem promoted_phys (s : Paged) (pfn start v : Nat) :
    (s.promoted pfn start v).phys = (s.copied pfn start).phys :=
  (remapPfnRange_phys ..).trans (moveEntries_phys ..)

/-- What a promotion that succeeded has done. -/
theorem promoteWindow_true {s' : Paged} (h : promoteWindow F s start = some (true, s')) :
    ∃ pfn mm vma, F.alloc s = some pfn ∧ touchPages F start 512 s.toMmStruct = some mm
      ∧ mm.findVma start = some vma ∧ s' = (s.faulted mm).promoted pfn start vma.start := by
  unfold promoteWindow at h
  cases halloc : F.alloc s with
  | none => simp [halloc] at h
  | some pfn =>
      rw [halloc] at h
      dsimp only [Paged.memcpy] at h
      cases htouch : touchPages F start 512 s.toMmStruct with
      | none => simp [htouch] at h
      | some mm =>
          rw [htouch] at h
          dsimp only [Option.map_some] at h
          have hmm : (((s.faulted mm).copied pfn start).moveEntries pfn start 512).findVma start
              = mm.findVma start := by
            rw [moveEntries_mm]
            rfl
          rw [vmMunmap_kernel, hmm] at h
          cases hvma : mm.findVma start with
          | none => simp [hvma] at h
          | some vma =>
              rw [hvma] at h
              dsimp only at h
              split at h
              · exact absurd h (by simp)
              · exact ⟨pfn, mm, vma, rfl, rfl, hvma, (Prod.mk.inj (Option.some.inj h)).2.symm⟩

/-- A promotion succeeds if nothing goes wrong on the way. -/
theorem promoteWindow_eq {mm : MmStruct} {vma : VmAreaStruct} (halloc : F.alloc s = some pfn)
    (htouch : touchPages F start 512 s.toMmStruct = some mm)
    (hvma : mm.findVma start = some vma) (hremap : ∀ s v pfn, F.remapFails s v pfn = false) :
    promoteWindow F s start = some (true, (s.faulted mm).promoted pfn start vma.start) := by
  have hfind : (((s.faulted mm).copied pfn start).moveEntries pfn start 512).findVma start
      = some vma := by
    rw [moveEntries_mm]
    exact hvma
  unfold promoteWindow
  rw [halloc]
  dsimp only [Paged.memcpy]
  rw [htouch, Option.map_some]
  dsimp only
  rw [vmMunmap_kernel, hfind]
  dsimp only
  rw [hremap, if_neg (by decide)]
  rfl

/-- A promotion: where its window begins, and where its frames are mapped. -/
structure Remap where
  startAddr : Nat
  vmStart : Nat
  deriving DecidableEq

/-- The address whose byte `x` shows after a promotion. -/
def Remap.source (r : Remap) (x : Nat) : Nat :=
  if r.vmStart ≤ x ∧ x < r.vmStart + 0x200000 then r.startAddr + (x - r.vmStart) else x

/-- What the frame behind the window's page number `k` holds. -/
theorem copied_frame (hlt : start < taskSize) {k : Nat} (hk : k < 512) (o : Nat) :
    (s.copied pfn start).phys (pfn + k) o = s.byte (start + k * 4096 + o) := by
  have hstart : start < 0x7ffffffff000 := hlt
  have hin : pfn ≤ pfn + k ∧ pfn + k < pfn + 512 := by omega
  have hmod : (start + k * 4096) % 2 ^ 64 = start + k * 4096 := Nat.mod_eq_of_lt (by omega)
  refine (if_pos hin).trans ?_
  rw [Nat.add_sub_cancel_left, hmod]

/-- The pages from `v` on have the frames. -/
theorem promoted_pte {v p : Nat} (h : v / 4096 ≤ p ∧ p < v / 4096 + 512) :
    (s.promoted pfn start v).pte p = some (pfn + (p - v / 4096)) :=
  if_pos h

theorem promoted_byte {v : Nat} (ha : start % 4096 = 0) (hv : v % 4096 = 0)
    (hlt : start < taskSize) (hfresh : s.Fresh pfn) {x : Nat} (hx : x < 2 ^ 47) :
    (s.promoted pfn start v).byte x = s.byte (Remap.source ⟨start, v⟩ x) := by
  have hstart : start < 0x7ffffffff000 := hlt
  unfold Remap.source
  dsimp only
  rw [Paged.byte, promoted_phys]
  by_cases hin : v ≤ x ∧ x < v + 0x200000
  · -- the target shows the window
    have hoff : start + (x / 4096 - v / 4096) * 4096 + x % 4096 = start + (x - v) := by omega
    rw [if_pos hin, promoted_pte (by omega)]
    dsimp only
    rw [copied_frame hlt (by omega), hoff]
  · have hout : ¬(v / 4096 ≤ x / 4096 ∧ x / 4096 < v / 4096 + 512) := by omega
    have hpte : (s.promoted pfn start v).pte (x / 4096)
        = if start / 4096 ≤ x / 4096 ∧ x / 4096 < start / 4096 + 512 then
            s.direct (pfn + (x / 4096 - start / 4096))
          else s.pte (x / 4096) :=
      (if_neg hout).trans (moveEntries_pte _ ha (by omega) _)
    rw [if_neg hin, hpte]
    by_cases hwin : start / 4096 ≤ x / 4096 ∧ x / 4096 < start / 4096 + 512
    · -- the rest of the window has the frames' entries
      have hoff : start + (x / 4096 - start / 4096) * 4096 + x % 4096 = x := by omega
      rw [if_pos hwin, (hfresh _ (by omega)).2]
      dsimp only
      rw [copied_frame hlt (by omega), hoff]
    · rw [if_neg hwin, Paged.byte]
      cases hold : s.pte (x / 4096) with
      | none => rfl
      | some f =>
          refine if_neg fun hf => ?_
          have hne := (hfresh (f - pfn) (by omega)).1 (x / 4096) (by omega)
          rw [hold] at hne
          exact hne (congrArg some (by omega))

theorem faulted_fresh (mm : MmStruct) (h : s.Fresh pfn) : (s.faulted mm).Fresh pfn := by
  refine fun k hk => ⟨fun p hp => ?_, (h k hk).2⟩
  show (if _ then none else s.pte p) ≠ some (pfn + k)
  split
  · simp
  · exact (h k hk).1 p hp

theorem promoted_not_fresh {v : Nat} (hv : v < 2 ^ 47) : ¬(s.promoted pfn start v).Fresh pfn := by
  intro h
  refine (h 0 (by decide)).1 (v / 4096) (by omega) ?_
  rw [promoted_pte ⟨Nat.le_refl _, by omega⟩, Nat.sub_self]

/-- Another block of frames stays fresh. -/
theorem promoted_fresh {v pfn' : Nat} (ha : start % 4096 = 0) (hlt : start < taskSize)
    (h : s.Fresh pfn) (h' : s.Fresh pfn') (hapart : pfn + 512 ≤ pfn') :
    (s.promoted pfn start v).Fresh pfn' := by
  have hstart : start < 0x7ffffffff000 := hlt
  have hdirect : ∀ f, pfn + 512 ≤ f → (s.promoted pfn start v).direct f = s.direct f := by
    intro f hf
    unfold Paged.promoted Paged.remapPfnRange
    dsimp only
    rw [moveEntries_direct _ hf]
    rfl
  refine fun k hk => ⟨fun p hp => ?_, (hdirect _ (by omega)).trans (h' k hk).2⟩
  show (if v / 4096 ≤ p ∧ p < v / 4096 + 512 then some (pfn + (p - v / 4096))
    else ((s.copied pfn start).moveEntries pfn start 512).pte p) ≠ some (pfn' + k)
  split
  · intro heq
    have := Option.some.inj heq
    omega
  · rw [moveEntries_pte _ ha (by omega)]
    split
    · show s.direct _ ≠ _
      rw [(h _ (by omega)).2]
      intro heq
      have := Option.some.inj heq
      omega
    · exact (h' k hk).1 p hp

/-- The pages the frames are mapped at all lie in areas: up to the window they are in the area
found, and from there on they have been touched. -/
theorem target_mapped {mm mm' : MmStruct} (ha : start % 4096 = 0) (hlt : start < 2 ^ 64)
    (htouch : touchPages F start 512 mm = some mm') {vma : VmAreaStruct}
    (hload : mm'.mtreeLoad start = some vma) {x : Nat} (hlo : vma.start ≤ x)
    (hhi : x < vma.start + 0x200000) : (mm'.mtreeLoad x).isSome := by
  obtain ⟨-, hle, hstop⟩ := mtreeLoad_spec hload
  by_cases hx : x < start
  · obtain ⟨hmem, -⟩ := Area.has_of_lookup hload
    have hfound : mm'.mtreeLoad x = some vma :=
      (Area.lookup_eq_some_iff mm'.sorted).mpr ⟨hmem, hlo, by omega⟩
    rw [hfound]
    rfl
  · exact window_mapped hlt ha htouch (by omega) (by omega)

/--
**What a promotion shows.**

After a promotion every address shows what its source showed: the pages from the start of
the area on show the window, and all others what they showed before.
-/
theorem promoteWindow_seen {s' : Paged} (ha : start % 4096 = 0) (hlt : start < 2 ^ 64)
    (h : promoteWindow F s start = some (true, s')) :
    ∃ vma, touchPages F start 512 s.toMmStruct = some s'.toMmStruct
      ∧ s'.mtreeLoad start = some vma
      ∧ ∀ x, s'.seen x = s.seen (Remap.source ⟨start, vma.start⟩ x) := by
  obtain ⟨pfn, mm, vma, halloc, htouch, hvma, rfl⟩ := promoteWindow_true h
  have hmm : ((s.faulted mm).promoted pfn start vma.start).toMmStruct = mm := promoted_mm ..
  -- the area found is the one around the window's first page
  have hload : mm.mtreeLoad start = some vma := by
    obtain ⟨v, hv⟩ := Option.isSome_iff_exists.mp
      (window_mapped hlt ha htouch (Nat.le_refl start) (by omega))
    rw [← hvma, findVma_of_mtreeLoad hv, hv]
  refine ⟨vma, by rw [hmm]; exact htouch, by rw [hmm]; exact hload, fun x => ?_⟩
  rw [Paged.seen, hmm]
  by_cases hx : (mm.mtreeLoad x).isSome
  · have hbelow : x < 0x7ffffffff000 := lt_taskSize_of_mtreeLoad hx
    rw [if_pos hx, promoted_byte ha (mtreeLoad_spec hload).1.start (touchPages_start_lt hlt htouch)
      (faulted_fresh mm (F.alloc_fresh halloc)) (by omega)]
    refine faulted_byte ?_
    unfold Remap.source
    dsimp only
    split
    · exact window_mapped hlt ha htouch (by omega) (by omega)
    · exact hx
  · -- an address that is still not mapped lies outside the target, and was not mapped before
    have hout : ¬(vma.start ≤ x ∧ x < vma.start + 0x200000) :=
      fun hc => hx (target_mapped ha hlt htouch hload hc.1 hc.2)
    rw [if_neg hx, Remap.source, if_neg hout, Paged.seen,
      if_neg fun hs => hx (touchPages_mono htouch hs)]

end

end LinuxDrivers.Vma
