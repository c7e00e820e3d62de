import LinuxDrivers.Vma.Windows

/-!
# What a program sees of a promotion

A program should not notice that its memory was promoted. Whether it does is decided by
where the frames of each window are mapped. `remaps` is the list of the windows with
their targets, and `origin` follows an address through it: after a call that returned 0,
every address shows the byte its origin showed (`promoteAll_seen`).

A window whose area begins before it is mapped over the beginning of the area, so the
pages there have another origin than themselves. The second window of an area that
grows down is always one of these: the first has extended the area to where it begins.
-/

namespace LinuxDrivers.Vma

variable (F : Frames)

/-! ## The windows and their targets -/

/-- The window from `startAddr` on, with the start of the area found after its pages were
touched. -/
def remapAt (mm : MmStruct) (startAddr : Nat) : Option (Remap × MmStruct) :=
  (touchPages F startAddr 512 mm).bind fun mm' =>
    (mm'.findVma startAddr).map fun vma => (⟨startAddr, vma.start⟩, mm')

/-- The windows with their targets, in the order they are promoted. -/
def remapsOf : List Window → MmStruct → List Remap
  | [], _ => []
  | w :: ws, mm =>
    match remapAt F mm w.startAddr with
    | none => []
    | some (r, mm') => r :: remapsOf ws mm'

def MmStruct.remaps (mm : MmStruct) : List Remap := remapsOf F mm.windows mm

/-- The address whose byte `x` shows after the promotions: the last one is undone first. -/
def origin (rs : List Remap) (x : Nat) : Nat := rs.foldr Remap.source x

/-- A window of 512 pages that were counted in `mm`. -/
structure Window.Counted (mm : MmStruct) (w : Window) : Prop where
  aligned : w.startAddr % 4096 = 0
  lt : w.startAddr < 2 ^ 64
  /-- Unless it wraps around, the window begins 2MB before the last page counted. -/
  last : w.startAddr < taskSize → w.last = w.startAddr + 0x200000
  pages : ∀ k, 1 ≤ k → k ≤ 512 → w.startAddr < taskSize →
    (mm.mtreeLoad (w.startAddr + k * 4096)).isSome

section

variable {F} {mm mm₀ : MmStruct} {ws : List Window}

theorem remapAt_of_touch {mm' : MmStruct} {startAddr : Nat} {vma : VmAreaStruct}
    (h : touchPages F startAddr 512 mm = some mm') (hload : mm'.mtreeLoad startAddr = some vma) :
    remapAt F mm startAddr = some (⟨startAddr, vma.start⟩, mm') := by
  unfold remapAt
  rw [h, Option.bind_some, findVma_of_mtreeLoad hload]
  rfl

theorem windows_counted (mm : MmStruct) : ∀ w ∈ mm.windows, w.Counted mm := by
  intro w hw
  rw [windows_eq] at hw
  obtain ⟨q, hq, rfl⟩ := List.mem_map.mp hw
  obtain ⟨hlo, hrun⟩ := countOff_counted (by decide) (Nat.le_refl 0)
    (fun y hy hy' => by omega) hq
  have hlast := lt_userPages_of_used (mem_countOff hq).2.2
  have hpages : userPages = 0x800000000 := by decide
  have hstart : (windowAt (q * 4096)).startAddr = (q * 4096 + 2 ^ 64 - 0x200000) % 2 ^ 64 := rfl
  refine ⟨by omega, by omega, fun hlt => ?_, fun k h1 h512 hlt => ?_⟩
  · have hbelow : (windowAt (q * 4096)).startAddr < 0x7ffffffff000 := hlt
    show q * 4096 = _
    omega
  · have hbelow : (windowAt (q * 4096)).startAddr < 0x7ffffffff000 := hlt
    have hpage : (windowAt (q * 4096)).startAddr + k * 4096 = (q + k - 512) * 4096 := by omega
    rw [hpage]
    exact hrun (q + k - 512) (by omega) (by omega)

theorem windows_spaced (mm : MmStruct) :
    mm.windows.Pairwise fun w w' => w.last + 0x200000 ≤ w'.last := by
  rw [windows_eq, List.pairwise_map]
  refine (countOff_spaced (by decide)).imp fun {p q} hpq => ?_
  show p * 4096 + 0x200000 ≤ q * 4096
  omega

/-! ## What the call shows -/

/-- **Every address shows what its origin showed**, and stays mapped. -/
theorem promoteAll_seen {s s' : Paged}
    (hws : ∀ w ∈ ws, w.startAddr % 4096 = 0 ∧ w.startAddr < 2 ^ 64)
    (h : promoteAll F ws s = some (0, s')) :
    (∀ x, (s.mtreeLoad x).isSome → (s'.mtreeLoad x).isSome)
      ∧ ∀ x, s'.seen x = s.seen (origin (remapsOf F ws s.toMmStruct) x) := by
  induction ws generalizing s with
  | nil =>
      obtain rfl := (Prod.mk.inj (Option.some.inj h)).2
      exact ⟨fun _ hx => hx, fun _ => rfl⟩
  | cons w ws ih =>
      obtain ⟨ha, hlt⟩ := hws w (List.mem_cons_self ..)
      rw [promoteAll] at h
      cases hw : promoteWindow F s w.startAddr with
      | none => simp [hw] at h
      | some r =>
          obtain ⟨ok, s₁⟩ := r
          cases ok with
          | false => simp [hw] at h
          | true =>
              rw [hw] at h
              obtain ⟨vma, htouch, hload, hseen⟩ := promoteWindow_seen ha hlt hw
              obtain ⟨hkeep, hrest⟩ := ih (fun w' hw' => hws w' (List.mem_cons_of_mem _ hw')) h
              refine ⟨fun x hx => hkeep x (touchPages_mono htouch hx), fun x => ?_⟩
              rw [hrest x, hseen, remapsOf, remapAt_of_touch htouch hload]
              rfl

theorem promoteVma_seen {s s' : Paged} (h : promoteVma F s = some (0, s')) :
    (∀ x, (s.mtreeLoad x).isSome → (s'.mtreeLoad x).isSome)
      ∧ ∀ x, s'.seen x = s.seen (origin (s.remaps F) x) := by
  rw [promoteVma_eq] at h
  exact promoteAll_seen (fun w hw => ⟨(windows_counted _ w hw).aligned,
    (windows_counted _ w hw).lt⟩) h

/-! ## When every address is its own origin -/

theorem origin_eq_self {rs : List Remap} (h : ∀ r ∈ rs, r.vmStart = r.startAddr) (x : Nat) :
    origin rs x = x := by
  induction rs with
  | nil => rfl
  | cons r rs ih =>
      show r.source (origin rs x) = x
      rw [ih fun r' hr' => h r' (List.mem_cons_of_mem _ hr'), Remap.source,
        h r (List.mem_cons_self ..)]
      split
      · omega
      · rfl

/-- A page mapped since `mm₀` is the one before a page of `mm₀`. -/
def Grown (mm₀ mm : MmStruct) : Prop :=
  ∀ x, (mm.mtreeLoad x).isSome → (mm₀.mtreeLoad x).isSome ∨ (mm₀.mtreeLoad (x + 4096)).isSome

/-- Of a window only the first page can be outside the areas. -/
theorem Grown.touch {mm' : MmStruct} (h : Grown mm₀ mm)
    (hsub : ∀ x, (mm₀.mtreeLoad x).isSome → (mm.mtreeLoad x).isSome) {w : Window}
    (hw : w.Counted mm₀) {n : Nat} (hn : n ≤ 512) (hlt : w.startAddr < taskSize)
    (htouch : touchPages F w.startAddr n mm = some mm') : Grown mm₀ mm' := by
  have hstart : w.startAddr < 0x7ffffffff000 := hlt
  have haligned := hw.aligned
  induction n generalizing mm' with
  | zero =>
      rw [touchPages_zero] at htouch
      exact Option.some.inj htouch ▸ h
  | succ n ih =>
      rw [touchPages_succ] at htouch
      obtain ⟨mm₁, h₁, h₂⟩ := Option.bind_eq_some_iff.mp htouch
      intro x hx
      rcases (F.touch_maps h₂ x).mp hx with hold | ⟨hlo, hgap⟩
      · exact ih (by omega) h₁ x hold
      rw [Nat.mod_eq_of_lt (by omega)] at hlo hgap
      -- the gap ends before the next page, which was counted
      have hnext := hw.pages (n + 1) (by omega) (by omega) hlt
      have hbefore : x < w.startAddr + (n + 1) * 4096 := by
        by_contra hge
        have hnone := hgap (w.startAddr + (n + 1) * 4096) (by omega) (by omega)
        have hmapped := touchPages_mono h₁ (hsub _ hnext)
        rw [hnone] at hmapped
        exact absurd hmapped (by decide)
      refine Or.inr ?_
      rw [mtreeLoad_page mm₀
        (by omega : (x + 4096) / 4096 = (w.startAddr + (n + 1) * 4096) / 4096)]
      exact hnext

/-- The first page of the window's area, or the one after it, was mapped in the beginning, and
shows the window's bytes now. -/
theorem Grown.exists_source_ne (h : Grown mm₀ mm) {x₀ : Nat} {vma : VmAreaStruct}
    (hload : mm.mtreeLoad x₀ = some vma) (hne : vma.start ≠ x₀) :
    ∃ x, (mm₀.mtreeLoad x).isSome ∧ Remap.source ⟨x₀, vma.start⟩ x ≠ x
      ∧ x₀ ≤ Remap.source ⟨x₀, vma.start⟩ x := by
  obtain ⟨-, hle, hstop⟩ := mtreeLoad_spec hload
  obtain ⟨hmem, -⟩ := Area.has_of_lookup hload
  have hmapped : (mm.mtreeLoad vma.start).isSome :=
    Option.isSome_iff_exists.mpr
      ⟨vma, (Area.lookup_eq_some_iff mm.sorted).mpr ⟨hmem, Nat.le_refl _, by omega⟩⟩
  obtain ⟨x, hx, hin, hin'⟩ : ∃ x, (mm₀.mtreeLoad x).isSome ∧ vma.start ≤ x
      ∧ x < vma.start + 0x200000 := by
    rcases h _ hmapped with hold | hnext
    · exact ⟨_, hold, Nat.le_refl _, by omega⟩
    · exact ⟨_, hnext, by omega, by omega⟩
  have hsource : Remap.source ⟨x₀, vma.start⟩ x = x₀ + (x - vma.start) := if_pos ⟨hin, hin'⟩
  refine ⟨x, hx, ?_, ?_⟩
  · rw [hsource]
    omega
  · rw [hsource]
    omega

/-- A window mapped elsewhere than where it begins gives a page that was mapped another
origin. -/
theorem exists_origin_ne (hgrown : Grown mm₀ mm)
    (hsub : ∀ x, (mm₀.mtreeLoad x).isSome → (mm.mtreeLoad x).isSome)
    (hws : ∀ w ∈ ws, w.Counted mm₀)
    (hspaced : ws.Pairwise fun w w' => w.last + 0x200000 ≤ w'.last) {lo : Nat}
    (hlo : ∀ w ∈ ws, w.startAddr < taskSize → lo ≤ w.startAddr)
    (hne : ∃ r ∈ remapsOf F ws mm, r.vmStart ≠ r.startAddr) :
    ∃ x, (mm₀.mtreeLoad x).isSome ∧ origin (remapsOf F ws mm) x ≠ x
      ∧ lo ≤ origin (remapsOf F ws mm) x := by
  induction ws generalizing mm lo with
  | nil =>
      obtain ⟨r, hr, -⟩ := hne
      exact absurd hr List.not_mem_nil
  | cons w ws ih =>
      obtain ⟨hfirst, hspaced'⟩ := List.pairwise_cons.mp hspaced
      have hw := hws w (List.mem_cons_self ..)
      cases htouch : touchPages F w.startAddr 512 mm with
      | none =>
          have hnone : remapAt F mm w.startAddr = none := by rw [remapAt, htouch]; rfl
          rw [remapsOf, hnone] at hne
          obtain ⟨r, hr, -⟩ := hne
          exact absurd hr List.not_mem_nil
      | some mm' =>
          have hlt := touchPages_start_lt hw.lt htouch
          have hlast := hw.last hlt
          have hlow := hlo w (List.mem_cons_self ..) hlt
          obtain ⟨vma, hload⟩ := Option.isSome_iff_exists.mp
            (window_mapped hw.lt hw.aligned htouch (Nat.le_refl _) (by omega))
          obtain ⟨-, hle, hstop⟩ := mtreeLoad_spec hload
          have hgrown' := hgrown.touch hsub hw (Nat.le_refl 512) hlt htouch
          rw [remapsOf, remapAt_of_touch htouch hload] at hne ⊢
          dsimp only at hne ⊢
          have hcons : ∀ x, origin (⟨w.startAddr, vma.start⟩ :: remapsOf F ws mm') x
              = Remap.source ⟨w.startAddr, vma.start⟩ (origin (remapsOf F ws mm') x) :=
            fun _ => rfl
          by_cases hlater : ∃ r ∈ remapsOf F ws mm', r.vmStart ≠ r.startAddr
          · -- what a later window moves lies above the target of this one
            have hafter : ∀ w' ∈ ws, w'.startAddr < taskSize → w.last ≤ w'.startAddr := by
              intro w' hw' hlt'
              have hspace := hfirst w' hw'
              have hlast' := (hws w' (List.mem_cons_of_mem _ hw')).last hlt'
              omega
            obtain ⟨x, hx, hmoved, habove⟩ := ih hgrown'
              (fun x hx => touchPages_mono htouch (hsub x hx))
              (fun w' hw' => hws w' (List.mem_cons_of_mem _ hw')) hspaced' hafter hlater
            have hsame : Remap.source ⟨w.startAddr, vma.start⟩ (origin (remapsOf F ws mm') x)
                = origin (remapsOf F ws mm') x := if_neg (by dsimp only; omega)
            refine ⟨x, hx, ?_, ?_⟩
            · rw [hcons, hsame]
              exact hmoved
            · rw [hcons, hsame]
              omega
          · have hself : ∀ x, origin (remapsOf F ws mm') x = x :=
              origin_eq_self fun r hr => not_not.mp fun hr' => hlater ⟨r, hr, hr'⟩
            have hmoves : vma.start ≠ w.startAddr := by
              obtain ⟨r, hr, hr'⟩ := hne
              rcases List.mem_cons.mp hr with rfl | hr
              · exact hr'
              · exact absurd ⟨r, hr, hr'⟩ hlater
            obtain ⟨x, hx, hmoved, habove⟩ := hgrown'.exists_source_ne hload hmoves
            refine ⟨x, hx, ?_, ?_⟩
            · rw [hcons, hself]
              exact hmoved
            · rw [hcons, hself]
              exact hlow.trans habove

/-- Every mapped address is its own origin exactly if every window begins with its area. -/
theorem origin_self_iff (mm : MmStruct) :
    (∀ x, (mm.mtreeLoad x).isSome → origin (mm.remaps F) x = x)
      ↔ ∀ r ∈ mm.remaps F, r.vmStart = r.startAddr := by
  refine ⟨fun h => ?_, fun h x _ => origin_eq_self h x⟩
  by_contra hne
  obtain ⟨r, hr, hr'⟩ := not_forall₂.mp hne
  obtain ⟨x, hx, hmoved, -⟩ := exists_origin_ne (fun _ hx => Or.inl hx)
    (fun _ hx => hx) (windows_counted mm) (windows_spaced mm) (fun _ _ _ => Nat.zero_le _)
    ⟨r, hr, hr'⟩
  exact hmoved (h x hx)

end

/-- What was mapped still is, and shows the same byte. -/
def Invisible (s s' : Paged) : Prop :=
  ∀ x, (s.mtreeLoad x).isSome → (s'.mtreeLoad x).isSome ∧ s'.byte x = s.byte x

/--
**When promotion is invisible.**

Take any call that returned 0. The program sees no difference exactly if every address
that was mapped shows the byte of its origin. And the origins are the addresses
themselves, so that the contents do not matter, exactly if every window begins with the
area it is mapped in.
-/
theorem promoteVma_invisible_iff {s s' : Paged} (h : promoteVma F s = some (0, s')) :
    (Invisible s s'
        ↔ ∀ x, (s.mtreeLoad x).isSome → s.seen (origin (s.remaps F) x) = s.byte x)
      ∧ ((∀ x, (s.mtreeLoad x).isSome → origin (s.remaps F) x = x)
        ↔ ∀ r ∈ s.remaps F, r.vmStart = r.startAddr) := by
  obtain ⟨hkeep, hseen⟩ := promoteVma_seen h
  have hbyte : ∀ x, (s.mtreeLoad x).isSome → s'.byte x = s.seen (origin (s.remaps F) x) := by
    intro x hx
    rw [← hseen, Paged.seen, if_pos (hkeep x hx)]
  refine ⟨⟨fun hinv x hx => ?_, fun horigin x hx => ⟨hkeep x hx, ?_⟩⟩, origin_self_iff _⟩
  · rw [← hbyte x hx]
    exact (hinv x hx).2
  · rw [hbyte x hx]
    exact horigin x hx

/-! ## A kernel whose areas grow down -/

/-- `expand_stack`: the area above is extended down to the page of `addr`. -/
def MmStruct.expandStack (mm : MmStruct) (addr : Nat) : MmStruct where
  areas := Area.extendDown (addr / 4096 * 4096) mm.areas
  sorted := mm.sorted.extendDown _
  wf := by
    intro v hv
    rcases Area.mem_of_mem_extendDown hv with hv | ⟨u, hu, hlt, rfl⟩
    · exact mm.wf v hv
    · obtain ⟨h1, h2, h3, h4⟩ := mm.wf u hu
      have hmin : min u.start (addr / 4096 * 4096) = u.start
          ∨ min u.start (addr / 4096 * 4096) = addr / 4096 * 4096 := by omega
      refine ⟨?_, h2, ?_, h4⟩ <;> dsimp only <;> omega

theorem expandStack_maps {mm : MmStruct} {addr : Nat}
    (hvma : (mm.findVma (addr / 4096 * 4096)).isSome) (x : Nat) :
    ((mm.expandStack addr).mtreeLoad x).isSome ↔ (mm.mtreeLoad x).isSome
      ∨ addr / 4096 * 4096 ≤ x
        ∧ ∀ y, addr / 4096 * 4096 ≤ y → y ≤ x → mm.mtreeLoad y = none := by
  obtain ⟨v, hv⟩ := Option.isSome_iff_exists.mp hvma
  have hfirst : Area.firstAfter mm.areas (addr / 4096 * 4096) = some v := hv
  unfold MmStruct.mtreeLoad MmStruct.expandStack
  rw [Area.isSome_lookup_iff, Area.isSome_lookup_iff,
    Area.has_extendDown_iff fun u hu => Nat.le_of_lt (mm.wf u hu).nonempty, hfirst]
  simp only [Option.some.injEq, exists_eq_left']
  exact or_congr_right (and_congr_right
    (Area.lt_start_iff_gap mm.sorted (fun u hu => (mm.wf u hu).nonempty) hfirst))

instance (s : Paged) (pfn : Nat) : Decidable (s.Fresh pfn) := by
  unfold Paged.Fresh
  infer_instance

@[irreducible] def Paged.isFresh (s : Paged) (pfn : Nat) : Bool := decide (s.Fresh pfn)

theorem isFresh_iff {s : Paged} {pfn : Nat} : s.isFresh pfn = true ↔ s.Fresh pfn := by
  unfold Paged.isFresh
  exact decide_eq_true_iff

/-- A kernel that allocates from the given blocks of frames, extends the area above a fault
and never refuses to remap. -/
def Frames.growing (blocks : List Nat) : Frames where
  alloc s := blocks.find? s.isFresh
  alloc_fresh h := isFresh_iff.mp (List.find?_some h)
  touch mm addr :=
    if (mm.mtreeLoad addr).isSome then some mm
    else if (mm.findVma (addr / 4096 * 4096)).isSome then some (mm.expandStack addr)
    else none
  touch_maps := by
    intro mm addr mm' h x
    split at h
    · rename_i hmapped
      obtain rfl := Option.some.inj h
      refine ⟨Or.inl, fun hor => hor.elim id fun ⟨hlo, hgap⟩ => ?_⟩
      -- the page itself is in no gap
      have hnone := hgap _ (Nat.le_refl _) hlo
      rw [mtreeLoad_page mm (by omega : addr / 4096 * 4096 / 4096 = addr / 4096)] at hnone
      rw [hnone] at hmapped
      exact absurd hmapped (by decide)
    · split at h
      · rename_i hvma
        obtain rfl := Option.some.inj h
        exact expandStack_maps hvma x
      · exact absurd h (by simp)
  remapFails _ _ _ := false

section

variable (blocks : List Nat) {mm mm' : MmStruct} {start stop pfn : Nat} {s : Paged}

theorem growing_alloc (h : s.Fresh pfn) : (Frames.growing (pfn :: blocks)).alloc s = some pfn :=
  List.find?_cons_of_pos (isFresh_iff.mpr h)

theorem growing_alloc_next (h : ¬s.Fresh pfn) :
    (Frames.growing (pfn :: blocks)).alloc s = (Frames.growing blocks).alloc s :=
  List.find?_cons_of_neg fun hfresh => h (isFresh_iff.mp hfresh)

theorem growing_touch {addr : Nat} (h : (mm.mtreeLoad addr).isSome) :
    (Frames.growing blocks).touch mm addr = some mm := if_pos h

/-- Only the first page of a window can make an area grow. -/
theorem touchPages_growing (hlt : start + 0x200000 ≤ 2 ^ 64)
    (hfirst : (Frames.growing blocks).touch mm start = some mm')
    (hrest : ∀ k, 1 ≤ k → k < 512 → (mm'.mtreeLoad (start + k * 4096)).isSome) :
    touchPages (Frames.growing blocks) start 512 mm = some mm' := by
  have hpages : ∀ n < 512, touchPages (Frames.growing blocks) start (n + 1) mm = some mm' := by
    intro n
    induction n with
    | zero =>
        intro _
        rw [touchPages_succ, touchPages_zero, Option.bind_some, Nat.zero_mul, Nat.add_zero,
          Nat.mod_eq_of_lt (by omega)]
        exact hfirst
    | succ n ih =>
        intro hn
        rw [touchPages_succ, ih (by omega), Option.bind_some, Nat.mod_eq_of_lt (by omega)]
        exact growing_touch blocks (hrest (n + 1) (by omega) hn)
  exact hpages 511 (by decide)

/-- An area at 0x200000 grows by the page before it when its first window is copied. -/
theorem first_window_grows {d : VmInfo} (h : mm.areas = [⟨0x200000, stop, d⟩])
    (hstop : 0x400000 ≤ stop) :
    (mm.expandStack 0x1ff000).areas = [⟨0x1ff000, stop, d⟩]
      ∧ touchPages (Frames.growing blocks) 0x1ff000 512 mm = some (mm.expandStack 0x1ff000) := by
  have hareas : (mm.expandStack 0x1ff000).areas = [⟨0x1ff000, stop, d⟩] := by
    show Area.extendDown 0x1ff000 mm.areas = _
    rw [h, Area.extendDown, if_pos (by dsimp only; omega)]
    rfl
  refine ⟨hareas, touchPages_growing blocks (by decide) ?_ fun k h1 h512 => ?_⟩
  · have hout : ¬(mm.mtreeLoad 0x1ff000).isSome := fun hx => by
      have hlo : 0x200000 ≤ 0x1ff000 := (has_of_area h hx).1
      omega
    have hvma : (mm.findVma 0x1ff000).isSome := by
      unfold MmStruct.findVma Area.firstAfter
      rw [h, List.find?_cons_of_pos (by simp; omega)]
      rfl
    exact (if_neg hout).trans (if_pos hvma)
  · rw [mtreeLoad_of_area hareas (by dsimp only; omega) (by dsimp only; omega)]
    rfl

end

/-- `n` pages from 0x200000 on, with the frame of the same number behind each page; the
bytes of the first 2MB are 1, those of the second 2. -/
def framed (mm : MmStruct) (n : Nat) : Paged where
  toMmStruct := mm
  pte p := if 512 ≤ p ∧ p < 512 + n then some p else none
  direct f := some f
  phys f _ := UInt8.ofNat (f / 512)

theorem framed_fresh (mm : MmStruct) {n pfn : Nat} (h : 512 + n ≤ pfn) :
    (framed mm n).Fresh pfn := by
  refine fun k _ => ⟨fun p _ => ?_, rfl⟩
  show (if _ then some p else none) ≠ _
  split
  · intro heq
    have := Option.some.inj heq
    omega
  · simp

/-- The one window of an area that grows down begins with the area once it has grown, and the
program sees no difference. -/
theorem oneWindow_promoted_invisibly :
    ∃ s', promoteVma (Frames.growing [4096]) (framed oneWindow 512) = some (0, s')
      ∧ oneWindow.remaps (Frames.growing [4096]) = [⟨0x1ff000, 0x1ff000⟩]
      ∧ Invisible (framed oneWindow 512) s' := by
  obtain ⟨hareas, htouch⟩ := first_window_grows [4096] oneWindow_areas (by decide)
  have hload := mtreeLoad_of_area hareas (Nat.le_refl 0x1ff000) (by decide)
  have halloc : (Frames.growing [4096]).alloc (framed oneWindow 512) = some 4096 :=
    growing_alloc [] (framed_fresh oneWindow (by decide))
  have hwindows : oneWindow.windows = [⟨0x3ff000, 0x1ff000⟩] :=
    windows_of_area oneWindow_areas (by decide) (by decide)
  have hremaps : oneWindow.remaps (Frames.growing [4096]) = [⟨0x1ff000, 0x1ff000⟩] := by
    rw [MmStruct.remaps, hwindows, remapsOf, remapAt_of_touch htouch hload]
    rfl
  obtain ⟨s₁, hw⟩ : ∃ s₁, promoteWindow (Frames.growing [4096]) (framed oneWindow 512) 0x1ff000
      = some (true, s₁) :=
    ⟨_, promoteWindow_eq halloc htouch (findVma_of_mtreeLoad hload) fun _ _ _ => rfl⟩
  have hret : promoteVma (Frames.growing [4096]) (framed oneWindow 512) = some (0, s₁) := by
    rw [promoteVma_eq]
    show promoteAll _ oneWindow.windows _ = _
    rw [hwindows, promoteAll_cons _ hw, promoteAll]
  obtain ⟨hiff, hself⟩ := promoteVma_invisible_iff (Frames.growing [4096]) hret
  have hremaps' : (framed oneWindow 512).remaps (Frames.growing [4096])
      = [⟨0x1ff000, 0x1ff000⟩] := hremaps
  rw [hremaps'] at hiff hself
  refine ⟨s₁, hret, hremaps, hiff.mpr fun x hx => ?_⟩
  rw [hself.mpr (by simp) x hx, Paged.seen, if_pos hx]

/-- An area of 1024 pages. -/
def twoWindows : MmStruct where
  areas := [⟨0x200000, 0x600000, plainInfo⟩]
  sorted := by decide
  wf := by decide

/-- The second window of an area that grows down is mapped over the first: the call returns 0,
and the first page of the area shows what the page 2MB further on showed. -/
theorem twoWindows_promoted_visibly :
    ∃ s', promoteVma (Frames.growing [4096, 8192]) (framed twoWindows 1024) = some (0, s')
      ∧ (framed twoWindows 1024).byte 0x200000 = 1 ∧ s'.byte 0x200000 = 2
      ∧ ¬Invisible (framed twoWindows 1024) s' := by
  have hareas₀ : twoWindows.areas = [⟨512 * 4096, (512 + 1024) * 4096, plainInfo⟩] := rfl
  obtain ⟨hareas, htouch⟩ := first_window_grows [4096, 8192] hareas₀ (by decide)
  have hload := mtreeLoad_of_area hareas (Nat.le_refl 0x1ff000) (by decide)
  have hfresh : ∀ pfn, 1536 ≤ pfn → (framed twoWindows 1024).Fresh pfn :=
    fun pfn h => framed_fresh twoWindows h
  have halloc : (Frames.growing [4096, 8192]).alloc (framed twoWindows 1024) = some 4096 :=
    growing_alloc [8192] (hfresh 4096 (by decide))
  have hwindows : twoWindows.windows = [⟨0x3ff000, 0x1ff000⟩, ⟨0x5ff000, 0x3ff000⟩] :=
    windows_of_area hareas₀ (by decide) (by decide)
  -- the first window uses the first block
  obtain ⟨s₁, hw₁, hmm₁, hnot, hfresh₁⟩ : ∃ s₁,
      promoteWindow (Frames.growing [4096, 8192]) (framed twoWindows 1024) 0x1ff000
        = some (true, s₁) ∧ s₁.toMmStruct = twoWindows.expandStack 0x1ff000
      ∧ ¬s₁.Fresh 4096 ∧ s₁.Fresh 8192 :=
    ⟨_, promoteWindow_eq halloc htouch (findVma_of_mtreeLoad hload) fun _ _ _ => rfl,
      promoted_mm .., promoted_not_fresh (by decide),
      promoted_fresh (by decide) (by decide) (faulted_fresh _ (hfresh 4096 (by decide)))
        (faulted_fresh _ (hfresh 8192 (by decide))) (by decide)⟩
  -- the second window lies in the area, which begins where the first window did
  rw [← hmm₁] at hareas
  have hload₂ := mtreeLoad_of_area hareas (by decide : 0x1ff000 ≤ 0x3ff000) (by decide)
  have htouch₂ : touchPages (Frames.growing [4096, 8192]) 0x3ff000 512 s₁.toMmStruct
      = some s₁.toMmStruct := by
    refine touchPages_growing _ (by decide) (growing_touch _ (by rw [hload₂]; rfl))
      fun k h1 h512 => ?_
    rw [mtreeLoad_of_area hareas (by dsimp only; omega) (by dsimp only; omega)]
    rfl
  have halloc₂ : (Frames.growing [4096, 8192]).alloc s₁ = some 8192 :=
    (growing_alloc_next [8192] hnot).trans (growing_alloc [] hfresh₁)
  obtain ⟨s₂, hw₂⟩ : ∃ s₂, promoteWindow (Frames.growing [4096, 8192]) s₁ 0x3ff000
      = some (true, s₂) :=
    ⟨_, promoteWindow_eq halloc₂ htouch₂ (findVma_of_mtreeLoad hload₂) fun _ _ _ => rfl⟩
  have hret : promoteVma (Frames.growing [4096, 8192]) (framed twoWindows 1024)
      = some (0, s₂) := by
    rw [promoteVma_eq]
    show promoteAll _ twoWindows.windows _ = _
    rw [hwindows, promoteAll_cons _ hw₁, promoteAll_cons _ hw₂, promoteAll]
  have hremaps : twoWindows.remaps (Frames.growing [4096, 8192])
      = [⟨0x1ff000, 0x1ff000⟩, ⟨0x3ff000, 0x1ff000⟩] := by
    rw [MmStruct.remaps, hwindows, remapsOf, remapAt_of_touch htouch hload]
    dsimp only
    rw [← hmm₁, remapsOf, remapAt_of_touch htouch₂ hload₂]
    rfl
  obtain ⟨hkeep, hseen⟩ := promoteVma_seen hret
  have hmapped : ((framed twoWindows 1024).mtreeLoad 0x200000).isSome := by decide
  have hbefore : (framed twoWindows 1024).byte 0x200000 = 1 := by decide
  have hafter : s₂.byte 0x200000 = 2 := by
    have hshows : s₂.seen 0x200000 = (framed twoWindows 1024).seen
        (origin (twoWindows.remaps (Frames.growing [4096, 8192])) 0x200000) := hseen 0x200000
    rw [hremaps, Paged.seen, if_pos (hkeep _ hmapped)] at hshows
    rw [hshows]
    decide
  refine ⟨s₂, hret, hbefore, hafter, fun hinv => ?_⟩
  have hsame := (hinv 0x200000 hmapped).2
  rw [hbefore, hafter] at hsame
  exact absurd hsame (by decide)

end LinuxDrivers.Vma
