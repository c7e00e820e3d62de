import LinuxDrivers.Lib.CountOff
import LinuxDrivers.Vma.Promote

/-!
# The windows promotion selects

Each maximal run of mapped pages should be promoted in as many windows of 512 pages as it
holds, side by side. The walk does count that many (`windowsIn_eq`). But it computes the
start of a window as 2MB *before* the page that completes the count, and that page is part
of the window: every window begins one page too low, and the first of a run begins before
the run.

The walk itself does not depend on what is done with the windows, since a promotion maps
nothing above the page that completed the count. So it is a list of windows, promoted one
after another (`promoteVma_eq`).
-/

namespace LinuxDrivers.Vma

variable (F : Frames)

/-! ## The walk as a list of windows -/

/-- A window: the page that completed the count, and `start_addr`. -/
structure Window where
  last : Nat
  startAddr : Nat
  deriving DecidableEq

/-- The window selected when the page at `i` completes a count. -/
def windowAt (i : Nat) : Window := ⟨i, (i + 2 ^ 64 - 0x200000) % 2 ^ 64⟩

/-- The windows the walk selects from page `i` on, with `j` pages counted. -/
def scanWindows (mm : MmStruct) : Nat → Nat → Nat → List Window
  | 0, _, _ => []
  | fuel + 1, i, j =>
    if i > 0x7fffffffffff then []
    else if (mm.mtreeLoad i).isSome then
      if j + 1 = 512 then windowAt i :: scanWindows mm fuel (i + 4096) 0
      else scanWindows mm fuel (i + 4096) (j + 1)
    else scanWindows mm fuel (i + 4096) 0

def MmStruct.windows (mm : MmStruct) : List Window := scanWindows mm promoteFuel 0 0

/-- The windows promoted one after another, up to the first that fails. -/
def promoteAll : List Window → Paged → Option (Int × Paged)
  | [], s => some (0, s)
  | w :: ws, s =>
    match promoteWindow F s w.startAddr with
    | none => none
    | some (false, s') => some (-11, s')
    | some (true, s') => promoteAll ws s'

theorem promoteAll_cons {s s' : Paged} {last startAddr : Nat}
    (h : promoteWindow F s startAddr = some (true, s')) (ws : List Window) :
    promoteAll F (⟨last, startAddr⟩ :: ws) s = promoteAll F ws s' := by
  rw [promoteAll, h]

theorem windowAt_startAddr (i : Nat) :
    (windowAt i).startAddr = (i + 2 ^ 64 - 0x200000) % 2 ^ 64 := rfl

/-- A promotion maps nothing above the page that completed the count. -/
theorem promoteWindow_above {s s' : Paged} {i : Nat} (hi : (s.mtreeLoad i).isSome)
    (h : promoteWindow F s (windowAt i).startAddr = some (true, s')) {x : Nat} (hx : i ≤ x) :
    (s'.mtreeLoad x).isSome ↔ (s.mtreeLoad x).isSome := by
  obtain ⟨pfn, mm, vma, -, htouch, -, rfl⟩ := promoteWindow_true h
  rw [promoted_mm]
  show (mm.mtreeLoad x).isSome ↔ _
  have hend : i < 0x7ffffffff000 := lt_taskSize_of_mtreeLoad hi
  have hlt : (i + 2 ^ 64 - 0x200000) % 2 ^ 64 < 0x7ffffffff000 :=
    touchPages_start_lt (Nat.mod_lt _ (by decide)) htouch
  refine touchPages_above hi (fun k hk => ?_) htouch hx
  rw [windowAt_startAddr]
  omega

/-- The windows depend on which pages are mapped from `i` on, and on nothing else. -/
theorem scanWindows_congr {mm mm' : MmStruct} (fuel : Nat) : ∀ {i : Nat} (j : Nat),
    (∀ x, i ≤ x → ((mm.mtreeLoad x).isSome ↔ (mm'.mtreeLoad x).isSome)) →
    scanWindows mm fuel i j = scanWindows mm' fuel i j := by
  induction fuel with
  | zero => intro i j _; rfl
  | succ fuel ih =>
      intro i j h
      have hrest : ∀ j', scanWindows mm fuel (i + 4096) j' = scanWindows mm' fuel (i + 4096) j' :=
        fun j' => ih j' fun x hx => h x (by omega)
      have hi : (mm.mtreeLoad i).isSome = (mm'.mtreeLoad i).isSome :=
        Bool.eq_iff_iff.mpr (h i (Nat.le_refl i))
      rw [scanWindows, scanWindows, hi, hrest, hrest]

theorem promoteLoop_eq (fuel i j : Nat) (s : Paged) :
    promoteLoop F fuel i j s = promoteAll F (scanWindows s.toMmStruct fuel i j) s := by
  induction fuel generalizing i j s with
  | zero => rfl
  | succ fuel ih =>
      rw [promoteLoop, scanWindows]
      split
      · rfl
      · split
        · rename_i hi
          split
          · rw [promoteAll, ← windowAt_startAddr]
            cases hw : promoteWindow F s (windowAt i).startAddr with
            | none => rfl
            | some r =>
                obtain ⟨ok, s'⟩ := r
                cases ok with
                | false => rfl
                | true =>
                    have habove := fun x (hx : i + 4096 ≤ x) =>
                      promoteWindow_above F hi hw (by omega : i ≤ x)
                    dsimp only
                    rw [ih, scanWindows_congr fuel 0 habove]
          · exact ih (i + 4096) (j + 1) s
        · exact ih (i + 4096) 0 s

/-- A call promotes the windows of its areas. -/
theorem promoteVma_eq (s : Paged) : promoteVma F s = promoteAll F s.windows s :=
  promoteLoop_eq F promoteFuel 0 0 s

/-! ## The windows of a run -/

/-- Page number `p` is mapped. -/
def MmStruct.used (mm : MmStruct) (p : Nat) : Bool := (mm.mtreeLoad (p * 4096)).isSome

/-- How many pages the walk looks at. -/
def userPages : Nat := 2 ^ 35

theorem lt_userPages_of_used {mm : MmStruct} {p : Nat} (h : mm.used p = true) : p < userPages := by
  have hlt : p * 4096 < 0x7ffffffff000 := lt_taskSize_of_mtreeLoad h
  have hpages : userPages = 0x800000000 := by decide
  omega

section

variable {mm : MmStruct} {r len : Nat}

/-- The walk counts off the mapped pages. -/
theorem scanWindows_eq (mm : MmStruct) (n : Nat) : ∀ (fuel p j : Nat),
    p + n = userPages → n ≤ fuel → scanWindows mm fuel (p * 4096) j
      = (countOff mm.used 512 n p j).map fun q => windowAt (q * 4096) := by
  have hpages : userPages = 0x800000000 := by decide
  induction n with
  | zero =>
      intro fuel p j hp _
      cases fuel with
      | zero => rfl
      | succ fuel => rw [scanWindows, if_pos (by omega)]; rfl
  | succ n ih =>
      intro fuel p j hp hfuel
      obtain ⟨fuel, rfl⟩ : ∃ f, fuel = f + 1 := ⟨fuel - 1, by omega⟩
      have hnext : p * 4096 + 4096 = (p + 1) * 4096 := by omega
      have hrest : ∀ j', scanWindows mm fuel (p * 4096 + 4096) j'
          = (countOff mm.used 512 n (p + 1) j').map fun q => windowAt (q * 4096) := by
        intro j'
        rw [hnext]
        exact ih fuel (p + 1) j' (by omega) (by omega)
      have hused : (mm.mtreeLoad (p * 4096)).isSome = mm.used p := rfl
      rw [scanWindows, countOff, if_neg (by omega), hrest, hrest, hused]
      by_cases hmapped : mm.used p = true
      · rw [if_pos hmapped, if_pos hmapped]
        split
        · rfl
        · rfl
      · rw [if_neg hmapped, if_neg hmapped]

theorem windows_eq (mm : MmStruct) :
    mm.windows = (countOff mm.used 512 userPages 0 0).map fun q => windowAt (q * 4096) := by
  have hall := scanWindows_eq mm userPages promoteFuel 0 0 (Nat.zero_add _) (by decide)
  rw [Nat.zero_mul] at hall
  exact hall

/-- The windows completed in the `len` pages from page number `r` on. -/
def MmStruct.windowsIn (mm : MmStruct) (r len : Nat) : List Window :=
  mm.windows.filter fun w => r * 4096 ≤ w.last ∧ w.last < (r + len) * 4096

/-- **A maximal run gets one window for each 512 pages**, and each of them starts 512 pages
before the page that completes its count. -/
theorem windowsIn_eq (h : MaximalRun mm.used r len) :
    mm.windowsIn r len
      = (List.range (len / 512)).map fun k => windowAt ((r + (k + 1) * 512 - 1) * 4096) := by
  have hbound : r + len ≤ userPages := by
    have hpos := h.pos
    have hlast := lt_userPages_of_used (h.run (r + len - 1) (by omega) (by omega))
    omega
  have hpred : ((fun w : Window => decide (r * 4096 ≤ w.last ∧ w.last < (r + len) * 4096)) ∘
      fun q => windowAt (q * 4096)) = fun q => decide (r ≤ q ∧ q < r + len) := by
    funext q
    refine decide_eq_decide.mpr ?_
    show r * 4096 ≤ q * 4096 ∧ q * 4096 < (r + len) * 4096 ↔ _
    omega
  rw [MmStruct.windowsIn, windows_eq, List.filter_map, hpred, countOff_in_run (by decide) h hbound,
    List.map_map]
  rfl

end

/-! ## What the windows should be -/

/-- The pages of a window. -/
def Window.Covers (w : Window) (x : Nat) : Prop := w.startAddr ≤ x ∧ x < w.startAddr + 0x200000

/-- Every maximal run has as many windows as it holds, all of them inside it, and no two
windows overlap. -/
structure WindowsTile (mm : MmStruct) : Prop where
  count : ∀ r len, MaximalRun mm.used r len → (mm.windowsIn r len).length = len / 512
  disjoint : mm.windows.Pairwise fun w w' => ∀ x, ¬(w.Covers x ∧ w'.Covers x)
  inside : ∀ r len, MaximalRun mm.used r len → ∀ w ∈ mm.windowsIn r len, ∀ x, w.Covers x →
    r * 4096 ≤ x ∧ x < (r + len) * 4096

/-- 512 mapped pages in a row. -/
def Run (mm : MmStruct) (a : Nat) : Prop :=
  a % 4096 = 0 ∧ ∀ k < 512, (mm.mtreeLoad (a + k * 4096)).isSome

section

variable {mm : MmStruct} {r len : Nat}

/-- 512 mapped pages in a row, by page numbers. -/
theorem run_iff {p : Nat} : Run mm (p * 4096) ↔ FirstFit.Run mm.used p 512 := by
  constructor
  · rintro ⟨-, h⟩ q hlo hhi
    have hq := h (q - p) (by omega)
    have heq : p * 4096 + (q - p) * 4096 = q * 4096 := by omega
    rw [heq] at hq
    exact hq
  · intro h
    refine ⟨by omega, fun k hk => ?_⟩
    have heq : p * 4096 + k * 4096 = (p + k) * 4096 := by omega
    rw [heq]
    exact h (p + k) (by omega) (by omega)

/-- The first window of a run that holds one begins outside the run. -/
theorem first_window_outside (h : MaximalRun mm.used r len) (hlen : 512 ≤ len) :
    ∃ w ∈ mm.windowsIn r len, w.Covers w.startAddr
      ∧ ¬(r * 4096 ≤ w.startAddr ∧ w.startAddr < (r + len) * 4096) := by
  have hlast := lt_userPages_of_used (h.run (r + len - 1) (by omega) (by omega))
  have hpages : userPages = 0x800000000 := by decide
  refine ⟨windowAt ((r + 511) * 4096), ?_, ⟨Nat.le_refl _, by omega⟩, ?_⟩
  · rw [windowsIn_eq h]
    exact List.mem_map.mpr ⟨0, List.mem_range.mpr (by omega), rfl⟩
  · rw [windowAt_startAddr]
    omega

theorem not_run_of_windowsTile (h : WindowsTile mm) (a : Nat) : ¬Run mm a := by
  intro hrun
  obtain ⟨p, rfl⟩ : ∃ p, a = p * 4096 := ⟨a / 4096, by have := hrun.1; omega⟩
  obtain ⟨r, len, hmax, hlo, hhi⟩ := exists_maximalRun
    (fun _ => lt_userPages_of_used) (by decide : 0 < 512) (run_iff.mp hrun)
  obtain ⟨w, hw, hcovers, hout⟩ := first_window_outside hmax (by omega)
  exact hout (h.inside r len hmax w hw _ hcovers)

/-- Where no run holds a window, none is selected. -/
theorem windows_eq_nil (h : ∀ a, ¬Run mm a) : mm.windows = [] := by
  refine List.eq_nil_iff_forall_not_mem.mpr fun w hw => ?_
  have hw' := hw
  rw [windows_eq] at hw'
  obtain ⟨q, hq, rfl⟩ := List.mem_map.mp hw'
  obtain ⟨-, -, hused⟩ := mem_countOff hq
  -- the page that completes the count lies in a maximal run
  have hone : FirstFit.Run mm.used q 1 := fun x hlo hhi => (by omega : q = x) ▸ hused
  obtain ⟨r, len, hmax, hlo, hhi⟩ :=
    exists_maximalRun (fun _ => lt_userPages_of_used) (by decide) hone
  have hshort : len < 512 := by
    by_contra hlong
    exact h _ (run_iff.mpr fun x hx hx' => hmax.run x hx (by omega))
  have hin : windowAt (q * 4096) ∈ mm.windowsIn r len := by
    refine List.mem_filter.mpr ⟨hw, decide_eq_true ?_⟩
    show r * 4096 ≤ q * 4096 ∧ q * 4096 < (r + len) * 4096
    omega
  rw [windowsIn_eq hmax, Nat.div_eq_of_lt hshort] at hin
  exact absurd hin List.not_mem_nil

theorem windowsTile_of_not_run (h : ∀ a, ¬Run mm a) : WindowsTile mm where
  count r len hmax := by rw [windowsIn_eq hmax, List.length_map, List.length_range]
  disjoint := by
    rw [windows_eq_nil h]
    exact List.Pairwise.nil
  inside r len _ w hw := by
    rw [MmStruct.windowsIn, windows_eq_nil h] at hw
    exact absurd hw List.not_mem_nil

end

/--
**When the windows tile the mapped runs.**

For every address space: a call promotes the windows of the walk one after another, and
they tile the maximal runs of mapped pages exactly if there is nothing to promote, no 512
mapped pages in a row.
-/
theorem promotion_windows_tile_iff (s : Paged) :
    promoteVma F s = promoteAll F s.windows s
      ∧ (WindowsTile s.toMmStruct ↔ ∀ a, ¬Run s.toMmStruct a) :=
  ⟨promoteVma_eq F s, not_run_of_windowsTile, windowsTile_of_not_run⟩

/-! ## A single area -/

theorem mtreeLoad_of_area {mm : MmStruct} {v : VmAreaStruct} (h : mm.areas = [v]) {x : Nat}
    (hlo : v.start ≤ x) (hhi : x < v.stop) : mm.mtreeLoad x = some v :=
  (Area.lookup_eq_some_iff mm.sorted).mpr ⟨h ▸ List.mem_singleton_self v, hlo, hhi⟩

theorem has_of_area {mm : MmStruct} {v : VmAreaStruct} (h : mm.areas = [v]) {x : Nat}
    (hx : (mm.mtreeLoad x).isSome) : v.start ≤ x ∧ x < v.stop := by
  obtain ⟨u, hu, hhas⟩ := Area.isSome_lookup_iff.mp hx
  rw [h] at hu
  obtain rfl := List.mem_singleton.mp hu
  exact hhas

section

variable {mm : MmStruct} {r len : Nat} {d : VmInfo}

/-- The pages of an address space with a single area are one run. -/
theorem area_maximal (h : mm.areas = [⟨r * 4096, (r + len) * 4096, d⟩]) (hr : 0 < r)
    (hlen : 0 < len) : MaximalRun mm.used r len where
  pos := hlen
  run p hlo hhi := by
    unfold MmStruct.used
    rw [mtreeLoad_of_area h (by dsimp only; omega) (by dsimp only; omega)]
    rfl
  before := by
    refine Or.inr (Bool.eq_false_iff.mpr fun hused => ?_)
    have hin : r * 4096 ≤ (r - 1) * 4096 := (has_of_area h hused).1
    omega
  after := by
    refine Bool.eq_false_iff.mpr fun hused => ?_
    have hin : (r + len) * 4096 < (r + len) * 4096 := (has_of_area h hused).2
    omega

theorem windows_of_area (h : mm.areas = [⟨r * 4096, (r + len) * 4096, d⟩]) (hr : 0 < r)
    (hlen : 0 < len) : mm.windows
      = (List.range (len / 512)).map fun k => windowAt ((r + (k + 1) * 512 - 1) * 4096) := by
  rw [← windowsIn_eq (area_maximal h hr hlen), MmStruct.windowsIn]
  refine (List.filter_eq_self.mpr fun w hw => decide_eq_true ?_).symm
  rw [windows_eq] at hw
  obtain ⟨q, hq, rfl⟩ := List.mem_map.mp hw
  exact has_of_area h (mem_countOff hq).2.2

end

/-- An area of 512 pages. -/
def oneWindow : MmStruct where
  areas := [⟨0x200000, 0x400000, plainInfo⟩]
  sorted := by decide
  wf := by decide

theorem oneWindow_areas : oneWindow.areas = [⟨512 * 4096, (512 + 512) * 4096, plainInfo⟩] := rfl

theorem oneWindow_maximal : MaximalRun oneWindow.used 512 512 :=
  area_maximal oneWindow_areas (by decide) (by decide)

/-- The one window of the area begins with the page before the area. -/
theorem oneWindow_starts_low :
    oneWindow.windowsIn 512 512 = [⟨0x3ff000, 0x1ff000⟩] ∧ oneWindow.mtreeLoad 0x1ff000 = none
      ∧ ¬WindowsTile oneWindow := by
  refine ⟨?_, by decide, fun h => ?_⟩
  · rw [windowsIn_eq oneWindow_maximal]
    decide
  · exact not_run_of_windowsTile h _ (run_iff.mpr oneWindow_maximal.run)

end LinuxDrivers.Vma
