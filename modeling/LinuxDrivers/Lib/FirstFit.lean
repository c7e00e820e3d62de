import Mathlib

/-!
# First fit

Cells numbered from 0, each free or not, and a scan for `need` free ones in a row. The
scan looks at every cell once, from the lowest on, and keeps one number: how many free
cells it has just passed. That is enough to find the first place where `need` cells are
free, and, if it comes to the last cell without having stopped, to know that there is
none.
-/

namespace LinuxDrivers.FirstFit

variable (free : Nat → Bool)

/-- The `n` cells from `t` on are free. -/
def Run (t n : Nat) : Prop := ∀ i, t ≤ i → i < t + n → free i = true

/-- The scan at cell `i`, `j` free cells having been passed in a row; `last` is the last
cell there is. Yields where it stands at the end, and its count. -/
def scan (last need : Nat) : Nat → Nat → Nat → Nat × Nat
  | 0, i, j => (i, j)
  | fuel + 1, i, j =>
    if i > last then (i, j)
    else if free i then
      if j + 1 = need then (i, j + 1) else scan last need fuel (i + 1) (j + 1)
    else scan last need fuel (i + 1) 0

/-- `t` is the first place from `lo` on where `need` free cells are found. -/
structure First (lo last need t : Nat) : Prop where
  lower : lo ≤ t
  upper : t + need ≤ last + 1
  run : Run free t need
  least : ∀ t', lo ≤ t' → t' < t → ¬Run free t' need

/-- What a scan that began at `lo` has established when it comes to cell `i`. -/
structure Scanned (lo need i j : Nat) : Prop where
  short : j < need
  lower : lo + j ≤ i
  /-- The last `j` cells were free. -/
  run : Run free (i - j) j
  /-- Before those no place was found. -/
  before : ∀ t, lo ≤ t → t + j < i → ¬Run free t need

/-- What the end of a scan from `lo` means. -/
inductive Ended (lo last need : Nat) : Nat × Nat → Prop where
  | found {i t : Nat} (stopped : i + 1 = t + need) (first : First free lo last need t) :
      Ended lo last need (i, need)
  | exhausted {i j : Nat} (short : j ≠ need)
      (none : ∀ t, lo ≤ t → t + need ≤ last + 1 → ¬Run free t need) : Ended lo last need (i, j)

section

variable {free} {lo last need i j t : Nat}

theorem scanned_start (h : 0 < need) : Scanned free lo need lo 0 where
  short := h
  lower := Nat.le_refl lo
  run := fun k hlo hhi => by omega
  before := fun t hlo hlt => by omega

/-- With one more free cell the run is one longer. -/
theorem Scanned.run_succ (h : Scanned free lo need i j) (hi : free i = true) :
    Run free (i - j) (j + 1) := by
  intro k hlo hhi
  have hlower := h.lower
  by_cases hk : k = i
  · rw [hk]
    exact hi
  · exact h.run k hlo (by omega)

/-- A free cell that does not complete the run. -/
theorem Scanned.passed (h : Scanned free lo need i j) (hi : free i = true) (hneed : j + 1 ≠ need) :
    Scanned free lo need (i + 1) (j + 1) where
  short := by
    have hshort := h.short
    omega
  lower := by
    have hlower := h.lower
    omega
  run := by
    rw [Nat.add_sub_add_right]
    exact h.run_succ hi
  before := fun t hlo hlt => h.before t hlo (by omega)

/-- A cell that is taken: every place that was still open would have had to use it. -/
theorem Scanned.taken (h : Scanned free lo need i j) (hi : ¬free i = true) :
    Scanned free lo need (i + 1) 0 where
  short := Nat.zero_lt_of_lt h.short
  lower := by
    have hlower := h.lower
    omega
  run := fun k hlo hhi => by omega
  before := by
    intro t hlo hlt hrun
    have hshort := h.short
    by_cases hopen : t + j < i
    · exact h.before t hlo hopen hrun
    · exact hi (hrun i (by omega) (by omega))

/-- The free cell that completes the run. -/
theorem Scanned.first (h : Scanned free lo need i j) (hi : free i = true) (hlast : i ≤ last)
    (hneed : j + 1 = need) : First free lo last need (i - j) where
  lower := by
    have hlower := h.lower
    omega
  upper := by
    have hlower := h.lower
    omega
  run := hneed ▸ h.run_succ hi
  least := fun t hlo hlt => h.before t hlo (by omega)

/-- Behind the last cell no place is open any more. -/
theorem Scanned.none (h : Scanned free lo need i j) (hlast : last < i) (hlo : lo ≤ t)
    (hupper : t + need ≤ last + 1) : ¬Run free t need := by
  have hshort := h.short
  exact h.before t hlo (by omega)

/--
**The scan finds the first place that fits, or there is none.**

By induction on the number of cells it may still look at, which is enough to come to
the last one.
-/
theorem scan_ended (fuel : Nat) (h : Scanned free lo need i j) (hfuel : last < i + fuel) :
    Ended free lo last need (scan free last need fuel i j) := by
  induction fuel generalizing i j with
  | zero =>
      exact .exhausted (Nat.ne_of_lt h.short) fun t hlo hupper => h.none hfuel hlo hupper
  | succ fuel ih =>
      rw [scan]
      split
      · rename_i hlast
        exact .exhausted (Nat.ne_of_lt h.short) fun t hlo hupper => h.none hlast hlo hupper
      · rename_i hlast
        split
        · rename_i hi
          split
          · rename_i hneed
            have hlower := h.lower
            rw [hneed]
            exact .found (by omega) (h.first hi (Nat.le_of_not_lt hlast) hneed)
          · rename_i hneed
            exact ih (h.passed hi hneed) (by omega)
        · rename_i hi
          exact ih (h.taken hi) (by omega)

/-- The cell before the first place that fits is taken, or out of bounds. -/
theorem First.taken_before (h : First free lo last need (t + 1)) (hlo : lo ≤ t) :
    ¬free t = true := by
  intro hfree
  refine h.least t hlo (Nat.lt_succ_self t) fun i hti hit => ?_
  by_cases hi : i = t
  · rw [hi]
    exact hfree
  · exact h.run i (by omega) (by omega)

end

end LinuxDrivers.FirstFit
