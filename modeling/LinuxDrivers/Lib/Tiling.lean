import LinuxDrivers.Lib.Mem

/-!
# Spans and tilings

A loop that works through a buffer piece by piece leaves a list of spans behind. How
often it went over a cell is the number of spans that hold the cell (`coverage`), and
that number is all there is to know about a cell that was transformed in place each time
(`Mem.mapSpans_apply`).

`Tiles` is the case where nothing went wrong: the spans lie end to end and fill a range.
Then every cell of the range is covered once, every other cell not at all, and the
passes over the spans are one pass over the range.
-/

namespace LinuxDrivers

/-- The cells of a span, given by its start and its length. -/
def inSpan (p : Nat × Nat) (x : Nat) : Prop := p.1 ≤ x ∧ x < p.1 + p.2

instance (p : Nat × Nat) (x : Nat) : Decidable (inSpan p x) :=
  inferInstanceAs (Decidable (_ ∧ _))

/-- How many of the spans hold `x`. -/
def coverage (ps : List (Nat × Nat)) (x : Nat) : Nat := ps.countP fun p => inSpan p x

@[simp] theorem coverage_nil (x : Nat) : coverage [] x = 0 := rfl

theorem coverage_cons (p : Nat × Nat) (ps : List (Nat × Nat)) (x : Nat) :
    coverage (p :: ps) x = coverage ps x + if inSpan p x then 1 else 0 := by
  simp [coverage, List.countP_cons]

/-- A cell outside every span is not covered. -/
theorem coverage_eq_zero {ps : List (Nat × Nat)} {x : Nat} (h : ∀ p ∈ ps, ¬inSpan p x) :
    coverage ps x = 0 := by
  rw [coverage, List.countP_eq_zero]
  intro p hp
  simpa using h p hp

/-! ## Transforming span after span -/

namespace Mem

variable {α : Type}

/-- Apply `f` to the cells of each span in turn. -/
def mapSpans (f : α → α) : List (Nat × Nat) → Mem α → Mem α
  | [], m => m
  | p :: ps, m => mapSpans f ps (mapRange f p.1 p.2 m)

theorem mapSpans_append (f : α → α) (ps qs : List (Nat × Nat)) (m : Mem α) :
    mapSpans f (ps ++ qs) m = mapSpans f qs (mapSpans f ps m) := by
  induction ps generalizing m with
  | nil => rfl
  | cons p ps ih => exact ih (mapRange f p.1 p.2 m)

/-- A cell is transformed as many times as it is covered. -/
theorem mapSpans_apply (f : α → α) (ps : List (Nat × Nat)) (m : Mem α) (x : Nat) :
    mapSpans f ps m x = f^[coverage ps x] (m x) := by
  induction ps generalizing m with
  | nil => rfl
  | cons p ps ih =>
      rw [mapSpans, ih, coverage_cons]
      by_cases hx : inSpan p x
      · rw [mapRange_of_mem f m hx, if_pos hx]
        rfl
      · rw [mapRange_of_not_mem f m hx, if_neg hx, Nat.add_zero]

end Mem

/-! ## Tilings -/

/-- The spans lie end to end, in order, from `a` up to `b`. -/
inductive Tiles : Nat → Nat → List (Nat × Nat) → Prop where
  | nil (a : Nat) : Tiles a a []
  | cons (a n : Nat) {b : Nat} {ps : List (Nat × Nat)} :
      Tiles (a + n) b ps → Tiles a b ((a, n) :: ps)

theorem Tiles.le {a b : Nat} {ps : List (Nat × Nat)} (h : Tiles a b ps) : a ≤ b := by
  induction h with
  | nil => exact Nat.le_refl _
  | cons a n _ ih => omega

/-- Exactly the cells of the range are covered, each of them once. -/
theorem Tiles.coverage_eq {a b : Nat} {ps : List (Nat × Nat)} (h : Tiles a b ps) (x : Nat) :
    coverage ps x = if a ≤ x ∧ x < b then 1 else 0 := by
  induction h with
  | nil a => rw [coverage_nil, if_neg (by omega)]
  | cons a n hrest ih =>
      have hle := hrest.le
      rw [coverage_cons, ih]
      -- the first span ends where the rest begins, so no cell is in both
      by_cases hx : inSpan (a, n) x
      · obtain ⟨hlo, hhi⟩ := hx
        dsimp only at hlo hhi
        rw [if_neg (by omega), if_pos ⟨hlo, hhi⟩, if_pos ⟨hlo, by omega⟩]
      · have hout : ¬(a ≤ x ∧ x < a + n) := hx
        rw [if_neg hx, Nat.add_zero]
        exact if_congr (by omega) rfl rfl

/-- Passes over a tiling make one pass over the range. -/
theorem Tiles.mapSpans_eq {α : Type} {a b : Nat} {ps : List (Nat × Nat)} (h : Tiles a b ps)
    (f : α → α) (m : Mem α) : Mem.mapSpans f ps m = Mem.mapRange f a (b - a) m := by
  have hle := h.le
  funext x
  rw [Mem.mapSpans_apply, h.coverage_eq]
  by_cases hx : a ≤ x ∧ x < b
  · rw [if_pos hx, Mem.mapRange_of_mem f m ⟨hx.1, by omega⟩]
    rfl
  · rw [if_neg hx, Mem.mapRange_of_not_mem f m (by omega)]
    rfl

end LinuxDrivers
