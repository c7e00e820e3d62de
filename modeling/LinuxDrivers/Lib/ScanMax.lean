import Mathlib

/-!
# Scanning for a largest element

A scan that keeps a candidate and replaces it by any element with a strictly larger
measure. It ends with the first element of largest measure, unless none exceeds the
measure it started from; then the candidate it started with comes out, whatever it was.
-/

namespace LinuxDrivers

variable {α β : Type} [LinearOrder β]

/-- The scan over `l`, from the candidate `m`; a candidate carries its measure. -/
def scanMax (f : α → β) (l : List α) (m : β × α) : β × α :=
  l.foldl (fun m x => if m.1 < f x then (f x, x) else m) m

/-- `y` is the first element of largest measure. -/
def FirstMax (f : α → β) (l : List α) (y : α) : Prop :=
  ∃ pre post, l = pre ++ y :: post ∧ (∀ x ∈ pre, f x < f y) ∧ ∀ x ∈ post, f x ≤ f y

theorem FirstMax.cons {f : α → β} {l : List α} {x y : α} (h : FirstMax f l y) (hx : f x < f y) :
    FirstMax f (x :: l) y := by
  obtain ⟨pre, post, rfl, hpre, hpost⟩ := h
  refine ⟨x :: pre, post, rfl, ?_, hpost⟩
  intro z hz
  rcases List.mem_cons.mp hz with rfl | hz
  · exact hx
  · exact hpre z hz

/-- The scan keeps its candidate, or ends with the first largest element. -/
theorem scanMax_cases (f : α → β) (l : List α) (m : β × α) :
    (scanMax f l m = m ∧ ∀ x ∈ l, f x ≤ m.1)
      ∨ ∃ y, scanMax f l m = (f y, y) ∧ m.1 < f y ∧ FirstMax f l y := by
  induction l generalizing m with
  | nil => exact Or.inl ⟨rfl, fun x hx => absurd hx List.not_mem_nil⟩
  | cons x l ih =>
      by_cases hx : m.1 < f x
      · have hstep : scanMax f (x :: l) m = scanMax f l (f x, x) :=
          congrArg (fun m' => scanMax f l m') (if_pos hx)
        rw [hstep]
        right
        rcases ih (f x, x) with ⟨hkeep, hle⟩ | ⟨y, hy, hlt, hfirst⟩
        · exact ⟨x, hkeep, hx, [], l, rfl, fun z hz => absurd hz List.not_mem_nil, hle⟩
        · exact ⟨y, hy, lt_trans hx hlt, hfirst.cons hlt⟩
      · have hstep : scanMax f (x :: l) m = scanMax f l m :=
          congrArg (fun m' => scanMax f l m') (if_neg hx)
        rw [hstep]
        rcases ih m with ⟨hkeep, hle⟩ | ⟨y, hy, hlt, hfirst⟩
        · refine Or.inl ⟨hkeep, fun z hz => ?_⟩
          rcases List.mem_cons.mp hz with rfl | hz
          · exact not_lt.mp hx
          · exact hle z hz
        · exact Or.inr ⟨y, hy, hlt, hfirst.cons (lt_of_le_of_lt (not_lt.mp hx) hlt)⟩

/-- Where all measures are equal the first largest element is the first. -/
theorem FirstMax.eq_head {c : β} {l : List α} {x y : α}
    (h : FirstMax (fun _ : α => c) (x :: l) y) : y = x := by
  obtain ⟨pre, post, heq, hpre, -⟩ := h
  cases pre with
  | nil => exact (List.cons.inj heq).1.symm
  | cons z pre => exact absurd (hpre z List.mem_cons_self) (lt_irrefl c)

end LinuxDrivers
