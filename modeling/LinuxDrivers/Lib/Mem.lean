import Mathlib

/-!
# Memories

A memory is a total function from addresses to cells. Everything that moves
data about is one of three operations: read a run of cells out, write a run of
cells in, or apply a function to a run of cells in place.

Copying a buffer out, transforming it, and copying it back is the same as
transforming the run in place (`write_map_read`). That is what makes a request
one statement about the caller's buffer.
-/

namespace LinuxDrivers

/-- A memory with cells of type `α`. -/
abbrev Mem (α : Type) := Nat → α

namespace Mem

variable {α : Type}

/-- The `n` cells from `a` on. -/
def read (m : Mem α) (a n : Nat) : List α := (List.range' a n).map m

/-- Replace the cells from `a` on by `bs`. -/
def write (m : Mem α) (a : Nat) (bs : List α) : Mem α :=
  fun x => if a ≤ x then (bs[x - a]?).getD (m x) else m x

/-- Apply `f` to the `n` cells from `a` on. -/
def mapRange (f : α → α) (a n : Nat) (m : Mem α) : Mem α :=
  fun x => if a ≤ x ∧ x < a + n then f (m x) else m x

@[simp] theorem length_read (m : Mem α) (a n : Nat) : (m.read a n).length = n := by
  simp [read]

theorem getElem?_read (m : Mem α) {a n i : Nat} (h : i < n) :
    (m.read a n)[i]? = some (m (a + i)) := by
  simp [read, List.getElem?_range' h]

theorem write_of_lt (m : Mem α) {a x : Nat} (bs : List α) (h : x < a) : m.write a bs x = m x := by
  rw [write, if_neg (by omega)]

theorem write_of_ge (m : Mem α) {a x : Nat} {bs : List α} (h : a + bs.length ≤ x) :
    m.write a bs x = m x := by
  rw [write, if_pos (by omega), List.getElem?_eq_none (by omega)]
  rfl

theorem write_of_not_mem (m : Mem α) {a x : Nat} {bs : List α}
    (h : ¬(a ≤ x ∧ x < a + bs.length)) : m.write a bs x = m x := by
  rcases Nat.lt_or_ge x a with hlt | hge
  · exact write_of_lt m bs hlt
  · exact write_of_ge m (by omega)

theorem write_add (m : Mem α) {a i : Nat} {bs : List α} {b : α} (h : bs[i]? = some b) :
    m.write a bs (a + i) = b := by
  rw [write, if_pos (by omega), Nat.add_sub_cancel_left, h]
  rfl

@[simp] theorem write_nil (m : Mem α) (a : Nat) : m.write a [] = m := by
  funext x
  exact write_of_not_mem m (by simp)

/-- What was written is what is read back. -/
theorem read_write_self (m : Mem α) (a : Nat) (bs : List α) :
    (m.write a bs).read a bs.length = bs := by
  refine List.ext_getElem? (fun i => ?_)
  rcases Nat.lt_or_ge i bs.length with h | h
  · rw [getElem?_read _ h, write_add m (List.getElem?_eq_getElem h), List.getElem?_eq_getElem h]
  · rw [List.getElem?_eq_none (by simpa using h), List.getElem?_eq_none h]

theorem mapRange_of_mem (f : α → α) (m : Mem α) {a n x : Nat} (h : a ≤ x ∧ x < a + n) :
    mapRange f a n m x = f (m x) := if_pos h

theorem mapRange_of_not_mem (f : α → α) (m : Mem α) {a n x : Nat} (h : ¬(a ≤ x ∧ x < a + n)) :
    mapRange f a n m x = m x := if_neg h

theorem read_mapRange (f : α → α) (m : Mem α) (a n : Nat) :
    (mapRange f a n m).read a n = (m.read a n).map f := by
  refine List.ext_getElem? (fun i => ?_)
  rcases Nat.lt_or_ge i n with h | h
  · rw [getElem?_read _ h, List.getElem?_map, getElem?_read _ h,
      mapRange_of_mem f m ⟨by omega, by omega⟩]
    rfl
  · rw [List.getElem?_eq_none (by simpa using h), List.getElem?_eq_none (by simpa using h)]

/-- Read a run, transform it, write it back: the run is transformed in place. -/
theorem write_map_read (f : α → α) (m : Mem α) (a n : Nat) :
    m.write a ((m.read a n).map f) = mapRange f a n m := by
  funext x
  by_cases h : a ≤ x ∧ x < a + n
  · obtain ⟨i, rfl⟩ := Nat.exists_eq_add_of_le h.1
    have hi : i < n := by omega
    rw [write_add m (by rw [List.getElem?_map, getElem?_read m hi]; rfl), mapRange_of_mem f m h]
  · rw [write_of_not_mem m (by simpa using h), mapRange_of_not_mem f m h]

/-- Two passes over the same run compose. -/
theorem mapRange_mapRange_self (f g : α → α) (m : Mem α) (a n : Nat) :
    mapRange g a n (mapRange f a n m) = mapRange (g ∘ f) a n m := by
  funext x
  by_cases h : a ≤ x ∧ x < a + n
  · rw [mapRange_of_mem g _ h, mapRange_of_mem f m h, mapRange_of_mem _ m h]
    rfl
  · rw [mapRange_of_not_mem g _ h, mapRange_of_not_mem f m h, mapRange_of_not_mem _ m h]

/-- A pass leaves its run as it was exactly when it fixes every cell of it. -/
theorem read_mapRange_eq_iff (f : α → α) (m : Mem α) (a n : Nat) :
    (mapRange f a n m).read a n = m.read a n ↔ ∀ i < n, f (m (a + i)) = m (a + i) := by
  rw [read_mapRange]
  constructor
  · intro h i hi
    have h' := congrArg (fun l => l[i]?) h
    simpa only [List.getElem?_map, getElem?_read m hi, Option.map_some, Option.some.injEq] using h'
  · intro h
    refine List.ext_getElem? (fun i => ?_)
    rcases Nat.lt_or_ge i n with hi | hi
    · rw [List.getElem?_map, getElem?_read m hi, Option.map_some, h i hi]
    · rw [List.getElem?_eq_none (by simpa using hi), List.getElem?_eq_none (by simpa using hi)]

/-- Writing the same once more changes nothing. -/
theorem write_write_self (m : Mem α) (a : Nat) (bs : List α) :
    (m.write a bs).write a bs = m.write a bs := by
  funext x
  by_cases hx : a ≤ x ∧ x < a + bs.length
  · obtain ⟨i, rfl⟩ : ∃ i, x = a + i := ⟨x - a, by omega⟩
    have hget : bs[i]? = some (bs[i]) := List.getElem?_eq_getElem (by omega)
    rw [write_add _ hget, write_add _ hget]
  · exact write_of_not_mem _ hx

/-- A cell that was read and written back elsewhere. -/
theorem write_read_of_mem (m m' : Mem α) {a b n x : Nat} (h : b ≤ x ∧ x < b + n) :
    m'.write b (m.read a n) x = m (a + (x - b)) := by
  have hx : x = b + (x - b) := by omega
  have hget : (m.read a n)[x - b]? = some (m (a + (x - b))) := getElem?_read m (by omega)
  conv_lhs => rw [hx]
  exact write_add m' hget

end Mem

/-! ## How far a copy gets -/

/-- How many of the first `n` indices satisfy `p` before one fails to. -/
def leading (p : Nat → Bool) : Nat → Nat
  | 0 => 0
  | n + 1 => if p 0 then leading (fun i => p (i + 1)) n + 1 else 0

theorem leading_le (p : Nat → Bool) (n : Nat) : leading p n ≤ n := by
  induction n generalizing p with
  | zero => exact Nat.le_refl 0
  | succ n ih =>
      have hn := ih (fun i => p (i + 1))
      unfold leading
      split <;> omega

theorem lt_leading_iff {p : Nat → Bool} {n k : Nat} :
    k < leading p n ↔ k < n ∧ ∀ i ≤ k, p i := by
  induction n generalizing p k with
  | zero => simp [leading]
  | succ n ih =>
      unfold leading
      split
      · rename_i hp
        cases k with
        | zero => simp [hp]
        | succ k =>
            rw [Nat.add_lt_add_iff_right, Nat.add_lt_add_iff_right, ih]
            refine and_congr_right fun _ => ⟨fun h i hi => ?_, fun h i hi => h (i + 1) (by omega)⟩
            cases i with
            | zero => exact hp
            | succ i => exact h i (by omega)
      · rename_i hp
        refine iff_of_false (by omega) fun h => hp (h.2 0 (by omega))

/-- The whole run satisfies `p`. -/
theorem leading_eq_iff {p : Nat → Bool} {n : Nat} : leading p n = n ↔ ∀ i < n, p i := by
  constructor
  · intro h i hi
    exact (lt_leading_iff.mp (by omega : i < leading p n)).2 i (Nat.le_refl i)
  · intro h
    refine Nat.le_antisymm (leading_le p n) (Nat.le_of_not_lt fun hlt => ?_)
    have hstop : ¬leading p n < leading p n := Nat.lt_irrefl _
    exact hstop (lt_leading_iff.mpr ⟨hlt, fun i hi => h i (by omega)⟩)

end LinuxDrivers
