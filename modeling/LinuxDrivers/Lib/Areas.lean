import Mathlib

/-!
# Areas

A sorted list of disjoint half-open intervals, each carrying some data: the shape
of a process's memory map. Three operations matter: looking up the area around a
point, cutting a range out, and inserting an area where there is room for it.

Cutting may split an area in two, so the list itself is not what survives an
operation. What survives is the data found at each point, `dataAt`, and the lemmas
below say what each operation does to it.
-/

namespace LinuxDrivers

/-- The points from `start` up to but not including `stop`, with their data. -/
structure Area (α : Type) where
  start : Nat
  stop : Nat
  data : α
  deriving DecidableEq

namespace Area

variable {α : Type}

/-- The point `x` lies in the area. -/
def Has (a : Area α) (x : Nat) : Prop := a.start ≤ x ∧ x < a.stop

instance (a : Area α) (x : Nat) : Decidable (a.Has x) :=
  inferInstanceAs (Decidable (a.start ≤ x ∧ x < a.stop))

/-- Increasing and without overlap. -/
def Sorted (as : List (Area α)) : Prop := as.Pairwise (fun a b => a.stop ≤ b.start)

instance (as : List (Area α)) : Decidable (Sorted as) :=
  inferInstanceAs (Decidable (as.Pairwise _))

/-- The area around `x`. -/
def lookup (as : List (Area α)) (x : Nat) : Option (Area α) := as.find? (fun a => a.Has x)

/-- The first area that ends after `x`. -/
def firstAfter (as : List (Area α)) (x : Nat) : Option (Area α) := as.find? (fun a => x < a.stop)

/-- The data at the point `x`. -/
def dataAt (as : List (Area α)) (x : Nat) : Option α := (lookup as x).map Area.data

/-! ## Looking up -/

theorem has_of_lookup {as : List (Area α)} {x : Nat} {a : Area α} (h : lookup as x = some a) :
    a ∈ as ∧ a.Has x :=
  ⟨List.mem_of_find?_eq_some h, by simpa using List.find?_some h⟩

/-- Two areas of one list that share a point are the same. -/
theorem Sorted.unique {as : List (Area α)} (hs : Sorted as) {a b : Area α} (ha : a ∈ as)
    (hb : b ∈ as) {x : Nat} (hax : a.Has x) (hbx : b.Has x) : a = b := by
  induction as with
  | nil => exact absurd ha (by simp)
  | cons c as ih =>
      obtain ⟨hc, hs⟩ := List.pairwise_cons.mp hs
      obtain ⟨ha1, ha2⟩ := hax
      obtain ⟨hb1, hb2⟩ := hbx
      rcases List.mem_cons.mp ha with rfl | ha'
      · rcases List.mem_cons.mp hb with rfl | hb'
        · rfl
        · have hab := hc b hb'
          omega
      · rcases List.mem_cons.mp hb with rfl | hb'
        · have hba := hc a ha'
          omega
        · exact ih hs ha' hb'

theorem lookup_eq_some_iff {as : List (Area α)} (hs : Sorted as) {x : Nat} {a : Area α} :
    lookup as x = some a ↔ a ∈ as ∧ a.Has x := by
  constructor
  · exact has_of_lookup
  · rintro ⟨ha, hx⟩
    cases h : lookup as x with
    | none =>
        have hno := List.find?_eq_none.mp h a ha
        exact absurd hx (by simpa using hno)
    | some b =>
        obtain ⟨hb, hbx⟩ := has_of_lookup h
        rw [hs.unique ha hb hx hbx]

/-- Around a point that lies in an area, that area is also the first to end after it. -/
theorem firstAfter_of_lookup {as : List (Area α)} (hs : Sorted as) {x : Nat} {a : Area α}
    (h : lookup as x = some a) : firstAfter as x = some a := by
  obtain ⟨ha, hx⟩ := has_of_lookup h
  have hx' : x < a.stop := hx.2
  have hx'' : a.start ≤ x := hx.1
  clear h
  induction as with
  | nil => exact absurd ha (by simp)
  | cons c as ih =>
      obtain ⟨hc, hs⟩ := List.pairwise_cons.mp hs
      unfold firstAfter
      rcases List.mem_cons.mp ha with rfl | ha'
      · rw [List.find?_cons_of_pos (by simpa using hx')]
      · have hca := hc a ha'
        rw [List.find?_cons_of_neg (by simp; omega)]
        exact ih hs ha'

theorem isSome_lookup_iff {as : List (Area α)} {x : Nat} :
    (lookup as x).isSome ↔ ∃ a ∈ as, a.Has x := by
  unfold lookup
  rw [List.find?_isSome]
  simp

/-- No area lies between `x` and the first to end after it. -/
theorem Sorted.firstAfter_le {as : List (Area α)} (hs : Sorted as) {x : Nat} {a b : Area α}
    (h : firstAfter as x = some a) (hb : b ∈ as) (hx : x < b.stop) : b = a ∨ a.stop ≤ b.start := by
  induction as with
  | nil => exact absurd hb List.not_mem_nil
  | cons c as ih =>
      obtain ⟨hc, hs⟩ := List.pairwise_cons.mp hs
      unfold firstAfter at h
      by_cases hfirst : x < c.stop
      · rw [List.find?_cons_of_pos (by simpa using hfirst)] at h
        obtain rfl := Option.some.inj h
        rcases List.mem_cons.mp hb with rfl | hb'
        · exact Or.inl rfl
        · exact Or.inr (hc b hb')
      · rw [List.find?_cons_of_neg (by simpa using hfirst)] at h
        rcases List.mem_cons.mp hb with rfl | hb'
        · exact absurd hx hfirst
        · exact ih hs h hb'

theorem dataAt_eq_some_iff {as : List (Area α)} (hs : Sorted as) {x : Nat} {d : α} :
    dataAt as x = some d ↔ ∃ a ∈ as, a.Has x ∧ a.data = d := by
  unfold dataAt
  rw [Option.map_eq_some_iff]
  constructor
  · rintro ⟨a, h, rfl⟩
    obtain ⟨ha, hx⟩ := has_of_lookup h
    exact ⟨a, ha, hx, rfl⟩
  · rintro ⟨a, ha, hx, rfl⟩
    exact ⟨a, (lookup_eq_some_iff hs).mpr ⟨ha, hx⟩, rfl⟩

/-! ## Cutting -/

/-- What is left of an area outside `[lo, hi)`. -/
def cut (lo hi : Nat) (a : Area α) : List (Area α) :=
  (if a.start < lo then [{ a with stop := min a.stop lo }] else [])
    ++ (if hi < a.stop then [{ a with start := max a.start hi }] else [])

/-- What is left of a list of areas outside `[lo, hi)`. -/
def remove (lo hi : Nat) (as : List (Area α)) : List (Area α) := as.flatMap (cut lo hi)

/-- The two pieces an area can leave. -/
theorem mem_cut {lo hi : Nat} {a b : Area α} :
    b ∈ cut lo hi a ↔ (a.start < lo ∧ b = { a with stop := min a.stop lo })
      ∨ (hi < a.stop ∧ b = { a with start := max a.start hi }) := by
  unfold cut
  rw [List.mem_append]
  split <;> split <;> simp_all

/-- A point survives a cut exactly if it lies outside the range. -/
theorem exists_mem_cut_iff {lo hi : Nat} {a : Area α} {x : Nat} {d : α} :
    (∃ b ∈ cut lo hi a, b.Has x ∧ b.data = d)
      ↔ a.Has x ∧ a.data = d ∧ ¬(lo ≤ x ∧ x < hi) := by
  constructor
  · rintro ⟨b, hb, ⟨h1, h2⟩, rfl⟩
    rcases mem_cut.mp hb with ⟨hlo, rfl⟩ | ⟨hhi, rfl⟩
    · dsimp only at h1 h2
      exact ⟨⟨h1, by omega⟩, rfl, by omega⟩
    · dsimp only at h1 h2
      exact ⟨⟨by omega, h2⟩, rfl, by omega⟩
  · rintro ⟨⟨h1, h2⟩, rfl, hx⟩
    by_cases hlo : x < lo
    · exact ⟨_, mem_cut.mpr (Or.inl ⟨by omega, rfl⟩), ⟨h1, by dsimp only; omega⟩, rfl⟩
    · exact ⟨_, mem_cut.mpr (Or.inr ⟨by omega, rfl⟩), ⟨by dsimp only; omega, h2⟩, rfl⟩

theorem Sorted.remove {as : List (Area α)} (hs : Sorted as) {lo hi : Nat} (h : lo ≤ hi) :
    Sorted (remove lo hi as) := by
  refine List.pairwise_flatMap.mpr ⟨?_, hs.imp ?_⟩
  · -- the piece below the range ends before the piece above it starts
    intro a _
    unfold cut
    split <;> split <;> simp
    omega
  · intro a b hab x hx y hy
    have hx' : x.stop ≤ a.stop := by
      rcases mem_cut.mp hx with ⟨-, rfl⟩ | ⟨-, rfl⟩
      · exact Nat.min_le_left _ _
      · exact Nat.le_refl _
    have hy' : b.start ≤ y.start := by
      rcases mem_cut.mp hy with ⟨-, rfl⟩ | ⟨-, rfl⟩
      · exact Nat.le_refl _
      · exact Nat.le_max_left _ _
    omega

theorem dataAt_remove {as : List (Area α)} (hs : Sorted as) {lo hi : Nat} (h : lo ≤ hi) (x : Nat) :
    dataAt (remove lo hi as) x = if lo ≤ x ∧ x < hi then none else dataAt as x := by
  have hiff : ∀ d, dataAt (remove lo hi as) x = some d
      ↔ dataAt as x = some d ∧ ¬(lo ≤ x ∧ x < hi) := by
    intro d
    rw [dataAt_eq_some_iff (hs.remove h), dataAt_eq_some_iff hs]
    constructor
    · rintro ⟨b, hb, hbx⟩
      obtain ⟨a, ha, hba⟩ := List.mem_flatMap.mp hb
      obtain ⟨h1, h2, h3⟩ := exists_mem_cut_iff.mp ⟨b, hba, hbx⟩
      exact ⟨⟨a, ha, h1, h2⟩, h3⟩
    · rintro ⟨⟨a, ha, h1, h2⟩, h3⟩
      obtain ⟨b, hb, hbx⟩ := exists_mem_cut_iff.mpr ⟨h1, h2, h3⟩
      exact ⟨b, List.mem_flatMap.mpr ⟨a, ha, hb⟩, hbx⟩
  refine Option.ext fun d => ?_
  rw [hiff]
  split <;> simp_all

/-- Around a point outside the range, a cut leaves the area that was there, shortened if it
reached into the range from below. -/
theorem lookup_remove {as : List (Area α)} (hs : Sorted as) {lo hi x : Nat} (h : lo ≤ hi)
    (hx : ¬(lo ≤ x ∧ x < hi)) {a : Area α} (ha : lookup as x = some a) :
    ∃ b, lookup (remove lo hi as) x = some b ∧ b.data = a.data
      ∧ b.stop = if x < lo then min a.stop lo else a.stop := by
  obtain ⟨hmem, hstart, hstop⟩ := has_of_lookup ha
  have hremove : ∀ b ∈ cut lo hi a, b ∈ remove lo hi as := fun b hb =>
    List.mem_flatMap.mpr ⟨a, hmem, hb⟩
  rcases Nat.lt_or_ge x lo with hlow | hhigh
  · have hpiece : { a with stop := min a.stop lo } ∈ cut lo hi a :=
      mem_cut.mpr (Or.inl ⟨Nat.lt_of_le_of_lt hstart hlow, rfl⟩)
    refine ⟨_, (lookup_eq_some_iff (hs.remove h)).mpr ⟨hremove _ hpiece, hstart, ?_⟩, rfl, ?_⟩
    · dsimp only
      omega
    · rw [if_pos hlow]
  · have hpiece : { a with start := max a.start hi } ∈ cut lo hi a :=
      mem_cut.mpr (Or.inr ⟨by omega, rfl⟩)
    refine ⟨_, (lookup_eq_some_iff (hs.remove h)).mpr ⟨hremove _ hpiece, ?_, hstop⟩, rfl, ?_⟩
    · dsimp only
      omega
    · rw [if_neg (by omega)]

/-! ## Inserting -/

/-- Put an area in its place. -/
def insert (a : Area α) (as : List (Area α)) : List (Area α) :=
  as.orderedInsert (fun a b => a.stop ≤ b.start) a

theorem mem_insert {a b : Area α} {as : List (Area α)} : b ∈ insert a as ↔ b = a ∨ b ∈ as :=
  List.mem_orderedInsert _

/-- Where there is room for it, inserting keeps the list sorted. -/
theorem Sorted.insert {as : List (Area α)} (hs : Sorted as) {a : Area α}
    (hne : ∀ b ∈ as, b.start ≤ b.stop) (hroom : ∀ b ∈ as, b.stop ≤ a.start ∨ a.stop ≤ b.start) :
    Sorted (insert a as) := by
  induction as with
  | nil => exact List.pairwise_singleton _ a
  | cons b as ih =>
      obtain ⟨hb, hs'⟩ := List.pairwise_cons.mp hs
      unfold Area.insert
      rw [List.orderedInsert_cons]
      split
      · rename_i hab
        refine List.pairwise_cons.mpr ⟨?_, hs⟩
        intro c hc
        rcases List.mem_cons.mp hc with rfl | hc
        · exact hab
        · have hbc := hb c hc
          have hbb := hne b (List.mem_cons_self ..)
          omega
      · rename_i hab
        refine List.pairwise_cons.mpr ⟨?_, ih hs' (fun c hc => hne c (List.mem_cons_of_mem b hc))
          (fun c hc => hroom c (List.mem_cons_of_mem b hc))⟩
        intro c hc
        rcases mem_insert.mp hc with rfl | hc
        · rcases hroom b (List.mem_cons_self ..) with h | h
          · exact h
          · exact absurd h hab
        · exact hb c hc

theorem dataAt_insert {as : List (Area α)} {a : Area α} (hs : Sorted as)
    (hs' : Sorted (insert a as)) (x : Nat) :
    dataAt (insert a as) x = if a.Has x then some a.data else dataAt as x := by
  split
  · rename_i hx
    exact (dataAt_eq_some_iff hs').mpr ⟨a, mem_insert.mpr (Or.inl rfl), hx, rfl⟩
  · rename_i hx
    refine Option.ext fun d => ?_
    rw [dataAt_eq_some_iff hs', dataAt_eq_some_iff hs]
    constructor
    · rintro ⟨b, hb, hbx, hd⟩
      rcases mem_insert.mp hb with rfl | hb
      · exact absurd hbx hx
      · exact ⟨b, hb, hbx, hd⟩
    · rintro ⟨b, hb, hbx, hd⟩
      exact ⟨b, mem_insert.mpr (Or.inr hb), hbx, hd⟩

/-! ## Extending -/

/-- The first area that ends after `x`, extended down to `x`. -/
def extendDown (x : Nat) : List (Area α) → List (Area α)
  | [] => []
  | a :: as =>
    if x < a.stop then { a with start := min a.start x } :: as else a :: extendDown x as

theorem mem_of_mem_extendDown {x : Nat} {as : List (Area α)} {b : Area α}
    (h : b ∈ extendDown x as) :
    b ∈ as ∨ ∃ a ∈ as, x < a.stop ∧ b = { a with start := min a.start x } := by
  induction as with
  | nil => exact absurd h List.not_mem_nil
  | cons a as ih =>
      rw [extendDown] at h
      split at h
      · rename_i hx
        rcases List.mem_cons.mp h with rfl | h
        · exact Or.inr ⟨a, List.mem_cons_self .., hx, rfl⟩
        · exact Or.inl (List.mem_cons_of_mem _ h)
      · rcases List.mem_cons.mp h with rfl | h
        · exact Or.inl (List.mem_cons_self ..)
        · rcases ih h with hb | ⟨c, hc, hcx⟩
          · exact Or.inl (List.mem_cons_of_mem _ hb)
          · exact Or.inr ⟨c, List.mem_cons_of_mem _ hc, hcx⟩

theorem Sorted.extendDown {as : List (Area α)} (hs : Sorted as) (x : Nat) :
    Sorted (extendDown x as) := by
  induction as with
  | nil => exact List.Pairwise.nil
  | cons a as ih =>
      obtain ⟨ha, hs⟩ := List.pairwise_cons.mp hs
      rw [Area.extendDown]
      split
      · exact List.pairwise_cons.mpr ⟨ha, hs⟩
      · rename_i hx
        refine List.pairwise_cons.mpr ⟨fun b hb => ?_, ih hs⟩
        rcases mem_of_mem_extendDown hb with hb | ⟨c, hc, -, rfl⟩
        · exact ha b hb
        · have hac := ha c hc
          show a.stop ≤ min c.start x
          omega

/-- Extending covers the gap from `x` to the first area that ends after it. -/
theorem has_extendDown_iff {as : List (Area α)} (hne : ∀ a ∈ as, a.start ≤ a.stop) {x y : Nat} :
    (∃ b ∈ extendDown x as, b.Has y) ↔
      (∃ a ∈ as, a.Has y) ∨ x ≤ y ∧ ∃ a, firstAfter as x = some a ∧ y < a.start := by
  induction as with
  | nil => simp [extendDown, firstAfter]
  | cons a as ih =>
      have hstop := hne a (List.mem_cons_self ..)
      rw [extendDown]
      split
      · rename_i hx
        have hfirst : firstAfter (a :: as) x = some a :=
          List.find?_cons_of_pos (by simpa using hx)
        have hhead : Has { a with start := min a.start x } y
            ↔ a.Has y ∨ x ≤ y ∧ y < a.start := by
          show min a.start x ≤ y ∧ y < a.stop ↔ (a.start ≤ y ∧ y < a.stop) ∨ x ≤ y ∧ y < a.start
          omega
        rw [hfirst, List.exists_mem_cons_iff, List.exists_mem_cons_iff, hhead]
        simp only [Option.some.injEq, exists_eq_left']
        exact or_right_comm
      · rename_i hx
        have hfirst : firstAfter (a :: as) x = firstAfter as x :=
          List.find?_cons_of_neg (by simpa using hx)
        rw [hfirst, List.exists_mem_cons_iff, List.exists_mem_cons_iff,
          ih fun b hb => hne b (List.mem_cons_of_mem _ hb), or_assoc]

/-- The gap is where no area is. -/
theorem lt_start_iff_gap {as : List (Area α)} (hs : Sorted as)
    (hne : ∀ a ∈ as, a.start < a.stop) {x y : Nat} {a : Area α} (h : firstAfter as x = some a)
    (hxy : x ≤ y) : y < a.start ↔ ∀ z, x ≤ z → z ≤ y → lookup as z = none := by
  have hmem : a ∈ as := List.mem_of_find?_eq_some h
  have hstop : x < a.stop := by simpa using List.find?_some h
  have hstart := hne a hmem
  constructor
  · intro hlt z hz hzy
    cases hlook : lookup as z with
    | none => rfl
    | some b =>
        exfalso
        obtain ⟨hb, hbz⟩ := has_of_lookup hlook
        have hlo : b.start ≤ z := hbz.1
        have hhi : z < b.stop := hbz.2
        rcases hs.firstAfter_le h hb (by omega) with rfl | hafter
        · omega
        · omega
  · intro hgap
    by_contra hge
    have hnone := hgap (max x a.start) (by omega) (by omega)
    have hhas : a.Has (max x a.start) := ⟨by omega, by omega⟩
    have hfound := (lookup_eq_some_iff hs).mpr ⟨hmem, hhas⟩
    rw [hnone] at hfound
    exact absurd hfound (by simp)

/-! ## How much is covered -/

/-- The points that lie in some area. -/
def points : List (Area α) → Finset Nat
  | [] => ∅
  | a :: as => Finset.Ico a.start a.stop ∪ points as

def total (as : List (Area α)) : Nat := (as.map fun a => a.stop - a.start).sum

theorem mem_points {as : List (Area α)} {x : Nat} : x ∈ points as ↔ ∃ a ∈ as, a.Has x := by
  induction as with
  | nil => simp [points]
  | cons a as ih =>
      rw [points, Finset.mem_union, Finset.mem_Ico, ih]
      simp [Has]

/-- Areas without overlap cover as many points as they have together. -/
theorem card_points {as : List (Area α)} (hs : Sorted as) : (points as).card = total as := by
  induction as with
  | nil => rfl
  | cons a as ih =>
      obtain ⟨ha, hs⟩ := List.pairwise_cons.mp hs
      have hdisj : Disjoint (Finset.Ico a.start a.stop) (points as) := by
        refine Finset.disjoint_left.mpr fun x hx hpoint => ?_
        obtain ⟨b, hb, hbx⟩ := mem_points.mp hpoint
        have hab := ha b hb
        have hxa := (Finset.mem_Ico.mp hx).2
        have hxb := hbx.1
        omega
      rw [points, Finset.card_union_of_disjoint hdisj, Nat.card_Ico, ih hs]
      rfl

theorem mem_points_iff_dataAt {as : List (Area α)} (hs : Sorted as) {x : Nat} :
    x ∈ points as ↔ dataAt as x ≠ none := by
  rw [mem_points, Option.ne_none_iff_exists']
  constructor
  · rintro ⟨a, ha, hx⟩
    exact ⟨a.data, (dataAt_eq_some_iff hs).mpr ⟨a, ha, hx, rfl⟩⟩
  · rintro ⟨d, hd⟩
    obtain ⟨a, ha, hx, -⟩ := (dataAt_eq_some_iff hs).mp hd
    exact ⟨a, ha, hx⟩

end Area

end LinuxDrivers
