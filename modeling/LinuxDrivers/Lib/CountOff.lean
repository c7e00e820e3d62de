import LinuxDrivers.Lib.FirstFit

/-!
# Counting off

Cells numbered from 0, each marked or not, and a scan that counts marked cells off in
blocks: it counts the marked cells it passes, and when it has counted `need` of them, or
meets one that is not marked, it starts again at zero.

The cells that complete a count are what matters. In a maximal run of marked cells they
are the last cells of the blocks of `need` that the run holds, counted from its first
cell (`countOff_in_run`): wherever the scan was before, it comes to a run with its count
at zero.
-/

namespace LinuxDrivers

variable (marked : Nat → Bool) (need : Nat)

/-- The cells that complete a count, of the `n` cells from `i` on, with `j` counted before. -/
def countOff : Nat → Nat → Nat → List Nat
  | 0, _, _ => []
  | n + 1, i, j =>
    if marked i then
      if j + 1 = need then i :: countOff n (i + 1) 0 else countOff n (i + 1) (j + 1)
    else countOff n (i + 1) 0

/-- The count afterwards. -/
def countAfter : Nat → Nat → Nat → Nat
  | 0, _, j => j
  | n + 1, i, j =>
    if marked i then
      if j + 1 = need then countAfter n (i + 1) 0 else countAfter n (i + 1) (j + 1)
    else countAfter n (i + 1) 0

/-- Marked cells that are neither preceded nor followed by another one. -/
structure MaximalRun (r len : Nat) : Prop where
  pos : 0 < len
  run : FirstFit.Run marked r len
  before : r = 0 ∨ marked (r - 1) = false
  after : marked (r + len) = false

section

variable {marked need} {i j m n r len : Nat}

/-! ## Parts of a scan -/

theorem countOff_append : ∀ (m i j : Nat), countOff marked need (m + n) i j
    = countOff marked need m i j ++ countOff marked need n (i + m)
        (countAfter marked need m i j) := by
  intro m
  induction m with
  | zero => intro i j; rw [Nat.zero_add]; rfl
  | succ m ih =>
      intro i j
      have hshift : i + (m + 1) = i + 1 + m := by omega
      rw [Nat.succ_add, countOff, countOff, countAfter, hshift]
      split
      · split
        · rw [ih, List.cons_append]
        · exact ih (i + 1) (j + 1)
      · exact ih (i + 1) 0

theorem countAfter_append : ∀ (m i j : Nat), countAfter marked need (m + n) i j
    = countAfter marked need n (i + m) (countAfter marked need m i j) := by
  intro m
  induction m with
  | zero => intro i j; rw [Nat.zero_add]; rfl
  | succ m ih =>
      intro i j
      have hshift : i + (m + 1) = i + 1 + m := by omega
      rw [Nat.succ_add, countAfter, countAfter, hshift]
      split
      · split
        · exact ih (i + 1) 0
        · exact ih (i + 1) (j + 1)
      · exact ih (i + 1) 0

theorem mem_countOff {x : Nat} : ∀ {n i j : Nat}, x ∈ countOff marked need n i j →
    i ≤ x ∧ x < i + n ∧ marked x = true := by
  intro n
  induction n with
  | zero => intro i j h; exact absurd h List.not_mem_nil
  | succ n ih =>
      intro i j h
      have hlater : ∀ j', x ∈ countOff marked need n (i + 1) j' →
          i ≤ x ∧ x < i + (n + 1) ∧ marked x = true := by
        intro j' h'
        obtain ⟨hlo, hhi, hx⟩ := ih h'
        exact ⟨by omega, by omega, hx⟩
      rw [countOff] at h
      split at h
      · rename_i hi
        split at h
        · rcases List.mem_cons.mp h with rfl | h'
          · exact ⟨Nat.le_refl x, by omega, hi⟩
          · exact hlater 0 h'
        · exact hlater (j + 1) h
      · exact hlater 0 h

/-- A cell that completes a count is the last of `need` marked ones, and the first to do so
comes no earlier than the count allows. -/
theorem countOff_counted {x : Nat} : ∀ {n i j : Nat}, j < need → j ≤ i →
    FirstFit.Run marked (i - j) j → x ∈ countOff marked need n i j →
    i + need ≤ x + 1 + j ∧ FirstFit.Run marked (x + 1 - need) need := by
  intro n
  induction n with
  | zero => intro i j _ _ _ h; exact absurd h List.not_mem_nil
  | succ n ih =>
      intro i j hj hle hrun h
      have hafresh : x ∈ countOff marked need n (i + 1) 0 →
          i + need ≤ x + 1 + j ∧ FirstFit.Run marked (x + 1 - need) need := by
        intro h'
        obtain ⟨hlo, hcounted⟩ := ih (by omega) (Nat.zero_le _) (fun y hy hy' => by omega) h'
        exact ⟨by omega, hcounted⟩
      rw [countOff] at h
      split at h
      · rename_i hi
        have hlonger : FirstFit.Run marked (i - j) (j + 1) := by
          intro y hy hy'
          by_cases hlast : y = i
          · rw [hlast]
            exact hi
          · exact hrun y hy (by omega)
        split at h
        · rename_i hfull
          rcases List.mem_cons.mp h with rfl | h'
          · have hfrom : x + 1 - need = x - j := by omega
            rw [hfrom, ← hfull]
            exact ⟨by omega, hlonger⟩
          · exact hafresh h'
        · obtain ⟨hlo, hcounted⟩ := ih (by omega) (by omega)
            (by rw [Nat.add_sub_add_right]; exact hlonger) h
          exact ⟨by omega, hcounted⟩
      · exact hafresh h

/-- Two cells that complete a count are `need` cells apart. -/
theorem countOff_spaced (hpos : 0 < need) : ∀ {n i j : Nat},
    (countOff marked need n i j).Pairwise fun x y => x + need ≤ y := by
  intro n
  induction n with
  | zero => intro i j; exact List.Pairwise.nil
  | succ n ih =>
      intro i j
      rw [countOff]
      split
      · split
        · refine List.pairwise_cons.mpr ⟨fun y hy => ?_, ih⟩
          have hlo := (countOff_counted hpos (Nat.zero_le _) (fun z hz hz' => by omega) hy).1
          omega
        · exact ih
      · exact ih

/-- A cell that is not marked ends a count. -/
theorem countAfter_unmarked (h : marked (i + n) = false) :
    ∀ {j : Nat}, countAfter marked need (n + 1) i j = 0 := by
  induction n generalizing i with
  | zero =>
      intro j
      have hi : marked i = false := h
      rw [countAfter, if_neg (by simp [hi])]
      rfl
  | succ n ih =>
      intro j
      have hshift : i + (n + 1) = i + 1 + n := by omega
      rw [hshift] at h
      rw [countAfter]
      split
      · split
        · exact ih h
        · exact ih h
      · exact ih h

/-! ## Inside a run -/

/-- Too few marked cells to complete a count. -/
theorem countOff_short : ∀ {n i j : Nat}, FirstFit.Run marked i n → j + n < need →
    countOff marked need n i j = [] ∧ countAfter marked need n i j = j + n := by
  intro n
  induction n with
  | zero => intro i j _ _; exact ⟨rfl, rfl⟩
  | succ n ih =>
      intro i j hrun hshort
      have hi : marked i = true := hrun i (Nat.le_refl i) (by omega)
      have hne : j + 1 ≠ need := by omega
      obtain ⟨hoff, hafter⟩ := ih (i := i + 1) (j := j + 1)
        (fun x hlo hhi => hrun x (by omega) (by omega)) (by omega)
      rw [countOff, countAfter, if_pos hi, if_pos hi, if_neg hne, if_neg hne, hoff, hafter]
      exact ⟨rfl, by omega⟩

/-- A block of marked cells, counted from zero, is completed by its last cell. -/
theorem countOff_block (hpos : 0 < need) (hrun : FirstFit.Run marked i need) :
    countOff marked need need i 0 = [i + need - 1] ∧ countAfter marked need need i 0 = 0 := by
  obtain ⟨n, rfl⟩ : ∃ n, need = n + 1 := ⟨need - 1, by omega⟩
  have hlast : marked (i + n) = true := hrun (i + n) (by omega) (by omega)
  have hshort : FirstFit.Run marked i n := fun x hlo hhi => hrun x hlo (by omega)
  obtain ⟨hoff, hafter⟩ := countOff_short hshort (by omega : 0 + n < n + 1)
  rw [countOff_append, countAfter_append, hoff, hafter, Nat.zero_add]
  simp [countOff, countAfter, hlast]

/-- A run counted from zero: one completed count for each whole block. -/
theorem countOff_blocks (hpos : 0 < need) (hm : m < need) : ∀ (q r : Nat),
    FirstFit.Run marked r (q * need + m) →
    countOff marked need (q * need + m) r 0
        = (List.range q).map (fun k => r + (k + 1) * need - 1)
      ∧ countAfter marked need (q * need + m) r 0 = m := by
  intro q
  induction q with
  | zero =>
      intro r hrun
      rw [Nat.zero_mul, Nat.zero_add] at hrun ⊢
      have hshort := countOff_short hrun (by omega : 0 + m < need)
      rwa [Nat.zero_add] at hshort
  | succ q ih =>
      intro r hrun
      have hsize : (q + 1) * need + m = need + (q * need + m) := by
        rw [Nat.succ_mul]
        omega
      rw [hsize] at hrun ⊢
      obtain ⟨hfirst, hzero⟩ := countOff_block (i := r) hpos
        fun x hlo hhi => hrun x hlo (by omega)
      obtain ⟨hoff, hafter⟩ := ih (r + need) fun x hlo hhi => hrun x (by omega) (by omega)
      rw [countOff_append, countAfter_append, hfirst, hzero, hoff, hafter, List.range_succ_eq_map,
        List.map_cons, List.map_map, List.singleton_append]
      refine ⟨?_, rfl⟩
      have hshift : ∀ k, r + need + (k + 1) * need - 1 = r + (k + 1 + 1) * need - 1 := by
        intro k
        rw [Nat.succ_mul (k + 1)]
        omega
      rw [Nat.zero_add, Nat.one_mul]
      exact congrArg _ (List.map_congr_left fun k _ => hshift k)

/-- **In a maximal run the scan completes one count for each whole block.** -/
theorem countOff_in_run (hpos : 0 < need) (h : MaximalRun marked r len) (hn : r + len ≤ n) :
    (countOff marked need n 0 0).filter (fun x => r ≤ x ∧ x < r + len)
      = (List.range (len / need)).map fun k => r + (k + 1) * need - 1 := by
  obtain ⟨rest, rfl⟩ := Nat.exists_eq_add_of_le hn
  -- the scan comes to the run with its count at zero
  have hzero : countAfter marked need r 0 0 = 0 := by
    rcases h.before with rfl | hbefore
    · rfl
    · cases r with
      | zero => rfl
      | succ r => exact countAfter_unmarked (by rw [Nat.zero_add]; exact hbefore)
  have hsplit : len / need * need + len % need = len := Nat.div_add_mod' len need
  have hrun : FirstFit.Run marked r (len / need * need + len % need) := by
    rw [hsplit]
    exact h.run
  obtain ⟨hblocks, -⟩ := countOff_blocks hpos (Nat.mod_lt len hpos) (len / need) r hrun
  rw [hsplit] at hblocks
  rw [Nat.add_assoc, countOff_append, countOff_append, hzero, Nat.zero_add, List.filter_append,
    List.filter_append, ← hblocks]
  have hbelow : (countOff marked need r 0 0).filter (fun x => r ≤ x ∧ x < r + len) = [] := by
    refine List.filter_eq_nil_iff.mpr fun x hx => ?_
    have hlt := mem_countOff hx
    simp only [decide_eq_true_eq]
    omega
  have hinside : (countOff marked need len r 0).filter (fun x => r ≤ x ∧ x < r + len)
      = countOff marked need len r 0 := by
    refine List.filter_eq_self.mpr fun x hx => ?_
    obtain ⟨hlo, hhi, -⟩ := mem_countOff hx
    simpa using ⟨hlo, hhi⟩
  have habove : (countOff marked need rest (r + len) (countAfter marked need len r 0)).filter
      (fun x => r ≤ x ∧ x < r + len) = [] := by
    refine List.filter_eq_nil_iff.mpr fun x hx => ?_
    have hge := mem_countOff hx
    simp only [decide_eq_true_eq]
    omega
  rw [hbelow, hinside, habove, List.nil_append, List.append_nil]

/-! ## Every run is part of a maximal one -/

theorem run_extend_up {bound : Nat} (hbound : ∀ x, marked x = true → x < bound) :
    ∀ d n, bound ≤ r + n + d → FirstFit.Run marked r n →
      ∃ len, n ≤ len ∧ FirstFit.Run marked r len ∧ marked (r + len) = false := by
  intro d
  induction d with
  | zero =>
      intro n hd hrun
      refine ⟨n, Nat.le_refl n, hrun, Bool.eq_false_iff.mpr fun hmarked => ?_⟩
      have hlt := hbound _ hmarked
      omega
  | succ d ih =>
      intro n hd hrun
      by_cases hnext : marked (r + n) = true
      · have hlonger : FirstFit.Run marked r (n + 1) := by
          intro x hlo hhi
          by_cases hx : x = r + n
          · rw [hx]
            exact hnext
          · exact hrun x hlo (by omega)
        obtain ⟨len, hle, hlen, hafter⟩ := ih (n + 1) (by omega) hlonger
        exact ⟨len, by omega, hlen, hafter⟩
      · exact ⟨n, Nat.le_refl n, hrun, Bool.eq_false_iff.mpr hnext⟩

theorem run_extend_down : ∀ a n, FirstFit.Run marked a n →
    ∃ r, r ≤ a ∧ FirstFit.Run marked r (a - r + n) ∧ (r = 0 ∨ marked (r - 1) = false) := by
  intro a
  induction a with
  | zero => intro n hrun; exact ⟨0, Nat.le_refl 0, by rwa [Nat.sub_self, Nat.zero_add], Or.inl rfl⟩
  | succ a ih =>
      intro n hrun
      by_cases hbefore : marked a = true
      · have hlonger : FirstFit.Run marked a (n + 1) := by
          intro x hlo hhi
          by_cases hx : x = a
          · rw [hx]
            exact hbefore
          · exact hrun x (by omega) (by omega)
        obtain ⟨r, hle, hr, hstart⟩ := ih (n + 1) hlonger
        refine ⟨r, by omega, ?_, hstart⟩
        have hlen : a + 1 - r + n = a - r + (n + 1) := by omega
        rw [hlen]
        exact hr
      · refine ⟨a + 1, Nat.le_refl _, ?_, Or.inr (Bool.eq_false_iff.mpr hbefore)⟩
        rwa [Nat.sub_self, Nat.zero_add]

theorem exists_maximalRun {bound a : Nat} (hbound : ∀ x, marked x = true → x < bound)
    (hn : 0 < n) (hrun : FirstFit.Run marked a n) :
    ∃ r len, MaximalRun marked r len ∧ r ≤ a ∧ a + n ≤ r + len := by
  obtain ⟨r, hle, hr, hbefore⟩ := run_extend_down a n hrun
  obtain ⟨len, hlen, hr', hafter⟩ := run_extend_up hbound bound _ (by omega) hr
  exact ⟨r, len, ⟨by omega, hr', hbefore, hafter⟩, hle, by omega⟩

end

end LinuxDrivers
