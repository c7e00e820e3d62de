import LinuxDrivers.Lib.Run
import LinuxDrivers.Vma.Compact

/-!
# The cursors of a compaction

The loops of `IOCTL_COMPACT_VMA` as a machine. One step is one round of a loop, or the
code between two loops; what the kernel answers meanwhile is not the machine's business,
so each step is given the addresses that are mapped and whether the copies can be made.
They may change from one step to the next, as they may under a call that takes no lock.

The loops come to an end because the cursors start a whole number of pages apart. A
cursor that moves towards the other by a page therefore meets it, if nothing stops it
before, and never steps over it, so no sum wraps around. The test below the scans then
finds `j >= i`, and the body of the outer loop is entered once at most.

That the machine is the code is `compactLoop_follows`: a call that would run out of
fuel would be a run of the machine that is too long.
-/

namespace LinuxDrivers.Vma

/-- Where control can stand in the loops. -/
inductive Pc where
  /-- Before `while(i<j)`. -/
  | outer
  /-- Before the test `i<j` of the scan up. -/
  | up
  /-- Before the test `i<j` of the scan down. -/
  | down
  /-- Before `if(j>=i) break;`. -/
  | test
  /-- Below it, where the two pages change places. -/
  | swap
  /-- Behind the outer loop. -/
  | done
  /-- Returned out of a loop. -/
  | returned
  deriving DecidableEq

/-- The loops have been left. -/
def Pc.Final (pc : Pc) : Prop := pc = .done ∨ pc = .returned

/-- The variables that steer the loops. -/
structure Cursors where
  pc : Pc
  i : Nat
  j : Nat
  toAddr : Nat
  fromAddr : Nat
  /-- How often the body of the outer loop was entered. The code does not count. -/
  rounds : Nat

/-- What the kernel says during a step. -/
structure Answer where
  /-- Whether `mtree_load` finds an area. -/
  mapped : Nat → Bool
  /-- Whether the copies of the step, and its `remap_pfn_range`, succeed. -/
  copied : Bool

namespace Cursors

/-- The variables before the loops. -/
def start (inp : Input) : Cursors := ⟨.outer, inp.addr, inp.rangeEnd, inp.addr, inp.rangeEnd, 0⟩

def step (t : Cursors) (a : Answer) : Option Cursors :=
  match t.pc with
  | .outer =>
    if t.i < t.j then some { t with pc := .up, i := t.toAddr, rounds := t.rounds + 1 }
    else some { t with pc := .done }
  | .up =>
    if t.i < t.j then
      if !a.mapped t.i then some { t with pc := .down, toAddr := t.i, j := t.fromAddr }
      else if a.copied then some { t with i := (t.i + 4096) % 2 ^ 64 }
      else some { t with pc := .returned }
    else some { t with pc := .down, j := t.fromAddr }
  | .down =>
    if t.i < t.j then
      if a.mapped t.j then some { t with pc := .test, fromAddr := t.j }
      else some { t with j := (t.j + 2 ^ 64 - 4096) % 2 ^ 64 }
    else some { t with pc := .test }
  | .test => if t.j ≥ t.i then some { t with pc := .done } else some { t with pc := .swap }
  | .swap => if a.copied then some { t with pc := .outer } else some { t with pc := .returned }
  | .done | .returned => none

/-- A round of a scan moves its cursor by a page, without wrapping around and without passing
the other cursor. -/
structure Advances (t t' : Cursors) : Prop where
  up : t.pc = .up → t'.pc = .up → t'.i = t.i + 4096 ∧ t'.j = t.j ∧ t'.i ≤ t'.j
  down : t.pc = .down → t'.pc = .down → t'.j + 4096 = t.j ∧ t'.i = t.i ∧ t'.i ≤ t'.j

/-! ## The invariant -/

/-- The cursors are a whole number of pages apart, the right way around. -/
structure Apart (t : Cursors) : Prop where
  le : t.i ≤ t.j
  below : t.j < 2 ^ 64
  pages : t.i % 4096 = t.j % 4096

/-- What holds at each place, if the call started on `inp`. -/
def Inv (inp : Input) (t : Cursors) : Prop :=
  match t.pc with
  | .outer => t = start inp
  | .up => t.rounds = 1 ∧ t.Apart ∧ t.fromAddr = t.j
  | .down | .test => t.rounds = 1 ∧ t.Apart
  -- the pages never change places
  | .swap => False
  | .done | .returned => t.rounds ≤ 1

/-- No more steps than this are left: one for each page between the cursors, and one for each
place still ahead. -/
def rank (t : Cursors) : Nat :=
  match t.pc with
  | .outer => (t.j - t.i) / 4096 + 4
  | .up => (t.j - t.i) / 4096 + 3
  | .down => (t.j - t.i) / 4096 + 2
  | .test => 1
  | .swap | .done | .returned => 0

variable {inp : Input} {t t' : Cursors} {a : Answer}

theorem apart_start (h : inp.addr < inp.rangeEnd) : (start inp).Apart := by
  refine ⟨Nat.le_of_lt h, Nat.mod_lt _ (by decide), ?_⟩
  show inp.addr % 4096 = inp.rangeEnd % 4096
  unfold Input.rangeEnd
  omega

/-- A cursor that is below the other can go up a page. -/
theorem Apart.up (h : t.Apart) (hlt : t.i < t.j) :
    (t.i + 4096) % 2 ^ 64 = t.i + 4096 ∧ t.i + 4096 ≤ t.j := by
  obtain ⟨-, hbelow, hpages⟩ := h
  omega

/-- A cursor that is above the other can go down a page. -/
theorem Apart.down (h : t.Apart) (hlt : t.i < t.j) :
    (t.j + 2 ^ 64 - 4096) % 2 ^ 64 = t.j - 4096 ∧ t.i + 4096 ≤ t.j := by
  obtain ⟨-, hbelow, hpages⟩ := h
  omega

/-! ## Steps

What a step can do at each place, and then that it keeps the invariant there. -/

/-- The scan up leaves for the scan down, returns, or goes on with the next page. -/
theorem step_up (hpc : t.pc = .up) (h : t.Apart) (hs : t.step a = some t') :
    (∃ dst, t' = { t with pc := .down, toAddr := dst, j := t.fromAddr })
      ∨ t' = { t with pc := .returned }
      ∨ t.i + 4096 ≤ t.j ∧ t' = { t with pc := .up, i := t.i + 4096 } := by
  unfold step at hs
  rw [hpc] at hs
  dsimp only at hs
  split at hs
  · rename_i hlt
    obtain ⟨hnext, hle⟩ := h.up hlt
    rw [hnext] at hs
    split at hs
    · exact Or.inl ⟨t.i, (Option.some.inj hs).symm⟩
    · split at hs
      · exact Or.inr (Or.inr ⟨hle, (Option.some.inj hs).symm⟩)
      · exact Or.inr (Or.inl (Option.some.inj hs).symm)
  · exact Or.inl ⟨t.toAddr, (Option.some.inj hs).symm⟩

/-- The scan down leaves for the test, or goes on with the next page. -/
theorem step_down (hpc : t.pc = .down) (h : t.Apart) (hs : t.step a = some t') :
    (∃ src, t' = { t with pc := .test, fromAddr := src })
      ∨ t.i + 4096 ≤ t.j ∧ t' = { t with pc := .down, j := t.j - 4096 } := by
  unfold step at hs
  rw [hpc] at hs
  dsimp only at hs
  split at hs
  · rename_i hlt
    obtain ⟨hnext, hle⟩ := h.down hlt
    rw [hnext] at hs
    split at hs
    · exact Or.inl ⟨t.j, (Option.some.inj hs).symm⟩
    · exact Or.inr ⟨hle, (Option.some.inj hs).symm⟩
  · exact Or.inl ⟨t.fromAddr, (Option.some.inj hs).symm⟩

/-- The test ends the loops. -/
theorem step_test (hpc : t.pc = .test) (h : t.Apart) (hs : t.step a = some t') :
    t' = { t with pc := .done } := by
  unfold step at hs
  rw [hpc] at hs
  exact (Option.some.inj ((if_pos h.le).symm.trans hs)).symm

theorem inv_up (hpc : t.pc = .up) : t.Inv inp ↔ t.rounds = 1 ∧ t.Apart ∧ t.fromAddr = t.j := by
  unfold Inv
  rw [hpc]

theorem inv_down (hpc : t.pc = .down) : t.Inv inp ↔ t.rounds = 1 ∧ t.Apart := by
  unfold Inv
  rw [hpc]

theorem inv_test (hpc : t.pc = .test) : t.Inv inp ↔ t.rounds = 1 ∧ t.Apart := by
  unfold Inv
  rw [hpc]

theorem inv_step_outer (hpc : t.pc = .outer) (h : t.Inv inp) (hs : t.step a = some t') :
    t'.Inv inp ∧ t'.rank < t.rank := by
  have ht : t = start inp := by
    unfold Inv at h
    rw [hpc] at h
    exact h
  subst ht
  by_cases hlt : inp.addr < inp.rangeEnd
  · have hto : t' = { start inp with pc := .up, rounds := 1 } :=
      (Option.some.inj ((if_pos hlt).symm.trans hs)).symm
    subst hto
    exact ⟨⟨rfl, ⟨(apart_start hlt).le, (apart_start hlt).below, (apart_start hlt).pages⟩, rfl⟩,
      Nat.lt_succ_self _⟩
  · have hto : t' = { start inp with pc := .done } :=
      (Option.some.inj ((if_neg hlt).symm.trans hs)).symm
    subst hto
    exact ⟨Nat.zero_le 1, Nat.succ_pos _⟩

theorem inv_step_up (hpc : t.pc = .up) (h : t.Inv inp) (hs : t.step a = some t') :
    t'.Inv inp ∧ t'.rank < t.rank := by
  obtain ⟨hr, ⟨hle, hbelow, hpages⟩, hfrom⟩ := (inv_up hpc).mp h
  have hrank : t.rank = (t.j - t.i) / 4096 + 3 := by
    unfold rank
    rw [hpc]
  rw [hrank]
  rcases step_up hpc ⟨hle, hbelow, hpages⟩ hs with ⟨dst, rfl⟩ | rfl | ⟨hroom, rfl⟩
  · -- `j` is set to where it has been all along
    rw [hfrom]
    exact ⟨(inv_down rfl).mpr ⟨hr, hle, hbelow, hpages⟩, Nat.lt_succ_self _⟩
  · exact ⟨Nat.le_of_eq hr, Nat.succ_pos _⟩
  · refine ⟨(inv_up rfl).mpr ⟨hr, ⟨hroom, hbelow, ?_⟩, hfrom⟩, ?_⟩
    · show (t.i + 4096) % 4096 = t.j % 4096
      omega
    · show (t.j - (t.i + 4096)) / 4096 + 3 < _
      omega

theorem inv_step_down (hpc : t.pc = .down) (h : t.Inv inp) (hs : t.step a = some t') :
    t'.Inv inp ∧ t'.rank < t.rank := by
  obtain ⟨hr, hle, hbelow, hpages⟩ := (inv_down hpc).mp h
  have hrank : t.rank = (t.j - t.i) / 4096 + 2 := by
    unfold rank
    rw [hpc]
  rw [hrank]
  rcases step_down hpc ⟨hle, hbelow, hpages⟩ hs with ⟨src, rfl⟩ | ⟨hroom, rfl⟩
  · exact ⟨(inv_test rfl).mpr ⟨hr, hle, hbelow, hpages⟩, Nat.succ_lt_succ (Nat.succ_pos _)⟩
  · refine ⟨(inv_down rfl).mpr ⟨hr, ?_, ?_, ?_⟩, ?_⟩
    · show t.i ≤ t.j - 4096
      omega
    · show t.j - 4096 < 2 ^ 64
      omega
    · show t.i % 4096 = (t.j - 4096) % 4096
      omega
    · show (t.j - 4096 - t.i) / 4096 + 2 < _
      omega

theorem inv_step_test (hpc : t.pc = .test) (h : t.Inv inp) (hs : t.step a = some t') :
    t'.Inv inp ∧ t'.rank < t.rank := by
  obtain ⟨hr, hap⟩ := (inv_test hpc).mp h
  obtain rfl := step_test hpc hap hs
  have hrank : t.rank = 1 := by
    unfold rank
    rw [hpc]
  rw [hrank]
  exact ⟨Nat.le_of_eq hr, Nat.one_pos⟩

/-- A step keeps the invariant and lowers the rank. -/
theorem step_inv (t : Cursors) (a : Answer) (t' : Cursors) (h : t.Inv inp)
    (hs : t.step a = some t') : t'.Inv inp ∧ t'.rank < t.rank := by
  cases hpc : t.pc with
  | outer => exact inv_step_outer hpc h hs
  | up => exact inv_step_up hpc h hs
  | down => exact inv_step_down hpc h hs
  | test => exact inv_step_test hpc h hs
  | swap =>
      unfold Inv at h
      rw [hpc] at h
      exact h.elim
  | done =>
      unfold step at hs
      rw [hpc] at hs
      cases hs
  | returned =>
      unfold step at hs
      rw [hpc] at hs
      cases hs

theorem Inv.rounds_le (h : t.Inv inp) : t.rounds ≤ 1 := by
  unfold Inv at h
  split at h
  · rw [h]
    exact Nat.zero_le 1
  · exact Nat.le_of_eq h.1
  · exact Nat.le_of_eq h.1
  · exact Nat.le_of_eq h.1
  · exact h.elim
  · exact h
  · exact h

theorem Inv.advances (h : t.Inv inp) (hs : t.step a = some t') : Advances t t' := by
  constructor
  · intro hpc hpc'
    obtain ⟨-, hap, -⟩ := (inv_up hpc).mp h
    rcases step_up hpc hap hs with ⟨dst, rfl⟩ | rfl | ⟨hroom, rfl⟩
    · cases hpc'
    · cases hpc'
    · exact ⟨rfl, rfl, hroom⟩
  · intro hpc hpc'
    obtain ⟨-, hap⟩ := (inv_down hpc).mp h
    rcases step_down hpc hap hs with ⟨src, rfl⟩ | ⟨hroom, rfl⟩
    · cases hpc'
    · exact ⟨Nat.sub_add_cancel (by omega), rfl, Nat.le_sub_of_add_le hroom⟩

/-- Only where the loops have been left is there no next step. -/
theorem step_of_not_final (t : Cursors) (h : ¬t.pc.Final) (a : Answer) :
    ∃ t', t.step a = some t' := by
  rw [← Option.isSome_iff_exists]
  unfold step
  cases hpc : t.pc with
  | done => exact absurd (Or.inl hpc) h
  | returned => exact absurd (Or.inr hpc) h
  | outer => dsimp only; split <;> rfl
  | up => dsimp only; split_ifs <;> rfl
  | down => dsimp only; split_ifs <;> rfl
  | test => dsimp only; split <;> rfl
  | swap => dsimp only; split <;> rfl

/-! ## Runs -/

/-- A range has fewer than `2 ^ 20` pages, its size being a 32-bit number. -/
theorem rank_start (inp : Input) : (start inp).rank ≤ 2 ^ 20 + 3 := by
  show (inp.rangeEnd - inp.addr) / 4096 + 4 ≤ 2 ^ 20 + 3
  have hend : inp.rangeEnd ≤ inp.addr + inp.length * 4096 % 2 ^ 32 := Nat.mod_le ..
  have hsize : inp.length * 4096 % 2 ^ 32 < 2 ^ 32 := Nat.mod_lt _ (by decide)
  omega

theorem run_inv {as : List Answer} (h : runs step (start inp) as = some t) :
    t.Inv inp ∧ as.length ≤ 2 ^ 20 + 3 := by
  have hstart : (start inp).Inv inp := rfl
  obtain ⟨hinv, hlen⟩ := runs_rank hstart step_inv as t h
  have hrank := rank_start inp
  exact ⟨hinv, by omega⟩

end Cursors

/-! ## The code is a run -/

/-- The variables of a call that steer its loops. -/
def Compaction.cursors (c : Compaction) (pc : Pc) (n : Nat) : Cursors :=
  ⟨pc, c.i, c.j, c.toAddr, c.fromAddr, n⟩

/-- What the address space of a call answers. -/
def Compaction.answer (c : Compaction) (copied : Bool) : Answer :=
  ⟨fun x => (c.space.mtreeLoad x).isSome, copied⟩

/-- The machine, started at `t`, gets to where `r` is: to `arrive` if the call is still in the
code, out of the loops if it has returned. A call that used up its fuel took a step for each. -/
def Follows (t : Cursors) (fuel : Nat) (r : Option CompactExit × Compaction)
    (arrive : Compaction → Nat → Cursors) : Prop :=
  ∃ as t', runs Cursors.step t as = some t'
    ∧ (r.1 = none ∧ (∃ n, t' = arrive r.2 n)
      ∨ r.1 = some .running ∧ fuel ≤ as.length
      ∨ (∃ e n, r.1 = some e ∧ e ≠ .running ∧ t' = r.2.cursors .returned n))

section

variable {K : Kernel} {R : Option VmAreaStruct → Nat → Space → Option Space} {inp : Input}
variable {t u : Cursors} {fuel : Nat} {r : Option CompactExit × Compaction}
variable {arrive arrive' : Compaction → Nat → Cursors}

theorem Follows.out_of_fuel (t : Cursors) (c : Compaction) :
    Follows t 0 (some .running, c) arrive :=
  ⟨[], t, rfl, Or.inr (Or.inl ⟨rfl, Nat.le_refl 0⟩)⟩

theorem Follows.arrived {n : Nat} (a : Answer) (hr : r.1 = none)
    (hs : t.step a = some (arrive r.2 n)) : Follows t fuel r arrive :=
  ⟨[a], arrive r.2 n, (runs_singleton ..).trans hs, Or.inl ⟨hr, n, rfl⟩⟩

theorem Follows.returned {n : Nat} {e : CompactExit} (a : Answer) (hr : r.1 = some e)
    (hne : r.1 ≠ some .running) (hs : t.step a = some (r.2.cursors .returned n)) :
    Follows t fuel r arrive := by
  rw [hr] at hne
  have he : e ≠ .running := fun he => hne (congrArg some he)
  exact ⟨[a], r.2.cursors .returned n, (runs_singleton ..).trans hs,
    Or.inr (Or.inr ⟨e, n, hr, he, rfl⟩)⟩

theorem Follows.mono (h : Follows t fuel r arrive) {fuel' : Nat} (hle : fuel' ≤ fuel) :
    Follows t fuel' r arrive := by
  obtain ⟨as, t', hrun, hcases⟩ := h
  refine ⟨as, t', hrun, ?_⟩
  rcases hcases with hnone | ⟨hrunning, hlen⟩ | hret
  · exact Or.inl hnone
  · exact Or.inr (Or.inl ⟨hrunning, Nat.le_trans hle hlen⟩)
  · exact Or.inr (Or.inr hret)

/-- A step, and what follows. -/
theorem Follows.step (a : Answer) (hs : t.step a = some u) (h : Follows u fuel r arrive) :
    Follows t (fuel + 1) r arrive := by
  obtain ⟨as, t', hrun, hcases⟩ := h
  have hrun' : runs Cursors.step t (a :: as) = some t' := by
    rw [← List.singleton_append, runs_append, runs_singleton, hs]
    exact hrun
  refine ⟨a :: as, t', hrun', ?_⟩
  rcases hcases with hnone | ⟨hrunning, hlen⟩ | hret
  · exact Or.inl hnone
  · exact Or.inr (Or.inl ⟨hrunning, Nat.succ_le_succ hlen⟩)
  · exact Or.inr (Or.inr hret)

/-- One piece of the code after the other. -/
theorem Follows.andThen (h : Follows t fuel r arrive)
    {f : Compaction → Option CompactExit × Compaction}
    (hf : ∀ c n, Follows (arrive c n) fuel (f c) arrive') :
    Follows t fuel (Vma.andThen r f) arrive' := by
  obtain ⟨as, t', hrun, hcases⟩ := h
  rcases hcases with ⟨hnone, n, rfl⟩ | ⟨hrunning, hlen⟩ | ⟨e, n, hsome, hne, ht⟩
  · rw [andThen_none hnone]
    obtain ⟨bs, u', hrun', hcases'⟩ := hf r.2 n
    refine ⟨as ++ bs, u', by rw [runs_append, hrun]; exact hrun', ?_⟩
    rcases hcases' with hn | ⟨hr, hlen⟩ | hret
    · exact Or.inl hn
    · refine Or.inr (Or.inl ⟨hr, ?_⟩)
      rw [List.length_append]
      omega
    · exact Or.inr (Or.inr hret)
  · rw [andThen_some hrunning]
    exact ⟨as, t', hrun, Or.inr (Or.inl ⟨rfl, hlen⟩)⟩
  · rw [andThen_some hsome]
    exact ⟨as, t', hrun, Or.inr (Or.inr ⟨e, n, rfl, hne, ht⟩)⟩

theorem andThen_ne_running {f : Compaction → Option CompactExit × Compaction}
    (h : r.1 ≠ some .running) (hf : ∀ c, (f c).1 ≠ some .running) :
    (andThen r f).1 ≠ some .running := by
  cases hexit : r.1 with
  | none =>
      rw [andThen_none hexit]
      exact hf r.2
  | some e =>
      rw [andThen_some hexit]
      rw [hexit] at h
      exact h

theorem writeEntry_ne_running (K : Kernel) (inp : Input) (index : Nat) (c : Compaction) :
    (writeEntry K inp index c).1 ≠ some .running := by
  unfold writeEntry
  dsimp only
  split
  · simp
  · simp

/-- The code below the test leaves the cursors where they are, and does not loop. -/
theorem swapPages_cursors (inp : Input) (vma : Option VmAreaStruct) (c : Compaction) :
    (swapPages K R inp vma c).2.cursors = c.cursors
      ∧ (swapPages K R inp vma c).1 ≠ some .running := by
  unfold swapPages
  split
  · exact ⟨rfl, by simp⟩
  split
  · exact ⟨rfl, by simp⟩
  split
  · exact ⟨rfl, by simp⟩
  refine ⟨?_, andThen_ne_running (writeEntry_ne_running _ _ _ _)
    fun _ => writeEntry_ne_running _ _ _ _⟩
  cases hfirst : (writeEntry K inp (tableIndex inp c.fromAddr) _).1 with
  | none =>
      rw [andThen_none hfirst]
      rfl
  | some e =>
      rw [andThen_some hfirst]
      rfl

theorem swapPages_follows (inp : Input) (vma : Option VmAreaStruct) (fuel : Nat) (c : Compaction)
    (n : Nat) : Follows (c.cursors .swap n) fuel (swapPages K R inp vma c)
      (fun c n => c.cursors .outer n) := by
  obtain ⟨hcur, hrun⟩ := swapPages_cursors (K := K) (R := R) inp vma c
  cases hexit : (swapPages K R inp vma c).1 with
  | none =>
      refine Follows.arrived (n := n) (c.answer true) hexit ?_
      rw [hcur]
      rfl
  | some e =>
      refine Follows.returned (n := n) (c.answer false) hexit hrun ?_
      rw [hcur]
      rfl

/-- A mapped page: its entry is written, and `i` moves on; or it is not, and the call returns. -/
theorem mapped_page_follows {c : Compaction} {n : Nat} (hlt : c.i < c.j)
    (hmapped : (c.space.mtreeLoad c.i).isNone = false) (hcur : r.2.cursors = c.cursors)
    (hrunning : r.1 ≠ some .running) {f : Compaction → Option CompactExit × Compaction}
    (hf : ∀ c, Follows ({ c with i := (c.i + 4096) % 2 ^ 64 }.cursors .up n) fuel (f c) arrive) :
    Follows (c.cursors .up n) (fuel + 1) (andThen r f) arrive := by
  have hsome : ¬(!(c.space.mtreeLoad c.i).isSome) = true := by
    rw [Option.not_isSome, hmapped]
    exact Bool.false_ne_true
  cases hexit : r.1 with
  | none =>
      have hr : r.2.cursors .up n = c.cursors .up n := by rw [hcur]
      have hstep : (r.2.cursors .up n).step (c.answer true)
          = some ({ r.2 with i := (r.2.i + 4096) % 2 ^ 64 }.cursors .up n) := by
        obtain ⟨-, hi, hj, hto, hfrom, -⟩ := Cursors.mk.inj hr
        unfold Compaction.cursors Compaction.answer Cursors.step
        dsimp only
        rw [hi, hj, hto, hfrom, if_pos hlt, if_neg hsome, if_pos rfl]
      rw [andThen_none hexit, ← hr]
      exact Follows.step (c.answer true) hstep (hf r.2)
  | some e =>
      rw [hexit] at hrunning
      rw [andThen_some hexit]
      refine Follows.returned (n := n) (c.answer false) rfl hrunning ?_
      rw [hcur]
      exact (if_pos hlt).trans ((if_neg hsome).trans rfl)

theorem scanUp_follows (inp : Input) (fuel : Nat) (c : Compaction) (n : Nat) :
    Follows (c.cursors .up n) fuel (scanUp K inp fuel c)
      (fun c n => { c with j := c.fromAddr }.cursors .down n) := by
  induction fuel generalizing c with
  | zero => exact Follows.out_of_fuel _ c
  | succ fuel ih =>
      rw [scanUp]
      split
      swap
      · rename_i hlt
        exact Follows.arrived (n := n) (c.answer true) rfl (if_neg hlt)
      rename_i hlt
      split
      · rename_i hnone
        refine Follows.arrived (n := n) (c.answer true) rfl ((if_pos hlt).trans (if_pos ?_))
        show (!(c.space.mtreeLoad c.i).isSome) = true
        rw [Option.isNone_iff_eq_none.mp hnone]
        rfl
      · rename_i hsome
        refine mapped_page_follows hlt (Bool.eq_false_iff.mpr hsome) ?_
          (writeEntry_ne_running _ _ _ _) fun c => ih { c with i := (c.i + 4096) % 2 ^ 64 }
        -- the entry written is no concern of the cursors
        rfl

theorem scanDown_follows (fuel : Nat) (c : Compaction) (n : Nat) :
    Follows (c.cursors .down n) fuel (scanDown fuel c) (fun c n => c.cursors .test n) := by
  induction fuel generalizing c with
  | zero => exact Follows.out_of_fuel _ c
  | succ fuel ih =>
      rw [scanDown]
      split
      swap
      · rename_i hlt
        exact Follows.arrived (n := n) (c.answer true) rfl (if_neg hlt)
      rename_i hlt
      split
      · rename_i hsome
        exact Follows.arrived (n := n) (c.answer true) rfl ((if_pos hlt).trans (if_pos hsome))
      · rename_i hnone
        have hstep : (c.cursors .down n).step (c.answer true)
            = some ({ c with j := (c.j + 2 ^ 64 - 4096) % 2 ^ 64 }.cursors .down n) := by
          unfold Compaction.cursors Compaction.answer Cursors.step
          dsimp only
          rw [if_pos hlt, if_neg hnone]
        exact Follows.step (c.answer true) hstep (ih _)

/-- The loops are a run of the machine. -/
theorem compactLoop_follows (inp : Input) (vma : Option VmAreaStruct) (fuel : Nat)
    (hfuel : fuel ≤ compactFuel) (c : Compaction) (n : Nat) :
    Follows (c.cursors .outer n) fuel (compactLoop K R inp vma fuel c)
      (fun c n => c.cursors .done n) := by
  induction fuel generalizing c n with
  | zero => exact Follows.out_of_fuel _ c
  | succ fuel ih =>
      have hle : fuel ≤ compactFuel := Nat.le_of_succ_le hfuel
      rw [compactLoop]
      split
      swap
      · rename_i hlt
        exact Follows.arrived (n := n) (c.answer true) rfl (if_neg hlt)
      rename_i hlt
      have hup := scanUp_follows (K := K) inp compactFuel { c with i := c.toAddr } (n + 1)
      refine Follows.step (c.answer true) (if_pos hlt) ((hup.mono hle).andThen fun c n => ?_)
      refine ((scanDown_follows compactFuel _ n).mono hle).andThen fun c n => ?_
      split
      · rename_i hge
        exact Follows.arrived (n := n) (c.answer true) rfl (if_pos hge)
      · rename_i hlt'
        have hswap := (swapPages_follows (K := K) (R := R) inp vma fuel c n).andThen (ih hle)
        have hstep : (c.cursors .test n).step (c.answer true) = some (c.cursors .swap n) :=
          if_neg hlt'
        exact (Follows.step (c.answer true) hstep hswap).mono (Nat.le_succ fuel)

/-- The fuel of the loops is never used up. -/
theorem compactLoop_ne_running (inp : Input) (s : Space) (vma : Option VmAreaStruct) :
    (compactLoop K R inp vma compactFuel (Compaction.start inp s)).1 ≠ some .running := by
  intro hrunning
  obtain ⟨as, t', hrun, hcases⟩ := compactLoop_follows (K := K) (R := R) inp vma compactFuel
    (Nat.le_refl _) (Compaction.start inp s) 0
  have hlong : compactFuel ≤ as.length := by
    rcases hcases with ⟨hnone, -⟩ | ⟨-, hlen⟩ | ⟨e, n, hsome, hne, -⟩
    · rw [hrunning] at hnone
      cases hnone
    · exact hlen
    · rw [hrunning] at hsome
      exact absurd (Option.some.inj hsome).symm hne
  have hstart : (Compaction.start inp s).cursors .outer 0 = Cursors.start inp := rfl
  rw [hstart] at hrun
  obtain ⟨-, hshort⟩ := Cursors.run_inv hrun
  have hfuel : 2 ^ 20 + 3 < compactFuel := by decide
  omega

/-- Compaction ends, whatever is mapped and whatever copies fail: the loops are left after at
most `2 ^ 20 + 3` steps, the cursors never pass each other, and one round is all there is. -/
theorem compaction_ends (inp : Input) :
    (∀ answers : Nat → Answer, ∃ n t,
        runs Cursors.step (Cursors.start inp) ((List.range n).map answers) = some t ∧ t.pc.Final)
      ∧ (∀ as t, runs Cursors.step (Cursors.start inp) as = some t →
        as.length ≤ 2 ^ 20 + 3 ∧ t.rounds ≤ 1
          ∧ (t.pc = .test → t.i ≤ t.j ∧ t.i % 4096 = t.j % 4096)
          ∧ ∀ a t', t.step a = some t' → Cursors.Advances t t')
      ∧ ∀ (K : Kernel) (R : Option VmAreaStruct → Nat → Space → Option Space) (s : Space),
        (compact K R inp s).1 ≠ some .running := by
  refine ⟨?_, ?_, ?_⟩
  · exact runs_ends (fun as t h => (Cursors.run_inv h).2) Cursors.step_of_not_final
  · intro as t h
    obtain ⟨hinv, hlen⟩ := Cursors.run_inv h
    refine ⟨hlen, hinv.rounds_le, ?_, fun a t' hs => hinv.advances hs⟩
    intro hpc
    obtain ⟨-, hap⟩ := (Cursors.inv_test hpc).mp hinv
    exact ⟨hap.le, hap.pages⟩
  · intro K R s
    exact andThen_ne_running (compactLoop_ne_running inp s _) (writeEntry_ne_running K inp _)

/-- Two free pages: the scan down meets `i`, and control is at the test. -/
example : (runs Cursors.step (Cursors.start ⟨0x1000, 2, 0⟩)
    (List.replicate 5 ⟨fun _ => false, true⟩)).map (fun t => (t.pc, t.i, t.j))
      = some (.test, 0x1000, 0x1000) := by decide

end

end LinuxDrivers.Vma
