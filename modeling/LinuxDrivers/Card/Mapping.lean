import LinuxDrivers.Lib.Run
import LinuxDrivers.Lib.History

/-!
# Mapping the card into a process

`map_card` and `unmap_card` of `crypter.c`. A mapping of `size` bytes starts with the
card's registers, so `map_card` asks the kernel for `size + 0xa8` bytes and returns the
address past the registers; what it keeps for later is `size`, in one global.
`unmap_card` gives back `map_size` bytes from the start of the mapping: the size of
whichever mapping was made last, and without the registers.

Whether that takes down the right pages depends on the order of the calls, on the sizes
and on what the kernel placed behind the mapping. Pages carry the mapping they belong to,
so that it can be said which ones stay and which ones go; the kernel's choice of a place
arrives with the call.
-/

namespace LinuxDrivers.Card

/-- What a mapped page of the process belongs to. -/
inductive Owner where
  /-- The mapping made by the `id`-th successful `map_card`. -/
  | card (id : Nat)
  /-- Anything else in the address space. -/
  | other
  deriving DecidableEq

/-- `mmap` and `munmap` round lengths up to whole pages. -/
def pagesOf (len : Nat) : Nat := (len + 4095) / 4096

/-- A mapping that has not been unmapped yet. -/
structure Mapping where
  id : Nat
  /-- The page it starts at. -/
  page : Nat
  /-- The size asked for. -/
  size : Nat
  deriving DecidableEq

/-- The address `map_card` returned. -/
def Mapping.addr (m : Mapping) : Nat := m.page * 4096 + 0xa8

/-- How many pages `map_card` mapped. -/
def Mapping.pages (m : Mapping) : Nat := pagesOf (m.size + 0xa8)

structure Process where
  owner : Nat → Option Owner
  /-- The global `map_size`. -/
  mapSize : Nat
  /-- The mappings returned and not given back. -/
  live : List Mapping
  /-- How many mappings have been made. -/
  made : Nat

/-- `mmap(NULL, …)`, placed at `page`. -/
def mmap (owner : Nat → Option Owner) (o : Owner) (page n : Nat) : Nat → Option Owner :=
  fun p => if page ≤ p ∧ p < page + n then some o else owner p

/-- `munmap(addr, len)`; an address inside a page is refused. -/
def munmap (owner : Nat → Option Owner) (addr len : Nat) : Nat → Option Owner :=
  if addr % 4096 = 0 then
    fun p => if addr / 4096 ≤ p ∧ p < addr / 4096 + pagesOf len then none else owner p
  else owner

/-- `map_card`; `placed` is where the kernel puts the mapping, if `mmap` does not fail. -/
def mapCard (size : Nat) (placed : Option Nat) (s : Process) : Option Nat × Process :=
  if size ≤ 0x100000 - 0xa8 then
    match placed with
    | none => (none, s)
    | some page =>
      let m : Mapping := ⟨s.made, page, size⟩
      (some (page * 4096 + 0xa8),
        { owner := mmap s.owner (.card s.made) page (pagesOf (size + 0xa8))
          mapSize := size
          live := m :: s.live
          made := s.made + 1 })
  else (none, s)

/-- `unmap_card`, of the mapping `m` that `map_card` returned `addr` for. -/
def unmapCard (addr : Nat) (m : Mapping) (s : Process) : Process :=
  { s with
    owner := munmap s.owner (addr - 0xa8) s.mapSize
    live := s.live.filter (·.id != m.id) }

inductive MapCall where
  | mapCard (size : Nat) (placed : Option Nat)
  | unmapCard (addr : Nat)
  deriving DecidableEq

/-- No page of the range is mapped. -/
def free (owner : Nat → Option Owner) (page n : Nat) : Bool :=
  (List.range' page n).all fun p => (owner p).isNone

/-- The kernel places mappings on free pages only, and callers give back only addresses they
were given. -/
def Process.step (s : Process) : MapCall → Option Process
  | .mapCard size placed =>
    if placed.all (fun page => free s.owner page (pagesOf (size + 0xa8))) then
      some (mapCard size placed s).2
    else none
  | .unmapCard addr =>
    (s.live.find? (·.addr == addr)).map fun m => unmapCard addr m s

/-- Before the first call: nothing in the address space is a card mapping. -/
structure Process.Initial (s : Process) : Prop where
  live : s.live = []
  owner : ∀ p id, s.owner p ≠ some (.card id)

/-! ## What an unmap should do -/

/-- The owner still has its mapping. -/
def Process.Live (s : Process) : Owner → Prop
  | .card id => ∃ m ∈ s.live, m.id = id
  | .other => True

/-- `s'` is `s` without exactly the pages of `m`: none of them stays mapped, and no page of
another live mapping goes. -/
structure Released (s s' : Process) (m : Mapping) : Prop where
  gone : ∀ p, s'.owner p ≠ some (.card m.id)
  kept : ∀ p o, s.owner p = some o → s.Live o → o ≠ .card m.id → s'.owner p = some o

/-- An unmap releases exactly its mapping. -/
def ReleasesExactly (s : Process) : MapCall → Prop
  | .mapCard _ _ => True
  | .unmapCard addr => ∀ m, s.live.find? (·.addr == addr) = some m →
      Released s (unmapCard addr m s) m

/-- The size kept from the last mapping covers the one to be unmapped, registers included,
and between its end and where that size reaches there is no page of a live mapping. -/
def SizeFits (s : Process) : MapCall → Prop
  | .mapCard _ _ => True
  | .unmapCard addr => ∀ m, s.live.find? (·.addr == addr) = some m →
      m.pages ≤ pagesOf s.mapSize ∧
      ∀ p o, m.page + m.pages ≤ p → p < m.page + pagesOf s.mapSize → s.owner p = some o → ¬s.Live o

/-! ## One call -/

/-- While all unmaps have been exact, the live mappings have the pages they were given. -/
structure Process.Inv (s : Process) : Prop where
  /-- A live mapping owns its own pages, and no others. -/
  pages : ∀ m ∈ s.live, ∀ p, s.owner p = some (.card m.id) ↔ m.page ≤ p ∧ p < m.page + m.pages
  /-- Nothing is owned by a mapping still to be made. -/
  fresh : ∀ p id, s.owner p = some (.card id) → id < s.made
  /-- The live mappings have been made. -/
  ids : ∀ m ∈ s.live, m.id < s.made

theorem Process.Initial.inv {s : Process} (h : s.Initial) : s.Inv where
  pages := by simp [h.live]
  fresh := fun p id hp => absurd hp (h.owner p id)
  ids := by simp [h.live]

theorem pages_pos (m : Mapping) : 0 < m.pages := by
  unfold Mapping.pages pagesOf
  omega

/-- What `munmap` does from the start of a mapping. -/
theorem munmap_mapping (owner : Nat → Option Owner) (m : Mapping) (len p : Nat) :
    munmap owner (m.addr - 0xa8) len p
      = if m.page ≤ p ∧ p < m.page + pagesOf len then none else owner p := by
  have haddr : m.addr - 0xa8 = m.page * 4096 := by
    unfold Mapping.addr
    omega
  rw [haddr, munmap, if_pos (Nat.mul_mod_left _ _), Nat.mul_div_cancel _ (by decide)]

/-- Unmapping clears the pages that `map_size` reaches, whoever owns them. -/
theorem unmapCard_owner (s : Process) (m : Mapping) (p : Nat) :
    (unmapCard m.addr m s).owner p
      = if m.page ≤ p ∧ p < m.page + pagesOf s.mapSize then none else s.owner p := by
  simp only [unmapCard, munmap_mapping]

@[simp] theorem unmapCard_made (addr : Nat) (m : Mapping) (s : Process) :
    (unmapCard addr m s).made = s.made := by
  simp only [unmapCard]

theorem addr_of_find {s : Process} {addr : Nat} {m : Mapping}
    (hm : s.live.find? (·.addr == addr) = some m) : m ∈ s.live ∧ addr = m.addr := by
  have haddr := List.find?_some hm
  exact ⟨List.mem_of_find?_eq_some hm, (beq_iff_eq.mp haddr).symm⟩

/-- An exact unmap was given a size that reaches the end of its mapping, and past the end no
page of a live one. -/
theorem covers_of_released {s : Process} (h : s.Inv) {m : Mapping} (hlive : m ∈ s.live)
    (hrel : Released s (unmapCard m.addr m s) m) :
    m.pages ≤ pagesOf s.mapSize ∧ ∀ p o, m.page + m.pages ≤ p → p < m.page + pagesOf s.mapSize →
      s.owner p = some o → ¬s.Live o := by
  have hown := h.pages m hlive
  have hpos := pages_pos m
  -- the first page past what is given back would stay
  have hle : m.pages ≤ pagesOf s.mapSize := by
    by_contra hlt
    apply hrel.gone (m.page + pagesOf s.mapSize)
    rw [unmapCard_owner, if_neg (by omega)]
    exact (hown _).mpr ⟨by omega, by omega⟩
  refine ⟨hle, fun p o hp hp' ho hlo => ?_⟩
  have hne : o ≠ .card m.id := by
    rintro rfl
    have := (hown p).mp ho
    omega
  have hkept := hrel.kept p o ho hlo hne
  rw [unmapCard_owner, if_pos ⟨by omega, hp'⟩] at hkept
  cases hkept

theorem released_of_covers {s : Process} (h : s.Inv) {m : Mapping} (hlive : m ∈ s.live)
    (hle : m.pages ≤ pagesOf s.mapSize)
    (hextra : ∀ p o, m.page + m.pages ≤ p → p < m.page + pagesOf s.mapSize →
      s.owner p = some o → ¬s.Live o) :
    Released s (unmapCard m.addr m s) m := by
  have hown := h.pages m hlive
  constructor
  · intro p hp
    rw [unmapCard_owner] at hp
    split at hp
    · cases hp
    · rename_i hout
      have := (hown p).mp hp
      omega
  · intro p o ho hlo hne
    rw [unmapCard_owner, if_neg]
    · exact ho
    · rintro ⟨hlow, hhigh⟩
      rcases Nat.lt_or_ge p (m.page + m.pages) with hin | hpast
      · have hself := (hown p).mpr ⟨hlow, hin⟩
        rw [ho] at hself
        exact hne (Option.some.inj hself)
      · exact hextra p o hpast hhigh ho hlo

/-- **One unmap is exact just when the size fits.** -/
theorem releasesExactly_iff {s : Process} (h : s.Inv) (c : MapCall) :
    ReleasesExactly s c ↔ SizeFits s c := by
  cases c with
  | mapCard size placed => exact Iff.rfl
  | unmapCard addr =>
      refine forall_congr' fun m => imp_congr_right fun hm => ?_
      obtain ⟨hlive, rfl⟩ := addr_of_find hm
      constructor
      · exact covers_of_released h hlive
      · rintro ⟨hle, hextra⟩
        exact released_of_covers h hlive hle hextra

theorem owner_of_free {owner : Nat → Option Owner} {page n p : Nat}
    (hfree : free owner page n = true) (hlow : page ≤ p) (hhigh : p < page + n) :
    owner p = none := by
  have := List.all_eq_true.mp hfree p (by simp [List.mem_range'_1]; omega)
  exact Option.isNone_iff_eq_none.mp this

/-- `map_card` does nothing, or makes the mapping where the kernel placed it. -/
theorem mapCard_cases (size : Nat) (placed : Option Nat) (s : Process) :
    (mapCard size placed s).2 = s ∨ ∃ page, placed = some page ∧ (mapCard size placed s).2 =
      Process.mk (mmap s.owner (.card s.made) page (pagesOf (size + 0xa8))) size
        (⟨s.made, page, size⟩ :: s.live) (s.made + 1) := by
  unfold mapCard
  rcases Decidable.em (size ≤ 0x100000 - 0xa8) with hsize | hsize
  · simp only [if_pos hsize]
    cases placed with
    | none => exact Or.inl rfl
    | some page => exact Or.inr ⟨page, rfl, rfl⟩
  · simp only [if_neg hsize]
    exact Or.inl trivial

/-- Who owns a page after a mapping was made. -/
theorem mmap_eq_card_iff (owner : Nat → Option Owner) {new page n p id : Nat} :
    mmap owner (.card new) page n p = some (.card id)
      ↔ if page ≤ p ∧ p < page + n then id = new else owner p = some (.card id) := by
  unfold mmap
  split
  · simp [eq_comm]
  · rfl

/-- A new mapping gets free pages, so it takes none from a live one. -/
theorem inv_mapCard {s : Process} (h : s.Inv) {size page : Nat}
    (hfree : free s.owner page (pagesOf (size + 0xa8)) = true) :
    (Process.mk (mmap s.owner (.card s.made) page (pagesOf (size + 0xa8))) size
      (⟨s.made, page, size⟩ :: s.live) (s.made + 1)).Inv := by
  constructor
  · intro m hm p
    refine (mmap_eq_card_iff s.owner).trans ?_
    rcases List.mem_cons.mp hm with rfl | hold
    · -- the new mapping: nothing was its own before
      dsimp only [Mapping.pages]
      split
      · rename_i hin; simp [hin]
      · rename_i hout
        refine iff_of_false (fun hp => ?_) hout
        exact absurd (h.fresh p _ hp) (Nat.lt_irrefl _)
    · have hid := h.ids m hold
      split
      · rename_i hin
        refine iff_of_false (by omega) (fun hp => ?_)
        have hsome := (h.pages m hold p).mpr hp
        rw [owner_of_free hfree hin.1 hin.2] at hsome
        cases hsome
      · exact h.pages m hold p
  · intro p id hp
    replace hp := (mmap_eq_card_iff s.owner).mp hp
    dsimp only
    split at hp
    · omega
    · exact Nat.lt_succ_of_lt (h.fresh p id hp)
  · intro m hm
    rcases List.mem_cons.mp hm with rfl | hold
    · exact Nat.lt_succ_self _
    · exact Nat.lt_succ_of_lt (h.ids m hold)

/-- An exact unmap leaves the other live mappings as they were. -/
theorem inv_unmapCard {s : Process} (h : s.Inv) {addr : Nat} {m : Mapping}
    (hm : s.live.find? (·.addr == addr) = some m) (hrel : Released s (unmapCard addr m s) m) :
    (unmapCard addr m s).Inv := by
  obtain ⟨-, rfl⟩ := addr_of_find hm
  -- unmapping gives no page to anybody
  have hback : ∀ p o, (unmapCard m.addr m s).owner p = some o → s.owner p = some o := by
    intro p o hp
    rw [unmapCard_owner] at hp
    split at hp
    · cases hp
    · exact hp
  have hlive : ∀ m' ∈ (unmapCard m.addr m s).live, m' ∈ s.live ∧ m'.id ≠ m.id := by
    intro m' hm'
    simpa [unmapCard] using hm'
  constructor
  · intro m' hm' p
    obtain ⟨hold, hne⟩ := hlive m' hm'
    rw [← h.pages m' hold p]
    refine ⟨hback p _, fun hp => hrel.kept p _ hp ⟨m', hold, rfl⟩ ?_⟩
    simpa using hne
  · intro p id hp
    rw [unmapCard_made]
    exact h.fresh p id (hback p _ hp)
  · intro m' hm'
    rw [unmapCard_made]
    exact h.ids m' (hlive m' hm').1

theorem step_inv {s s' : Process} (h : s.Inv) {c : MapCall} (hc : ReleasesExactly s c)
    (hs : s.step c = some s') : s'.Inv := by
  cases c with
  | mapCard size placed =>
      rw [Process.step] at hs
      split at hs
      · rename_i hfree
        obtain rfl := Option.some.inj hs
        rcases mapCard_cases size placed s with heq | ⟨page, rfl, heq⟩
        · rw [heq]
          exact h
        · rw [heq]
          rw [Option.all_some] at hfree
          exact inv_mapCard h hfree
      · cases hs
  | unmapCard addr =>
      obtain ⟨m, hm, rfl⟩ := Option.map_eq_some_iff.mp hs
      exact inv_unmapCard h hm (hc m hm)

/-! ## Whole runs -/

/-- `P` holds of a call in the state the calls before it lead to. -/
def InRun (s₀ : Process) (P : Process → MapCall → Prop) (pre : List MapCall) (c : MapCall) : Prop :=
  ∀ s, runs Process.step s₀ pre = some s → P s c

theorem run_inv {s₀ : Process} (h₀ : s₀.Initial) (h : List MapCall) :
    Along (InRun s₀ ReleasesExactly) h → ∀ s, runs Process.step s₀ h = some s → s.Inv := by
  refine runs_inv h₀.inv ?_ h
  intro pre s c s' hs hinv hc hstep
  exact step_inv hinv (hc s hs) hstep

/-- **When mappings are released exactly.** In a run of `map_card` and `unmap_card`, every unmap
takes down exactly its own mapping, if and only if the kept size fits at every unmap. -/
theorem released_exactly_iff {s₀ : Process} (h₀ : s₀.Initial) (h : List MapCall) :
    Along (InRun s₀ ReleasesExactly) h ↔ Along (InRun s₀ SizeFits) h := by
  apply along_congr
  intro pre c hrel _
  refine forall_congr' fun s => imp_congr_right fun hs => ?_
  exact releasesExactly_iff (run_inv h₀ pre hrel s hs) c

/-- A process with nothing mapped. -/
def emptyProcess : Process := ⟨fun _ => none, 0, [], 0⟩

theorem emptyProcess_initial : emptyProcess.Initial := ⟨rfl, by simp [emptyProcess]⟩

/-- One mapping of 4096 bytes: two pages, from page 16 on. -/
def onePage : List MapCall := [.mapCard 4096 (some 16)]

/-- A mapping of 100 bytes, and one of 8192 bytes right behind it. -/
def neighbours : List MapCall := [.mapCard 100 (some 16), .mapCard 8192 (some 17)]

/-- Unmapping 4096 bytes leaves the second page mapped. Unmapping the smaller neighbour takes
the first page of the larger one with it. -/
theorem unmap_leaks_and_tears :
    (∃ s, runs Process.step emptyProcess (onePage ++ [.unmapCard 65704]) = some s
      ∧ s.live = [] ∧ s.owner 17 = some (.card 0)) ∧
    (∃ s, runs Process.step emptyProcess (neighbours ++ [.unmapCard 65704]) = some s
      ∧ s.live = [⟨1, 17, 8192⟩] ∧ s.owner 17 = none) ∧
    ¬Along (InRun emptyProcess ReleasesExactly) (onePage ++ [.unmapCard 65704]) ∧
    ¬Along (InRun emptyProcess ReleasesExactly) (neighbours ++ [.unmapCard 65704]) := by
  refine ⟨⟨_, rfl, rfl, by decide⟩, ⟨_, rfl, rfl, by decide⟩, fun hall => ?_, fun hall => ?_⟩
  · have hrel := (along_snoc.mp hall).2 _ rfl ⟨0, 16, 4096⟩ rfl
    exact hrel.gone 17 (by decide)
  · have hrel := (along_snoc.mp hall).2 _ rfl ⟨0, 16, 100⟩ rfl
    have hkept := hrel.kept 17 (.card 1) rfl ⟨⟨1, 17, 8192⟩, by decide, rfl⟩ (by decide)
    exact absurd hkept (by decide)

/-- A mapping of 3000 bytes is released exactly. -/
theorem small_mapping_released :
    Along (InRun emptyProcess ReleasesExactly) [.mapCard 3000 (some 16), .unmapCard 65704] := by
  refine (released_exactly_iff emptyProcess_initial _).mpr ?_
  have hmap : Along (InRun emptyProcess SizeFits) ([] ++ [.mapCard 3000 (some 16)]) :=
    along_snoc.mpr ⟨along_nil _, fun _ _ => trivial⟩
  have hunmap : InRun emptyProcess SizeFits [.mapCard 3000 (some 16)] (.unmapCard 65704) := by
    intro s hs m hm
    cases hs
    obtain rfl : m = ⟨0, 16, 3000⟩ := by cases hm; rfl
    -- one page was mapped and one page is given back
    refine ⟨by decide, fun p o hp hp' _ _ => ?_⟩
    have hlast : p < 17 := hp'
    have hfirst : 17 ≤ p := hp
    omega
  exact along_snoc.mpr ⟨hmap, hunmap⟩

end LinuxDrivers.Card
