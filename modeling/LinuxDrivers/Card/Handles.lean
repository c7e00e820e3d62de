import LinuxDrivers.Card.Driver

/-!
# Open-handle accounting

The driver counts its open files twice: in `device_opened`, and in the references it
holds on its own module. Both counts are meant to be the number of handles that were
opened and not yet released.

What they are is the number of those handles plus the number of open attempts that
failed for want of memory, ever since the card was probed: `cryptocard_fopen` counts
before it allocates, and a failed open has no release that would count it off.
-/

namespace LinuxDrivers.Card

/-! ## The handles, by the history -/

/-- What a history of calls says about the handles. -/
structure Ledger where
  /-- Opened and not yet released. -/
  handles : Finset Nat
  /-- How many open attempts got no memory. -/
  failed : Nat

def Ledger.empty : Ledger := ⟨∅, 0⟩

/-- A handle in use is not opened again, and only a handle in use can be released. -/
def Ledger.record (l : Ledger) (e : Event) : Ledger :=
  match e.call with
  | .fopen mem =>
    if e.fd ∈ l.handles then l
    else
      match mem with
      | none => { l with failed := l.failed + 1 }
      | some _ => { l with handles := insert e.fd l.handles }
  | .ioctl _ => l
  | .frelease => { l with handles := l.handles.erase e.fd }

def ledger (hist : List Event) : Ledger := hist.foldl Ledger.record Ledger.empty

theorem ledger_snoc (hist : List Event) (e : Event) :
    ledger (hist ++ [e]) = (ledger hist).record e := by
  unfold ledger
  rw [List.foldl_append]
  rfl

/-- What `atomic_read` returns of a counter: an `atomic_t` is 32 bits wide and wraps around. -/
def atomicRead (count : Int) : Int := count.bmod (2 ^ 32)

/-- Both counts are the number of open handles. -/
structure Accounted (hist : List Event) (s : Sys) : Prop where
  opened : atomicRead s.deviceOpened = (ledger hist).handles.card
  refs : s.moduleRefs = (ledger hist).handles.card

theorem atomicRead_eq_self_iff (n : Nat) : atomicRead n = n ↔ n < 2 ^ 31 := by
  unfold atomicRead
  rw [Int.bmod_eq_iff (by decide)]
  omega

/-! ## Calls that neither open nor release -/

/-- The counts are the same, and so are the open files. -/
structure SameHandles (s s' : Sys) : Prop where
  isOpen : ∀ fd, (s'.files fd).isSome = (s.files fd).isSome
  opened : s'.deviceOpened = s.deviceOpened
  refs : s'.moduleRefs = s.moduleRefs

theorem SameHandles.refl (s : Sys) : SameHandles s s := ⟨fun _ => rfl, rfl, rfl⟩

theorem SameHandles.setFile {s : Sys} {fd : Nat} (hopen : (s.files fd).isSome)
    (cfg : CryptocardConfig) : SameHandles s (s.setFile fd (some cfg)) := by
  refine ⟨fun x => ?_, rfl, rfl⟩
  show (Function.update s.files fd (some cfg) x).isSome = _
  rcases eq_or_ne x fd with rfl | hx
  · rw [Function.update_self, hopen]
    rfl
  · rw [Function.update_of_ne hx]

variable {E : Cipher} {s s' : Sys}

theorem cryptRequest_sameHandles {r : Routines} {env : Env} {pid : Nat} {cfg : CryptocardConfig}
    {op : CcOp} {ret : Int} (h : cryptRequest E r env pid cfg op s = some (ret, s')) :
    SameHandles s s' := by
  unfold cryptRequest at h
  split at h
  · cases h
  dsimp only at h
  split at h
  · split at h
    · cases h
    · split at h
      · cases h
        exact ⟨fun _ => rfl, rfl, rfl⟩
      · cases h
        exact ⟨fun _ => rfl, rfl, rfl⟩
  · split at h
    · cases h
    · cases h
      exact ⟨fun _ => rfl, rfl, rfl⟩

theorem cryptocardIoctl_sameHandles {env : Env} {pid fd : Nat} {cfg : CryptocardConfig} {cmd : Cmd}
    {ret : Int} (hopen : (s.files fd).isSome)
    (h : cryptocardIoctl E env pid fd cfg cmd s = some (ret, s')) : SameHandles s s' := by
  cases cmd with
  | setKey key =>
      cases h
      exact SameHandles.setFile hopen _
  | setConfig cfg =>
      cases h
      exact SameHandles.setFile hopen _
  | encrypt op => exact cryptRequest_sameHandles h
  | decrypt op => exact cryptRequest_sameHandles h
  | other n =>
      cases h
      exact SameHandles.refl s

/-! ## What the counts are -/

/-- The driver's files are the ledger's handles, and it counts those and the failed attempts. -/
structure Books (l : Ledger) (s : Sys) : Prop where
  isOpen : ∀ fd, fd ∈ l.handles ↔ (s.files fd).isSome
  opened : s.deviceOpened = l.handles.card + l.failed
  /-- The two counts are raised and lowered together. -/
  refs : s.moduleRefs = s.deviceOpened

theorem Books.opened_of_failed {l : Ledger} (h : Books l s) (hfailed : l.failed = 0) :
    s.deviceOpened = l.handles.card := by
  rw [h.opened, hfailed, Nat.cast_zero, add_zero]

theorem Sys.Initial.books {s₀ : Sys} (h₀ : s₀.Initial) : Books Ledger.empty s₀ where
  isOpen fd := by simp [Ledger.empty, h₀.files]
  opened := by simp [Ledger.empty, h₀.opened]
  refs := h₀.refs.trans h₀.opened.symm

theorem Books.of_sameHandles {l : Ledger} (h : Books l s) (hsame : SameHandles s s') :
    Books l s' where
  isOpen fd := by rw [hsame.isOpen, h.isOpen]
  opened := hsame.opened.trans h.opened
  refs := by rw [hsame.refs, hsame.opened, h.refs]

/-- The attempt is counted and there is no handle. -/
theorem Books.fopen_none {l : Ledger} (h : Books l s) (fd : Nat) :
    Books { l with failed := l.failed + 1 } (cryptocardFopen none fd s).2 where
  isOpen := h.isOpen
  opened := by
    show s.deviceOpened + 1 = _
    rw [h.opened]
    push_cast
    ring
  refs := congrArg (· + 1) h.refs

theorem Books.fopen_some {l : Ledger} (h : Books l s) {fd : Nat} (hfree : fd ∉ l.handles)
    (key : UInt8 × UInt8) :
    Books { l with handles := insert fd l.handles } (cryptocardFopen (some key) fd s).2 where
  isOpen x := by
    show x ∈ insert fd l.handles ↔ (Function.update s.files fd (some _) x).isSome
    rcases eq_or_ne x fd with rfl | hx
    · simp
    · rw [Finset.mem_insert, Function.update_of_ne hx, ← h.isOpen x]
      simp [hx]
  opened := by
    show s.deviceOpened + 1 = _
    rw [h.opened, Finset.card_insert_of_notMem hfree]
    push_cast
    ring
  refs := congrArg (· + 1) h.refs

theorem Books.frelease {l : Ledger} (h : Books l s) {fd : Nat} (hused : fd ∈ l.handles) :
    Books { l with handles := l.handles.erase fd } (cryptocardFrelease fd s).2 where
  isOpen x := by
    show x ∈ l.handles.erase fd ↔ (Function.update s.files fd none x).isSome
    rcases eq_or_ne x fd with rfl | hx
    · simp
    · rw [Finset.mem_erase, Function.update_of_ne hx, ← h.isOpen x]
      simp [hx]
  opened := by
    show s.deviceOpened - 1 = _
    rw [h.opened, ← Finset.card_erase_add_one hused]
    push_cast
    ring
  refs := congrArg (· - 1) h.refs

/-- Every call keeps the books. -/
theorem Books.step {l : Ledger} (h : Books l s) {e : Event} (hs : s.step E e = some s') :
    Books (l.record e) s' := by
  have hused := h.isOpen e.fd
  unfold Sys.step at hs
  unfold Ledger.record
  cases hc : e.call with
  | fopen mem =>
      cases hf : s.files e.fd with
      | some cfg =>
          -- a slot in use: the driver is not called
          rw [hc, hf] at hs
          cases hs
          dsimp only
          rw [if_pos (hused.mpr (by rw [hf]; rfl))]
          exact h
      | none =>
          rw [hc, hf] at hs
          cases hs
          have hfree : e.fd ∉ l.handles := by simp [hused, hf]
          dsimp only
          rw [if_neg hfree]
          cases mem with
          | none => exact h.fopen_none e.fd
          | some key => exact h.fopen_some hfree key
  | ioctl cmd =>
      cases hf : s.files e.fd with
      | none =>
          rw [hc, hf] at hs
          cases hs
          exact h
      | some cfg =>
          rw [hc, hf] at hs
          obtain ⟨⟨ret, t⟩, ht, rfl⟩ := Option.map_eq_some_iff.mp hs
          exact h.of_sameHandles (cryptocardIoctl_sameHandles (by rw [hf]; rfl) ht)
  | frelease =>
      cases hf : s.files e.fd with
      | none =>
          rw [hc, hf] at hs
          cases hs
          have hfree : e.fd ∉ l.handles := by simp [hused, hf]
          dsimp only
          rw [Finset.erase_eq_of_notMem hfree]
          exact h
      | some cfg =>
          rw [hc, hf] at hs
          cases hs
          exact h.frelease (hused.mpr (by rw [hf]; rfl))

/-- After any run the counts are the open handles and the failed attempts together. -/
theorem books_run {s₀ : Sys} (h₀ : s₀.Initial) (hist : List Event) :
    ∀ s, runs (Sys.step E) s₀ hist = some s → Books (ledger hist) s := by
  refine runs_track (P := fun hist s => Books (ledger hist) s) h₀.books ?_ hist
  intro hist s e s' _ h hs
  rw [ledger_snoc]
  exact h.step hs

/--
**When the counts are the number of open handles.**

In a state the driver reached by any calls, exactly if none of the open attempts failed for
want of memory and the open handles are no more than an `atomic_t` can count.
-/
theorem accounted_iff {s₀ s : Sys} (h₀ : s₀.Initial) {hist : List Event}
    (hs : runs (Sys.step E) s₀ hist = some s) :
    Accounted hist s
      ↔ (ledger hist).failed = 0 ∧ (ledger hist).handles.card < 2 ^ 31 := by
  have hb := books_run h₀ hist s hs
  rw [← atomicRead_eq_self_iff]
  refine ⟨fun h => ?_, ?_⟩
  · have hfailed : (ledger hist).failed = 0 := by
      have hrefs := h.refs
      rw [hb.refs, hb.opened] at hrefs
      omega
    have hread := h.opened
    rw [hb.opened_of_failed hfailed] at hread
    exact ⟨hfailed, hread⟩
  · rintro ⟨hfailed, hread⟩
    have hopened := hb.opened_of_failed hfailed
    exact ⟨by rw [hopened, hread], hb.refs.trans hopened⟩

/-- Two opens and a release. -/
theorem accounted_open_open_release :
    ∃ s, runs (Sys.step genCipher) (Sys.probed fun _ _ => 65)
          [⟨1, 3, Env.calm, .fopen (some (0, 0))⟩, ⟨2, 4, Env.calm, .fopen (some (0, 0))⟩,
            ⟨1, 3, Env.calm, .frelease⟩] = some s
      ∧ Accounted
          [⟨1, 3, Env.calm, .fopen (some (0, 0))⟩, ⟨2, 4, Env.calm, .fopen (some (0, 0))⟩,
            ⟨1, 3, Env.calm, .frelease⟩] s :=
  ⟨_, rfl, (accounted_iff (E := genCipher) (Sys.probed_initial fun _ _ => 65) rfl).mpr
    ⟨rfl, by decide⟩⟩

/-- One failed open on a fresh card: no handle, and both counts at 1. -/
theorem failed_open_counted :
    ∃ s, runs (Sys.step genCipher) (Sys.probed fun _ _ => 65) [⟨1, 3, Env.calm, .fopen none⟩]
          = some s
      ∧ (ledger [⟨1, 3, Env.calm, .fopen none⟩]).handles = ∅
      ∧ atomicRead s.deviceOpened = 1
      ∧ s.moduleRefs = 1
      ∧ ¬Accounted [⟨1, 3, Env.calm, .fopen none⟩] s := by
  refine ⟨_, rfl, rfl, rfl, rfl, fun h => ?_⟩
  exact absurd h.refs (by decide)

end LinuxDrivers.Card
