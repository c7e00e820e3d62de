import LinuxDrivers.Card.Routine
import LinuxDrivers.Card.Service

/-!
# The lock

`cc_spinlock` is taken once at the top of each request and released on one of its
exits. The two others, a mapped request and an unmapped one whose result cannot be
copied out, return with the lock held, and the next request by anyone spins for
ever.

Nothing is assumed here about lengths, configurations, copies or signals. What has
to be shown besides is that a request that got the lock does come back: it waits
only for an operation of its own, which raises the interrupt it waits for.
-/

namespace LinuxDrivers.Card

variable (E : Cipher)

/-! ## Every routine comes back -/

/-- Sleeping for an operation that will raise an interrupt ends, signal or not. -/
theorem waitEvent_isSome (signal : Option Nat) {m : Machine} {j : Job}
    (hj : m.card.job = some j) (hintr : j.intr = true) (hi : m.card.irqs = 0) :
    (waitEvent E signal m.ticksLeft m).isSome := by
  rw [Machine.ticksLeft, hj]
  dsimp only
  induction ht : j.ticks generalizing m j signal with
  | zero =>
      rw [waitEvent]
      split
      · rfl
      · split
        · rfl
        · rw [elapse_last E hj ht, waitEvent,
            if_pos (by rw [settle_flag E hj hintr]; omega)]
          rfl
  | succ t ih =>
      rw [waitEvent]
      split
      · rfl
      · split
        · rfl
        · rw [elapse_of_ticks E hj (by omega) hi]
          exact ih (m := { m with card :=
            { m.card with job := some { j with ticks := j.ticks - 1 } } })
            (j := { j with ticks := j.ticks - 1 }) _ rfl hintr hi (by dsimp only; omega)

/-- Only sleeping can fail to end. -/
theorem runAll_isSome {env : Env} : ∀ (is : List Instr) (f : Frame),
    .waitEventInterruptible ∉ is → (runAll E env is f).isSome := by
  intro is
  induction is with
  | nil => intro f _; rfl
  | cons i is ih =>
      intro f hno
      have hrun : ∃ f', i.run E env f = some f' := by
        cases i with
        | waitEventInterruptible => exact absurd (List.mem_cons_self ..) hno
        | _ => exact ⟨_, rfl⟩
      obtain ⟨f', hf'⟩ := hrun
      rw [runAll, hf']
      exact ih f' (fun h => hno (List.mem_cons_of_mem _ h))

/-- Sleeping for an operation just triggered, and whatever follows, comes back. -/
theorem runAll_wait_isSome {env : Env} {post : List Instr} (hpost : .waitEventInterruptible ∉ post)
    {f : Frame} {j : Job} (hj : f.m.card.job = some j) (hintr : j.intr = true)
    (hi : f.m.card.irqs = 0) :
    (runAll E env (.waitEventInterruptible :: post) f).isSome := by
  obtain ⟨m', hm'⟩ := Option.isSome_iff_exists.mp (waitEvent_isSome E env.signal hj hintr hi)
  rw [runAll, Instr.run, hm']
  exact runAll_isSome E post _ hpost

/-- Check that the card is free, trigger by MMIO, sleep. -/
theorem mm_wait_returns {env : Env} {post : List Instr} (hpost : .waitEventInterruptible ∉ post)
    {f : Frame} (hi : f.m.card.irqs = 0) (hst : f.m.card.mmStatus &&& 0x80 ≠ 0) (v : UInt32) :
    (runAll E env (.whileBusy mmstatusOff :: .iowrite32 v mmaddrOff ::
      .waitEventInterruptible :: post) f).isSome := by
  rw [runAll, run_whileBusy E env (Or.inl rfl) hi]
  have hjob : (iowrite32 env.latency (f.m.settle E).card v mmaddrOff).job
      = some ((f.m.settle E).card.mmJob env.latency v) := by
    show ((f.m.settle E).card.trigger ((f.m.settle E).card.mmJob env.latency v)).job = _
    simp [Device.trigger, settle_job]
  refine runAll_wait_isSome E hpost (f := ⟨{ f.m.settle E with
    card := iowrite32 env.latency (f.m.settle E).card v mmaddrOff }, f.data⟩) hjob ?_ ?_
  · simp [Device.mmJob, settle_mmStatus, hst]
  · exact (iowrite32_irqs ..).trans (settle_irqs E hi)

/-- Check that the card is free, trigger by DMA, sleep. -/
theorem dma_wait_returns {env : Env} {post : List Instr} (hpost : .waitEventInterruptible ∉ post)
    {f : Frame} (hi : f.m.card.irqs = 0) (cmd : UInt32) (hcmd : cmd &&& 1 ≠ 0)
    (hintr : cmd &&& 4 ≠ 0) :
    (runAll E env (.whileBusy dmaCmdOff :: .iowrite32 cmd dmaCmdOff ::
      .waitEventInterruptible :: post) f).isSome := by
  rw [runAll, run_whileBusy E env (Or.inr rfl) hi]
  let c₀ : Device := { (f.m.settle E).card with dmaCmd := cmd }
  have hw : iowrite32 env.latency (f.m.settle E).card cmd dmaCmdOff
      = c₀.trigger (c₀.dmaJob env.latency cmd) := if_pos hcmd
  have hjob : (iowrite32 env.latency (f.m.settle E).card cmd dmaCmdOff).job
      = some (c₀.dmaJob env.latency cmd) := by
    rw [hw]
    simp [c₀, Device.trigger, settle_job]
  refine runAll_wait_isSome E hpost (f := ⟨{ f.m.settle E with
    card := iowrite32 env.latency (f.m.settle E).card cmd dmaCmdOff }, f.data⟩) hjob ?_ ?_
  · simp [Device.dmaJob, hintr]
  · exact (iowrite32_irqs ..).trans (settle_irqs E hi)

theorem unmapped_returns (env : Env) (decrypt : Bool) (cfg : CryptocardConfig) (length : UInt64)
    {f : Frame} (hi : f.m.card.irqs = 0) :
    (runAll E env ((routines decrypt).unmapped cfg env length) f).isSome := by
  have hpost : ∀ i, i ≠ .waitEventInterruptible →
      .waitEventInterruptible ∉ [Instr.clearWqFlag, i] := by
    intro i hne h
    simp only [List.mem_cons, List.not_mem_nil, or_false] at h
    rcases h with h | h
    · exact absurd h (by simp)
    · exact hne h.symm
  unfold Routines.unmapped
  cases decrypt with
  | false =>
      split <;> split
      · exact runAll_isSome E _ f (by simp [routines, encryptRoutines, encryptionMmioPoll])
      · exact mm_wait_returns E (hpost _ (by simp)) (f := mmioLoaded 0x80 length f) hi
          (by show (0x80 : UInt32) &&& 0x80 ≠ 0; decide) 0xa8
      · exact runAll_isSome E _ f (by simp [routines, encryptRoutines, encryptionDmaPoll, dmaPoll])
      · exact dma_wait_returns E (hpost _ (by simp)) (f := dmaLoaded env.dmaHandle length f) hi
          (0x1 ||| 0x4) (by decide) (by decide)
  | true =>
      split <;> split
      · exact runAll_isSome E _ f (by simp [routines, decryptRoutines, decryptionMmioPoll])
      · exact mm_wait_returns E (hpost _ (by simp)) (f := mmioLoaded 0x82 length f) hi
          (by show (0x82 : UInt32) &&& 0x80 ≠ 0; decide) 0xa8
      · exact runAll_isSome E _ f (by simp [routines, decryptRoutines, decryptionDmaPoll, dmaPoll])
      · exact dma_wait_returns E (hpost _ (by simp)) (f := dmaLoaded env.dmaHandle length f) hi
          (0x1 ||| 0x2 ||| 0x4) (by decide) (by decide)

theorem mapped_returns (env : Env) (decrypt : Bool) (cfg : CryptocardConfig) (length : UInt64)
    {f : Frame} (hi : f.m.card.irqs = 0) :
    (runAll E env ((routines decrypt).mapped cfg length) f).isSome := by
  -- the mapped routines write the same registers and no data
  let loaded : UInt32 → Frame := fun status =>
    { f with m := { f.m with
        card := { f.m.card with mmStatus := status, mmLen := length.toUInt32 } } }
  have hpost : .waitEventInterruptible ∉ [Instr.clearWqFlag] := by simp
  unfold Routines.mapped
  cases decrypt with
  | false =>
      split
      · exact runAll_isSome E _ f
          (by simp [routines, encryptRoutines, encryptionMmapPolling, mmapPolling])
      · exact mm_wait_returns E hpost (f := loaded 0x80) hi
          (by show (0x80 : UInt32) &&& 0x80 ≠ 0; decide) 0xa8
  | true =>
      split
      · exact runAll_isSome E _ f
          (by simp [routines, decryptRoutines, decryptionMmapPolling, mmapPolling])
      · exact mm_wait_returns E hpost (f := loaded 0x82) hi
          (by show (0x82 : UInt32) &&& 0x80 ≠ 0; decide) 0xa8

/-! ## What a call does to the lock -/

/-- The exits that release the lock: the result of an unmapped request was copied out in full. -/
def CcOp.Unlocks (op : CcOp) (env : Env) : Prop :=
  op.isMapped = 0 ∧ min env.copyOut op.length.toNat = 0

/-- A call that, if it takes the lock, leaves by an exit that releases it. -/
def Event.Releases (e : Event) : Prop :=
  ∀ op, e.call = .ioctl (.encrypt op) ∨ e.call = .ioctl (.decrypt op) → op.Unlocks e.env

/-- What a request returns: a copy-out that leaves something behind is the one failure it
reports, as the positive error number. -/
def CcOp.result (op : CcOp) (env : Env) : Int :=
  if op.isMapped = 0 ∧ min env.copyOut op.length.toNat ≠ 0 then efault else 0

/-- A request that gets the lock comes back, and releases the lock on those exits only. -/
theorem cryptRequest_lock (decrypt : Bool) (env : Env) (pid : Nat) (cfg : CryptocardConfig)
    (op : CcOp) {s : Sys} (hlock : s.ccSpinlock = false) (hi : s.m.card.irqs = 0) :
    ∃ s', cryptRequest E (routines decrypt) env pid cfg op s = some (op.result env, s')
      ∧ s'.files = s.files
      ∧ s'.m.card.irqs = 0 ∧ (s'.ccSpinlock = false ↔ op.Unlocks env) := by
  unfold cryptRequest CcOp.Unlocks CcOp.result
  rw [if_neg (by simp [hlock])]
  dsimp only
  -- the machine once the key is written
  generalize hm : (Machine.mk (iowrite32 _ _ _ keyOff) _ _) = m
  have hi₁ : m.card.irqs = 0 := by
    rw [← hm]
    exact (iowrite32_irqs ..).trans hi
  by_cases hmap : op.isMapped = 0
  · rw [if_pos hmap]
    obtain ⟨f, hf⟩ := Option.isSome_iff_exists.mp (unmapped_returns E env decrypt cfg
      op.length (f := ⟨m, copyFromUser env (s.user pid) op.addr op.length.toNat⟩) hi₁)
    have hfi := runAll_irqs E _ hi₁ hf
    rw [hf]
    dsimp only
    by_cases hleft : (copyToUser env (s.user pid) op.addr f.data op.length.toNat).1 = 0
    · rw [if_neg (not_not.mpr hleft), if_neg (fun h => h.2 hleft)]
      exact ⟨_, rfl, rfl, hfi, iff_of_true rfl ⟨hmap, hleft⟩⟩
    · rw [if_pos hleft, if_pos ⟨hmap, hleft⟩]
      exact ⟨_, rfl, rfl, hfi, iff_of_false (by simp) (fun h => hleft h.2)⟩
  · rw [if_neg hmap]
    obtain ⟨f, hf⟩ := Option.isSome_iff_exists.mp
      (mapped_returns E env decrypt cfg op.length (f := ⟨m, []⟩) hi₁)
    have hfi := runAll_irqs E _ hi₁ hf
    rw [hf, if_neg (fun h => hmap h.1)]
    exact ⟨_, rfl, rfl, hfi, iff_of_false (by simp) (fun h => hmap h.1)⟩

/-- Between calls no interrupt is in flight, and the open files are those of the history. -/
structure Between (hist : List Event) (s : Sys) : Prop where
  irqs : s.m.card.irqs = 0
  isOpen : ∀ fd, (s.files fd).isSome = (keysOf hist fd).isSome

theorem isSome_update {α β : Type} {f : Nat → Option α} {g : Nat → Option β}
    (h : ∀ x, (f x).isSome = (g x).isSome) (i : Nat) {a : Option α} {b : Option β}
    (hab : a.isSome = b.isSome) (x : Nat) :
    (Function.update f i a x).isSome = (Function.update g i b x).isSome := by
  by_cases hx : x = i
  · subst hx
    simpa using hab
  · simpa [hx] using h x

/-- **One call.** From a free lock every call comes back, and leaves the lock free
exactly if it is on a file that is not open or leaves by a releasing exit. -/
theorem step_lock {hist : List Event} {s : Sys} (h : Between hist s) (hlock : s.ccSpinlock = false)
    (e : Event) :
    ∃ s', s.step E e = some s' ∧ Between (hist ++ [e]) s'
      ∧ (s'.ccSpinlock = false ↔ ((keysOf hist e.fd).isSome → e.Releases)) := by
  have hrel : ¬e.IsRequest → e.Releases := fun hn op hop => absurd ⟨op, hop⟩ hn
  cases step_cases E h.isOpen e with
  | idle hs hk hreq =>
      refine ⟨s, hs, ⟨h.irqs, by rw [keysOf_snoc, hk]; exact h.isOpen⟩, iff_of_true hlock ?_⟩
      intro hopen op hop
      rw [hreq ⟨op, hop⟩] at hopen
      exact absurd hopen (by simp)
  | noMemory hc hs hk =>
      refine ⟨_, hs, ⟨h.irqs, by rw [keysOf_snoc, hk]; exact h.isOpen⟩, iff_of_true hlock ?_⟩
      intro _
      exact hrel (by simp [Event.IsRequest, hc])
  | setFile s₀ cfg key hs₀ hs hk hopen _ hreq =>
      rw [hs₀] at hs
      refine ⟨_, hs, ⟨h.irqs, ?_⟩, iff_of_true hlock fun _ => hrel hreq⟩
      rw [keysOf_snoc, hk]
      exact isSome_update h.isOpen e.fd hopen
  | setConfig cfg cfg' hf hs hk _ hreq =>
      refine ⟨_, hs, ⟨h.irqs, fun fd => ?_⟩, iff_of_true hlock fun _ => hrel hreq⟩
      have hkey : (some cfg').isSome = (keysOf hist e.fd).isSome := by
        rw [← h.isOpen e.fd, hf]
        rfl
      rw [keysOf_snoc, hk]
      refine (isSome_update h.isOpen e.fd hkey fd).trans ?_
      rw [Function.update_eq_self]
  | request decrypt op cfg hc hf hs hk =>
      obtain ⟨s', hs', hfiles, hi', hiff⟩ :=
        cryptRequest_lock E decrypt e.env e.pid cfg op hlock h.irqs
      have hopen : (keysOf hist e.fd).isSome := by
        rw [← h.isOpen e.fd, hf]
        rfl
      -- the call makes this request and no other
      have hop : e.Releases ↔ op.Unlocks e.env := by
        cases decrypt <;> simp [Event.Releases, hc]
      refine ⟨s', by rw [hs, hs']; rfl, ⟨hi', ?_⟩, hiff.trans ?_⟩
      · rw [keysOf_snoc, hk, hfiles]
        exact h.isOpen
      · rw [hop]
        exact ⟨fun hu _ => hu, fun hu => hu hopen⟩

/-! ## Whole runs -/

theorem between_initial {s : Sys} (h : s.Initial) : Between [] s :=
  ⟨h.irqs, by simp [h.files, keysOf]⟩

/-- A run of calls that release the lock leaves it free. -/
theorem run_lock {s₀ : Sys} (h₀ : s₀.Initial) (hist : List Event)
    (hrel : Along (fun pre e => (keysOf pre e.fd).isSome → e.Releases) hist) :
    ∃ s, runs (Sys.step E) s₀ hist = some s ∧ Between hist s ∧ s.ccSpinlock = false := by
  refine runs_hist (P := fun h s => Between h s ∧ s.ccSpinlock = false)
    ⟨between_initial h₀, h₀.lock⟩ ?_ hist hrel
  rintro h s e ⟨hb, hlock⟩ hok
  obtain ⟨s', hs', hb', hiff⟩ := step_lock E hb hlock e
  exact ⟨s', hs', hb', hiff.mpr hok⟩

/--
**When the lock is free between calls.**

A run keeps the lock free in every state it passes through, and no call of it
hangs, exactly if each of its requests on an open file is unmapped and has its
result copied out in full.
-/
theorem lock_free_iff {s₀ : Sys} (h₀ : s₀.Initial) (es : List Event) :
    (∀ pre, pre <+: es → ∃ s, runs (Sys.step E) s₀ pre = some s ∧ s.ccSpinlock = false)
      ↔ ∀ pre e, pre ++ [e] <+: es → (keysOf pre e.fd).isSome → e.Releases := by
  rw [forall_prefix_iff, and_iff_right ⟨s₀, rfl, h₀.lock⟩]
  refine along_congr (Q := fun pre e => (keysOf pre e.fd).isSome → e.Releases) ?_ es
  intro hist e _ hrel
  -- the run before the call is one of releasing calls only
  obtain ⟨s, hs, hb, hlock⟩ := run_lock E h₀ hist hrel
  obtain ⟨s', hs', -, hiff⟩ := step_lock E hb hlock e
  rw [runs_snoc, hs, Option.bind_some, hs', ← hiff]
  constructor
  · rintro ⟨t, ht, hfree⟩
    cases ht
    exact hfree
  · intro hfree
    exact ⟨s', rfl, hfree⟩

/-- Opening, setting a key and encrypting five bytes leaves the lock free. -/
theorem lock_free_after_encrypt :
    ∃ s, runs (Sys.step genCipher) (Sys.probed fun _ _ => 65)
          [⟨1, 3, Env.calm, .fopen (some (0, 0))⟩, ⟨1, 3, Env.calm, .ioctl (.setKey ⟨30, 17⟩)⟩,
            ⟨1, 3, Env.calm, .ioctl (.encrypt ⟨4096, 5, 0⟩)⟩] = some s
      ∧ s.ccSpinlock = false := by
  refine (lock_free_iff genCipher (Sys.probed_initial _) _).mpr (fun pre e hpre _ op hop => ?_) _
    (List.prefix_refl _)
  have he := hpre.subset (List.mem_append_right pre (List.mem_singleton_self e))
  simp only [List.mem_cons, List.not_mem_nil, or_false] at he
  rcases he with rfl | rfl | rfl
  · simp at hop
  · simp at hop
  · simp only [Call.ioctl.injEq, Cmd.encrypt.injEq, reduceCtorEq, or_false] at hop
    subst hop
    exact ⟨rfl, rfl⟩

/-- A mapped request returns success and leaves the lock held; the next request never returns. -/
theorem mapped_request_keeps_lock :
    ∃ s, runs (Sys.step genCipher) (Sys.probed fun _ _ => 65)
          [⟨1, 3, Env.calm, .fopen (some (0, 0))⟩,
            ⟨1, 3, Env.calm, .ioctl (.encrypt ⟨4096, 5, 1⟩)⟩] = some s
      ∧ s.ccSpinlock = true
      ∧ s.step genCipher ⟨2, 3, Env.calm, .ioctl (.encrypt ⟨4096, 5, 0⟩)⟩ = none :=
  ⟨_, rfl, rfl, rfl⟩

end LinuxDrivers.Card
