import LinuxDrivers.Card.Script

/-!
# What a transfer routine does

Between two calls the machine is `Quiet`: no operation in progress, no interrupt
in flight, the completion flag down. From a quiet machine each of the eight
unmapped routines replaces its buffer by the image under the key the card holds,
and leaves the machine quiet again: `mmio_transfer` and `dma_transfer`. The lemmas
before them say what spinning and sleeping amount to, once and for all.
-/

namespace LinuxDrivers.Card

variable (E : Cipher)

/-- The operation in progress completes and its interrupt, if any, is handled. -/
def Machine.settle (m : Machine) : Machine :=
  let m' := m.complete E
  if m'.card.irqs = 0 then m' else cryptocardIrqHandle m'

/-- Nothing in progress, nothing in flight, nothing left behind. -/
structure Machine.Quiet (m : Machine) : Prop where
  /-- No operation in progress. -/
  job : m.card.job = none
  /-- No interrupt in flight. -/
  irqs : m.card.irqs = 0
  /-- The completion flag is down. -/
  flag : m.wqFlag = 0

theorem settle_of_idle {m : Machine} (hj : m.card.job = none) (hi : m.card.irqs = 0) :
    m.settle E = m := by
  simp [Machine.settle, Machine.complete, hj, hi]

/-- How long the operation takes makes no difference to how it ends. -/
theorem settle_ticks {m : Machine} {j : Job} (hj : m.card.job = some j) (t : Nat) :
    Machine.settle E { m with card := { m.card with job := some { j with ticks := t } } }
      = m.settle E := by
  simp [Machine.settle, Machine.complete, Device.retire, hj]

theorem elapse_of_ticks {m : Machine} {j : Job} (hj : m.card.job = some j)
    (ht : j.ticks ≠ 0) (hi : m.card.irqs = 0) :
    m.elapse E
      = { m with card := { m.card with job := some { j with ticks := j.ticks - 1 } } } := by
  simp [Machine.elapse, Machine.tick, hj, ht, hi]

theorem elapse_last {m : Machine} {j : Job} (hj : m.card.job = some j) (ht : j.ticks = 0) :
    m.elapse E = m.settle E := by
  simp [Machine.elapse, Machine.tick, Machine.settle, hj, ht]

/-- Spinning on either busy bit is waiting for the operation in progress to end. -/
theorem spin_eq {off : Nat} (hoff : off = mmstatusOff ∨ off = dmaCmdOff) {m : Machine}
    (hi : m.card.irqs = 0) : spin E off m.ticksLeft m = m.settle E := by
  cases hj : m.card.job with
  | none => rw [Machine.ticksLeft, hj, settle_of_idle E hj hi]; rfl
  | some j =>
      rw [Machine.ticksLeft, hj]
      dsimp only
      induction ht : j.ticks generalizing m j with
      | zero =>
          rw [spin, if_pos ((busy_iff m.card hoff).mpr (by rw [hj]; rfl)), elapse_last E hj ht]
          rfl
      | succ t ih =>
          rw [spin, if_pos ((busy_iff m.card hoff).mpr (by rw [hj]; rfl)),
            elapse_of_ticks E hj (by omega) hi, ← settle_ticks E hj (j.ticks - 1)]
          exact ih (m := { m with card :=
            { m.card with job := some { j with ticks := j.ticks - 1 } } })
            hi (j := { j with ticks := j.ticks - 1 }) rfl (by dsimp only; omega)

/-- An operation that raises an interrupt leaves the flag up when it has settled. -/
theorem settle_flag {m : Machine} {j : Job} (hj : m.card.job = some j) (hintr : j.intr = true) :
    (m.settle E).wqFlag = 1 := by
  obtain ⟨data, hc⟩ := complete_card E hj
  have hirq : (m.complete E).card.irqs = m.card.irqs + 1 := by
    rw [hc]
    exact if_pos hintr
  unfold Machine.settle
  dsimp only
  rw [if_neg (by omega)]
  rfl

/-- Undisturbed, the sleep lasts until the operation has settled. -/
theorem waitEvent_eq {m : Machine} {j : Job} (hj : m.card.job = some j) (hintr : j.intr = true)
    (hi : m.card.irqs = 0) (hf : m.wqFlag = 0) :
    waitEvent E none m.ticksLeft m = some (m.settle E) := by
  rw [Machine.ticksLeft, hj]
  dsimp only
  induction ht : j.ticks generalizing m j with
  | zero =>
      rw [waitEvent, if_neg (by omega), if_neg (by simp), elapse_last E hj ht, waitEvent,
        if_pos (by rw [settle_flag E hj hintr]; omega)]
  | succ t ih =>
      rw [waitEvent, if_neg (by omega), if_neg (by simp), elapse_of_ticks E hj (by omega) hi,
        ← settle_ticks E hj (j.ticks - 1)]
      exact ih (m := { m with card := { m.card with job := some { j with ticks := j.ticks - 1 } } })
        (j := { j with ticks := j.ticks - 1 }) rfl hintr hi hf (by dsimp only; omega)

/-! ## What settling leaves behind -/

theorem settle_irqs {m : Machine} (hi : m.card.irqs = 0) : (m.settle E).card.irqs = 0 := by
  unfold Machine.settle
  dsimp only
  split
  · assumption
  · have hle : (m.complete E).card.irqs ≤ 1 := by
      cases hj : m.card.job with
      | none => simp [Machine.complete, hj, hi]
      | some j =>
          obtain ⟨data, hc⟩ := complete_card E hj
          rw [hc]
          dsimp only [Device.retire]
          split <;> omega
    show (m.complete E).card.irqs - 1 = 0
    omega

/-- Whatever the interrupt handler leaves alone is as completion left it. -/
theorem settle_proj {α : Type} (p : Machine → α) (hp : ∀ m, p (cryptocardIrqHandle m) = p m)
    (m : Machine) : p (m.settle E) = p (m.complete E) := by
  unfold Machine.settle
  dsimp only
  split
  · rfl
  · exact hp _

theorem settle_job (m : Machine) : (m.settle E).card.job = none := by
  refine (settle_proj E (fun m => m.card.job) (fun _ => rfl) m).trans ?_
  cases hj : m.card.job with
  | none => simp [Machine.complete, hj]
  | some j =>
      obtain ⟨data, hc⟩ := complete_card E hj
      rw [hc]
      rfl

theorem settle_mmStatus (m : Machine) : (m.settle E).card.mmStatus = m.card.mmStatus := by
  refine (settle_proj E (fun m => m.card.mmStatus) (fun _ => rfl) m).trans ?_
  cases hj : m.card.job with
  | none => simp [Machine.complete, hj]
  | some j =>
      obtain ⟨data, hc⟩ := complete_card E hj
      rw [hc]
      rfl

theorem settle_bar0 {m : Machine} {j : Job} (hj : m.card.job = some j) (hd : j.dma = false) :
    (m.settle E).card.bar0
      = Mem.mapRange (crypt E j.decrypt j.key) j.addr j.len.toNat m.card.bar0 := by
  refine (settle_proj E (fun m => m.card.bar0) (fun _ => rfl) m).trans ?_
  simp [Machine.complete, hj, hd]

theorem settle_host {m : Machine} {j : Job} (hj : m.card.job = some j) (hd : j.dma = true) :
    (m.settle E).host = Mem.mapRange (crypt E j.decrypt j.key) j.addr j.len.toNat m.host := by
  refine (settle_proj E (fun m => m.host) (fun _ => rfl) m).trans ?_
  simp [Machine.complete, hj, hd]

/-- An operation that raises no interrupt leaves the flag alone. -/
theorem settle_no_flag {m : Machine} {j : Job} (hj : m.card.job = some j)
    (hintr : j.intr = false) (hi : m.card.irqs = 0) : (m.settle E).wqFlag = m.wqFlag := by
  obtain ⟨data, hc⟩ := complete_card E hj
  have hirq : (m.complete E).card.irqs = 0 := by
    rw [hc]
    exact (if_neg (by simp [hintr])).trans hi
  unfold Machine.settle
  dsimp only
  rw [if_pos hirq]
  exact complete_wqFlag E m

/-! ## No interrupt stays in flight -/

theorem elapse_irqs {m : Machine} (hi : m.card.irqs = 0) : (m.elapse E).card.irqs = 0 := by
  cases hj : m.card.job with
  | none => simp [Machine.elapse, Machine.tick, hj, hi]
  | some j =>
      by_cases ht : j.ticks = 0
      · rw [elapse_last E hj ht]
        exact settle_irqs E hi
      · rw [elapse_of_ticks E hj ht hi]
        exact hi

theorem iterate_elapse_irqs {m : Machine} (hi : m.card.irqs = 0) (n : Nat) :
    ((Machine.elapse E)^[n] m).card.irqs = 0 :=
  Function.Iterate.rec (fun m : Machine => m.card.irqs = 0) hi (fun _ hi => elapse_irqs E hi) n

/-- While the driver polls, time passes and nothing else happens. -/
theorem spin_elapses (off fuel : Nat) (m : Machine) :
    ∃ n, spin E off fuel m = (Machine.elapse E)^[n] m := by
  induction fuel generalizing m with
  | zero => exact ⟨0, rfl⟩
  | succ fuel ih =>
      rw [spin]
      split
      · obtain ⟨n, hn⟩ := ih (m.elapse E)
        exact ⟨n + 1, hn⟩
      · exact ⟨0, rfl⟩

/-- While the driver sleeps, time passes and nothing else happens. What wakes it is the flag or
a signal. -/
theorem waitEvent_elapses {signal : Option Nat} {fuel : Nat} {m m' : Machine}
    (h : waitEvent E signal fuel m = some m') :
    ∃ n, m' = (Machine.elapse E)^[n] m ∧ (m'.wqFlag ≠ 0 ∨ signal.isSome) := by
  induction fuel generalizing signal m with
  | zero =>
      rw [waitEvent] at h
      split at h
      · rename_i hflag
        cases h
        exact ⟨0, rfl, Or.inl hflag⟩
      · split at h
        · rename_i hsignal
          cases h
          exact ⟨0, rfl, Or.inr hsignal⟩
        · exact absurd h (by simp)
  | succ fuel ih =>
      rw [waitEvent] at h
      split at h
      · rename_i hflag
        cases h
        exact ⟨0, rfl, Or.inl hflag⟩
      · split at h
        · rename_i hsignal
          cases h
          exact ⟨0, rfl, Or.inr (by rw [hsignal]; rfl)⟩
        · obtain ⟨n, hn, hwoken⟩ := ih h
          rw [Option.isSome_map] at hwoken
          exact ⟨n + 1, hn, hwoken⟩

theorem run_irqs {env : Env} {i : Instr} {f f' : Frame} (hi : f.m.card.irqs = 0)
    (h : i.run E env f = some f') : f'.m.card.irqs = 0 := by
  cases i with
  | whileBusy off =>
      cases h
      obtain ⟨n, hn⟩ := spin_elapses E off f.m.ticksLeft f.m
      show (spin E off f.m.ticksLeft f.m).card.irqs = 0
      rw [hn]
      exact iterate_elapse_irqs E hi n
  | waitEventInterruptible =>
      obtain ⟨m', hm', rfl⟩ := Option.map_eq_some_iff.mp h
      obtain ⟨n, rfl, -⟩ := waitEvent_elapses E hm'
      exact iterate_elapse_irqs E hi n
  | iowrite32 v off => cases h; exact (iowrite32_irqs _ _ _ _).trans hi
  | ioread32 off => cases h; exact hi
  | memcpyToio off len => cases h; exact hi
  | memcpyFromio off len => cases h; exact hi
  | memcpyToDma handle len => cases h; exact hi
  | memcpyFromDma handle len => cases h; exact hi
  | clearWqFlag => cases h; exact hi

theorem runAll_irqs {env : Env} : ∀ (is : List Instr) {f f' : Frame}, f.m.card.irqs = 0 →
    runAll E env is f = some f' → f'.m.card.irqs = 0 := by
  intro is
  induction is with
  | nil => intro f f' hi h; cases h; exact hi
  | cons i is ih =>
      intro f f' hi h
      obtain ⟨f₁, h1, h2⟩ := Option.bind_eq_some_iff.mp h
      exact ih (run_irqs E hi h1) h2

/-! ## Awaiting the operation -/

/-- The machine after a routine has waited for its own operation. -/
def Machine.awaited (m : Machine) : Machine := { m.settle E with wqFlag := 0 }

theorem awaited_quiet {m : Machine} (hi : m.card.irqs = 0) : (m.awaited E).Quiet :=
  ⟨settle_job E m, settle_irqs E hi, rfl⟩

/-- The statements `fin` wait for an operation whose interrupt bit is `intr`. -/
def Awaits (env : Env) (intr : Bool) (fin : List Instr) : Prop :=
  ∀ (rest : List Instr) (f : Frame) (j : Job), f.m.card.job = some j → j.intr = intr →
    f.m.card.irqs = 0 → f.m.wqFlag = 0 →
    runAll E env (fin ++ rest) f = runAll E env rest { f with m := f.m.awaited E }

theorem run_whileBusy (env : Env) {off : Nat} (hoff : off = mmstatusOff ∨ off = dmaCmdOff)
    {f : Frame} (hi : f.m.card.irqs = 0) :
    (Instr.whileBusy off).run E env f = some { f with m := f.m.settle E } := by
  rw [Instr.run, spin_eq E hoff hi]

/-- Polling waits for an operation that raises no interrupt. -/
theorem awaits_whileBusy (env : Env) {off : Nat} (hoff : off = mmstatusOff ∨ off = dmaCmdOff) :
    Awaits E env false [.whileBusy off] := by
  intro rest f j hj hintr hi hf
  have hm : f.m.settle E = f.m.awaited E := by
    have hflag := settle_no_flag E hj hintr hi
    rw [hf] at hflag
    unfold Machine.awaited
    rw [← hflag]
  rw [List.singleton_append, runAll, run_whileBusy E env hoff hi, hm]
  rfl

/-- Sleeping and clearing the flag waits for one that does, if no signal interferes. -/
theorem awaits_interrupt {env : Env} (hs : env.signal = none) :
    Awaits E env true [.waitEventInterruptible, .clearWqFlag] := by
  intro rest f j hj hintr hi hf
  rw [List.cons_append, List.singleton_append, runAll, Instr.run, hs,
    waitEvent_eq E hj hintr hi hf]
  rfl

/-- On a quiet machine the check that the card is free passes at once. -/
theorem runAll_whileBusy_quiet (env : Env) {off : Nat}
    (hoff : off = mmstatusOff ∨ off = dmaCmdOff) {f : Frame} (hq : f.m.Quiet) (is : List Instr) :
    runAll E env (.whileBusy off :: is) f = runAll E env is f := by
  rw [runAll, run_whileBusy E env hoff hq.irqs, settle_of_idle E hq.job hq.irqs]
  rfl

/-! ## MMIO -/

/-- The frame once an MMIO routine has written its registers and its data. -/
def mmioLoaded (status : UInt32) (length : UInt64) (f : Frame) : Frame :=
  { f with
    m := { f.m with
      card := { f.m.card with
        mmStatus := status
        mmLen := length.toUInt32
        bar0 := f.m.card.bar0.write dataOff (f.data.take length.toUInt32.toNat) } } }

/-- From a loaded frame: trigger, wait, copy back. -/
theorem mmio_transfer {env : Env} (status : UInt32) {intr decrypt : Bool} {fin : List Instr}
    (hintr : decide (status &&& 0x80 ≠ 0) = intr) (hdec : decide (status &&& 2 ≠ 0) = decrypt)
    (hfin : Awaits E env intr fin) {length : UInt64} {f : Frame} (hq : f.m.Quiet)
    (hlen : f.data.length = length.toUInt32.toNat) :
    ∃ m', runAll E env (.iowrite32 0xa8 mmaddrOff ::
          (fin ++ [.memcpyFromio dataOff length.toUInt32.toNat])) (mmioLoaded status length f)
        = some ⟨m', f.data.map (crypt E decrypt f.m.card.key)⟩
      ∧ m'.Quiet := by
  -- the machine with the operation in progress
  let m₁ : Machine :=
    { f.m with
      card := (mmioLoaded status length f).m.card.trigger
        ((mmioLoaded status length f).m.card.mmJob env.latency 0xa8) }
  have hm₁ : m₁.card.job = some ((mmioLoaded status length f).m.card.mmJob env.latency 0xa8) := by
    simp [m₁, Device.trigger, mmioLoaded, hq.job]
  have hirqs : m₁.card.irqs = 0 := by
    simp [m₁, Device.trigger, mmioLoaded, hq.job, hq.irqs]
  have hbar : m₁.card.bar0 = f.m.card.bar0.write dataOff f.data := by
    simp only [m₁, Device.trigger, mmioLoaded, hq.job, ← hlen, List.take_length]
    rfl
  have hrun : runAll E env (.iowrite32 0xa8 mmaddrOff ::
      (fin ++ [.memcpyFromio dataOff length.toUInt32.toNat])) (mmioLoaded status length f)
      = runAll E env (fin ++ [.memcpyFromio dataOff length.toUInt32.toNat]) ⟨m₁, f.data⟩ := rfl
  refine ⟨m₁.awaited E, ?_, awaited_quiet E hirqs⟩
  rw [hrun, hfin _ ⟨m₁, f.data⟩ _ hm₁ hintr hirqs hq.flag]
  have hback : (m₁.awaited E).card.bar0.read dataOff length.toUInt32.toNat
      = f.data.map (crypt E decrypt f.m.card.key) := by
    show (m₁.settle E).card.bar0.read dataOff length.toUInt32.toNat = _
    rw [settle_bar0 E hm₁ rfl, hbar]
    show (Mem.mapRange (crypt E (status &&& 2 ≠ 0) f.m.card.key) dataOff length.toUInt32.toNat
      (f.m.card.bar0.write dataOff f.data)).read dataOff length.toUInt32.toNat = _
    rw [hdec, Mem.read_mapRange, ← hlen, Mem.read_write_self]
  show some (Frame.mk (m₁.awaited E)
    ((m₁.awaited E).card.bar0.read dataOff length.toUInt32.toNat
      ++ f.data.drop length.toUInt32.toNat)) = _
  rw [hback, ← hlen, List.drop_length, List.append_nil]

theorem encryptionMmioPoll_eq (env : Env) {f : Frame} (hq : f.m.Quiet) (length : UInt64) :
    runAll E env (encryptionMmioPoll length) f
      = runAll E env [.iowrite32 0xa8 mmaddrOff, .whileBusy mmstatusOff,
          .memcpyFromio dataOff length.toUInt32.toNat] (mmioLoaded 0x0 length f) :=
  runAll_whileBusy_quiet E env (Or.inl rfl) (f := mmioLoaded 0x0 length f)
    ⟨hq.job, hq.irqs, hq.flag⟩ _

theorem decryptionMmioPoll_eq (env : Env) {f : Frame} (hq : f.m.Quiet) (length : UInt64) :
    runAll E env (decryptionMmioPoll length) f
      = runAll E env [.iowrite32 0xa8 mmaddrOff, .whileBusy mmstatusOff,
          .memcpyFromio dataOff length.toUInt32.toNat] (mmioLoaded 0x2 length f) :=
  runAll_whileBusy_quiet E env (Or.inl rfl) (f := mmioLoaded 0x2 length f)
    ⟨hq.job, hq.irqs, hq.flag⟩ _

theorem mmioInterrupt_eq (env : Env) {f : Frame} (hq : f.m.Quiet) (status : UInt32)
    (length : UInt64) :
    runAll E env (mmioInterrupt status length) f
      = runAll E env [.iowrite32 0xa8 mmaddrOff, .waitEventInterruptible, .clearWqFlag,
          .memcpyFromio dataOff length.toUInt32.toNat] (mmioLoaded status length f) :=
  runAll_whileBusy_quiet E env (Or.inl rfl) (f := mmioLoaded status length f)
    ⟨hq.job, hq.irqs, hq.flag⟩ _

/-! ## DMA -/

/-- The frame once a DMA routine has filled its buffer and written its registers. -/
def dmaLoaded (handle : Nat) (length : UInt64) (f : Frame) : Frame :=
  { f with
    m := { f.m with
      card := { f.m.card with dmaLen := length.toUInt32, dmaAddr := UInt32.ofNat handle }
      host := f.m.host.write handle (f.data.take length.toUInt32.toNat) } }

/-- From a loaded frame: trigger, wait, copy back. -/
theorem dma_transfer {env : Env} (cmd : UInt32) {intr decrypt : Bool} {fin : List Instr}
    (hcmd : cmd &&& 1 ≠ 0) (hintr : decide (cmd &&& 4 ≠ 0) = intr)
    (hdec : decide (cmd &&& 2 ≠ 0) = decrypt) (hfin : Awaits E env intr fin)
    {handle : Nat} (hhandle : handle < 2 ^ 32) {length : UInt64} {f : Frame} (hq : f.m.Quiet)
    (hlen : f.data.length = length.toUInt32.toNat) :
    ∃ m', runAll E env (.iowrite32 cmd dmaCmdOff ::
          (fin ++ [.memcpyFromDma handle length.toUInt32.toNat])) (dmaLoaded handle length f)
        = some ⟨m', f.data.map (crypt E decrypt f.m.card.key)⟩
      ∧ m'.Quiet := by
  let c₀ : Device := { (dmaLoaded handle length f).m.card with dmaCmd := cmd }
  -- the machine with the operation in progress
  let m₁ : Machine :=
    { (dmaLoaded handle length f).m with card := c₀.trigger (c₀.dmaJob env.latency cmd) }
  have hm₁ : m₁.card.job = some (c₀.dmaJob env.latency cmd) := by
    simp [m₁, c₀, Device.trigger, dmaLoaded, hq.job]
  have hirqs : m₁.card.irqs = 0 := by
    simp [m₁, c₀, Device.trigger, dmaLoaded, hq.job, hq.irqs]
  have hhost : m₁.host = f.m.host.write handle f.data := by
    simp only [m₁, dmaLoaded, ← hlen, List.take_length]
  have haddr : (c₀.dmaJob env.latency cmd).addr = handle := by
    show (UInt32.ofNat handle).toNat = handle
    rw [UInt32.toNat_ofNat']
    exact Nat.mod_eq_of_lt hhandle
  have hrun : runAll E env (.iowrite32 cmd dmaCmdOff ::
      (fin ++ [.memcpyFromDma handle length.toUInt32.toNat])) (dmaLoaded handle length f)
      = runAll E env (fin ++ [.memcpyFromDma handle length.toUInt32.toNat]) ⟨m₁, f.data⟩ := by
    have hw : iowrite32 env.latency (dmaLoaded handle length f).m.card cmd dmaCmdOff
        = m₁.card := if_pos hcmd
    rw [runAll, Instr.run]
    · simp only [Instr.effect, hw]
      rfl
    all_goals simp
  refine ⟨m₁.awaited E, ?_, awaited_quiet E hirqs⟩
  rw [hrun, hfin _ ⟨m₁, f.data⟩ _ hm₁ hintr hirqs hq.flag]
  have hback : (m₁.awaited E).host.read handle length.toUInt32.toNat
      = f.data.map (crypt E decrypt f.m.card.key) := by
    show (m₁.settle E).host.read handle length.toUInt32.toNat = _
    rw [settle_host E hm₁ rfl, hhost, haddr]
    show (Mem.mapRange (crypt E (cmd &&& 2 ≠ 0) f.m.card.key) handle length.toUInt32.toNat
      (f.m.host.write handle f.data)).read handle length.toUInt32.toNat = _
    rw [hdec, Mem.read_mapRange, ← hlen, Mem.read_write_self]
  show some (Frame.mk (m₁.awaited E)
    ((m₁.awaited E).host.read handle length.toUInt32.toNat
      ++ f.data.drop length.toUInt32.toNat)) = _
  rw [hback, ← hlen, List.drop_length, List.append_nil]

theorem dmaPoll_eq (env : Env) {f : Frame} (hq : f.m.Quiet) (cmd : UInt32) (handle : Nat)
    (length : UInt64) :
    runAll E env (dmaPoll cmd handle length) f
      = runAll E env [.iowrite32 cmd dmaCmdOff, .whileBusy dmaCmdOff,
          .memcpyFromDma handle length.toUInt32.toNat] (dmaLoaded handle length f) :=
  runAll_whileBusy_quiet E env (Or.inr rfl) (f := dmaLoaded handle length f)
    ⟨hq.job, hq.irqs, hq.flag⟩ _

theorem dmaInterrupt_eq (env : Env) {f : Frame} (hq : f.m.Quiet) (cmd : UInt32) (handle : Nat)
    (length : UInt64) :
    runAll E env (dmaInterrupt cmd handle length) f
      = runAll E env [.iowrite32 cmd dmaCmdOff, .waitEventInterruptible, .clearWqFlag,
          .memcpyFromDma handle length.toUInt32.toNat] (dmaLoaded handle length f) :=
  runAll_whileBusy_quiet E env (Or.inr rfl) (f := dmaLoaded handle length f)
    ⟨hq.job, hq.irqs, hq.flag⟩ _

end LinuxDrivers.Card
