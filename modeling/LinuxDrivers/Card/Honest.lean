import LinuxDrivers.Card.Lock
import LinuxDrivers.Card.RoundTrip

/-!
# What the library reports

A call of `encrypt` or `decrypt` should return 0 only when the whole buffer went to the
card and back, and -1 as soon as a piece of it did not. Between a piece and the caller
stand three layers, and each of them loses something: the driver ignores the result of
`copy_from_user`, it reports a failed `copy_to_user` by a *positive* number, which
`ioctl` passes on as it is, and the library looks for -1 only.

So every request on an open file looks like a success to the library (`loggedIo_spec`),
the loop always runs to its end, and what the caller sees is the code of the last piece.

Two other matters are left out. A request whose result cannot be copied out keeps the
lock, and the next one would spin for ever: to see what is reported, every request here is
given the lock. And a signal that ends a wait makes the driver copy back what the card has
not transformed yet: here no signal arrives. Then the card is idle between calls whatever
else happens (`step_quiet`), and every piece goes through it.
-/

namespace LinuxDrivers.Card

variable (E : Cipher)

/-! ## Requests that get the lock, and what became of them -/

/-- What became of the bytes of one unmapped request. -/
structure Outcome where
  addr : Nat
  length : Nat
  /-- `copy_from_user` read all of them. -/
  read : Bool
  /-- The bytes handed to `copy_to_user` are the card's image of those `copy_from_user` left in
  the buffer, in the direction and under the key of the request. -/
  processed : Bool
  /-- `copy_to_user` wrote all of them back. -/
  written : Bool
  deriving DecidableEq

/-- The outcome of an unmapped request, made in state `s`. -/
def outcome (decrypt : Bool) (env : Env) (pid : Nat) (cfg : CryptocardConfig) (op : CcOp)
    (s : Sys) : Outcome :=
  let key := cfg.a.toUInt32 <<< 8 ||| cfg.b.toUInt32
  let m := { s.m with card := iowrite32 env.latency s.m.card key keyOff }
  let buff := copyFromUser env (s.user pid) op.addr op.length.toNat
  { addr := op.addr
    length := op.length.toNat
    read := min env.copyIn op.length.toNat == 0
    processed :=
      (runAll E env ((routines decrypt).unmapped cfg env op.length) ⟨m, buff⟩).map Frame.data
        == some (buff.map (crypt E decrypt key))
    written := min env.copyOut op.length.toNat == 0 }

/-- The outcome of a command on `fd`, if it is a request. -/
def outcomes (env : Env) (pid fd : Nat) (cmd : Cmd) (s : Sys) : List Outcome :=
  match s.files fd, cmd with
  | some cfg, .encrypt op => [outcome E false env pid cfg op s]
  | some cfg, .decrypt op => [outcome E true env pid cfg op s]
  | _, _ => []

/-- The system call with the lock free, keeping a log of what became of the requests. -/
def loggedIo (envs : Nat → Env) (pid fd : Nat) (k : Nat) (cmd : Cmd) (st : Sys × List Outcome) :
    Option (Int × Sys × List Outcome) :=
  (ioctl E (envs k) pid fd cmd { st.1 with ccSpinlock := false }).map fun (r, s) =>
    (r, s, st.2 ++ outcomes E (envs k) pid fd cmd st.1)

/-- What becomes of a piece: undisturbed, it always goes through the card. -/
def pieceOutcome (env : Env) (p : Nat × Nat) : Outcome :=
  ⟨p.1, p.2, min env.copyIn p.2 == 0, true, min env.copyOut p.2 == 0⟩

/-- A copy out of the card's memory. -/
def Instr.Fetches : Instr → Prop
  | .memcpyFromio .. | .memcpyFromDma .. => True
  | _ => False

theorem runAll_fetches (env : Env) : ∀ (is : List Instr) (f : Frame), (∀ i ∈ is, i.Fetches) →
    ∃ data, runAll E env is f = some ⟨f.m, data⟩ := by
  intro is
  induction is with
  | nil => intro f _; exact ⟨f.data, rfl⟩
  | cons i is ih =>
      intro f h
      have hi := h i (List.mem_cons_self ..)
      have hrun : ∃ data, i.run E env f = some ⟨f.m, data⟩ := by
        cases i with
        | memcpyFromio off len => exact ⟨_, rfl⟩
        | memcpyFromDma handle len => exact ⟨_, rfl⟩
        | _ => exact absurd hi id
      obtain ⟨data, hdata⟩ := hrun
      obtain ⟨data', hrest⟩ := ih ⟨f.m, data⟩ fun x hx => h x (List.mem_cons_of_mem _ hx)
      exact ⟨data', by rw [runAll, hdata]; exact hrest⟩

/-- From a quiet machine: trigger an operation, wait for it, fetch what it left. -/
theorem trigger_quiet {env : Env} {intr : Bool} {fin rest : List Instr}
    (hfin : Awaits E env intr fin) (hrest : ∀ i ∈ rest, i.Fetches) {f : Frame} (hq : f.m.Quiet)
    {v : UInt32} {off : Nat} {j : Job}
    (hjob : (iowrite32 env.latency f.m.card v off).job = some j) (hintr : j.intr = intr) :
    ∃ f', runAll E env (.iowrite32 v off :: (fin ++ rest)) f = some f' ∧ f'.m.Quiet := by
  let m₁ : Machine := { f.m with card := iowrite32 env.latency f.m.card v off }
  have hirqs : m₁.card.irqs = 0 := (iowrite32_irqs ..).trans hq.irqs
  obtain ⟨data, hdata⟩ := runAll_fetches E env rest ⟨m₁.awaited E, f.data⟩ hrest
  refine ⟨⟨m₁.awaited E, data⟩, ?_, awaited_quiet E hirqs⟩
  exact (hfin rest ⟨m₁, f.data⟩ j hjob hintr hirqs hq.flag).trans hdata

theorem mm_trigger_job {c : Device} (h : c.job = none) (lat : Nat) (v : UInt32) :
    (iowrite32 lat c v mmaddrOff).job = some (c.mmJob lat v) := by
  show (c.trigger (c.mmJob lat v)).job = _
  simp [Device.trigger, h]

theorem dma_trigger_job {c : Device} (h : c.job = none) (lat : Nat) {cmd : UInt32}
    (hcmd : cmd &&& 1 ≠ 0) :
    (iowrite32 lat c cmd dmaCmdOff).job
        = some (Device.dmaJob { c with dmaCmd := cmd } lat cmd) := by
  have hw : iowrite32 lat c cmd dmaCmdOff = Device.trigger { c with dmaCmd := cmd }
      (Device.dmaJob { c with dmaCmd := cmd } lat cmd) := if_pos hcmd
  rw [hw]
  simp [Device.trigger, h]

/-- The operation of an MMIO or a mapped routine, from the frame with its registers loaded. -/
theorem mm_quiet {env : Env} (status : UInt32) {intr : Bool} {fin rest : List Instr}
    (hintr : decide (status &&& 0x80 ≠ 0) = intr) (hfin : Awaits E env intr fin)
    (hrest : ∀ i ∈ rest, i.Fetches) {f : Frame} (hq : f.m.Quiet)
    (hst : f.m.card.mmStatus = status) :
    ∃ f', runAll E env (.whileBusy mmstatusOff :: .iowrite32 0xa8 mmaddrOff :: (fin ++ rest)) f
        = some f' ∧ f'.m.Quiet := by
  rw [runAll_whileBusy_quiet E env (Or.inl rfl) hq]
  exact trigger_quiet E hfin hrest hq (mm_trigger_job hq.job _ _) (by rw [← hintr, ← hst]; rfl)

/-- The operation of a DMA routine. -/
theorem dma_quiet {env : Env} {cmd : UInt32} {intr : Bool} {fin rest : List Instr}
    (hcmd : cmd &&& 1 ≠ 0) (hintr : decide (cmd &&& 4 ≠ 0) = intr) (hfin : Awaits E env intr fin)
    (hrest : ∀ i ∈ rest, i.Fetches) {f : Frame} (hq : f.m.Quiet) :
    ∃ f', runAll E env (.whileBusy dmaCmdOff :: .iowrite32 cmd dmaCmdOff :: (fin ++ rest)) f
        = some f' ∧ f'.m.Quiet := by
  rw [runAll_whileBusy_quiet E env (Or.inr rfl) hq]
  exact trigger_quiet E hfin hrest hq (dma_trigger_job hq.job _ hcmd) hintr

/-- Without a signal an unmapped routine leaves the machine quiet, whatever it was asked for. -/
theorem unmapped_quiet {env : Env} (hs : env.signal = none) (decrypt : Bool)
    (cfg : CryptocardConfig) (length : UInt64) {f : Frame} (hq : f.m.Quiet) :
    ∃ f', runAll E env ((routines decrypt).unmapped cfg env length) f = some f' ∧ f'.m.Quiet := by
  have hpoll := awaits_whileBusy E env (Or.inl rfl : mmstatusOff = mmstatusOff ∨ _)
  have hpollDma := awaits_whileBusy E env (Or.inr rfl : dmaCmdOff = mmstatusOff ∨ _)
  have hintr := awaits_interrupt E hs
  have hmm : ∀ status, (mmioLoaded status length f).m.Quiet :=
    fun _ => ⟨hq.job, hq.irqs, hq.flag⟩
  have hdma : (dmaLoaded env.dmaHandle length f).m.Quiet := ⟨hq.job, hq.irqs, hq.flag⟩
  have hio : ∀ i ∈ [Instr.memcpyFromio dataOff length.toUInt32.toNat], i.Fetches := by
    simp [Instr.Fetches]
  have hmem : ∀ i ∈ [Instr.memcpyFromDma env.dmaHandle length.toUInt32.toNat], i.Fetches := by
    simp [Instr.Fetches]
  unfold Routines.unmapped
  cases decrypt with
  | false =>
      split <;> split
      · exact mm_quiet E 0x0 (by decide) hpoll hio (hmm 0x0) rfl
      · exact mm_quiet E 0x80 (by decide) hintr hio (hmm 0x80) rfl
      · exact dma_quiet E (by decide) (by decide) hpollDma hmem hdma
      · exact dma_quiet E (by decide) (by decide) hintr hmem hdma
  | true =>
      split <;> split
      · exact mm_quiet E 0x2 (by decide) hpoll hio (hmm 0x2) rfl
      · exact mm_quiet E 0x82 (by decide) hintr hio (hmm 0x82) rfl
      · exact dma_quiet E (by decide) (by decide) hpollDma hmem hdma
      · exact dma_quiet E (by decide) (by decide) hintr hmem hdma

/-- So does a mapped one. -/
theorem mapped_quiet {env : Env} (hs : env.signal = none) (decrypt : Bool)
    (cfg : CryptocardConfig) (length : UInt64) {f : Frame} (hq : f.m.Quiet) :
    ∃ f', runAll E env ((routines decrypt).mapped cfg length) f = some f' ∧ f'.m.Quiet := by
  have hpoll := awaits_whileBusy E env (Or.inl rfl : mmstatusOff = mmstatusOff ∨ _)
  have hintr := awaits_interrupt E hs
  let loaded : UInt32 → Frame := fun status =>
    { f with m := { f.m with
        card := { f.m.card with mmStatus := status, mmLen := length.toUInt32 } } }
  have hmm : ∀ status, (loaded status).m.Quiet := fun _ => ⟨hq.job, hq.irqs, hq.flag⟩
  have hnil : ∀ i ∈ ([] : List Instr), i.Fetches := by simp
  unfold Routines.mapped
  cases decrypt with
  | false =>
      split
      · exact mm_quiet E 0x0 (by decide) hpoll hnil (hmm 0x0) rfl
      · exact mm_quiet E 0x80 (by decide) hintr hnil (hmm 0x80) rfl
  | true =>
      split
      · exact mm_quiet E 0x2 (by decide) hpoll hnil (hmm 0x2) rfl
      · exact mm_quiet E 0x82 (by decide) hintr hnil (hmm 0x82) rfl

/-- A request that gets the lock comes back and leaves the machine quiet, whatever it was asked
for and whatever could be copied. -/
theorem cryptRequest_quiet {env : Env} (hsig : env.signal = none) (decrypt : Bool) (pid : Nat)
    (cfg : CryptocardConfig) (op : CcOp) {s : Sys} (hlock : s.ccSpinlock = false)
    (hq : s.m.Quiet) :
    ∃ s', cryptRequest E (routines decrypt) env pid cfg op s = some (op.result env, s')
      ∧ s'.files = s.files ∧ s'.m.Quiet := by
  obtain ⟨s', hs', hfiles, -, -⟩ := cryptRequest_lock E decrypt env pid cfg op hlock hq.irqs
  refine ⟨s', hs', hfiles, ?_⟩
  -- the machine once the key is written
  have hkeyed : ∀ key, Machine.Quiet { s.m with
      card := iowrite32 env.latency s.m.card key keyOff } :=
    fun _ => ⟨hq.job, hq.irqs, hq.flag⟩
  unfold cryptRequest at hs'
  rw [if_neg (by simp [hlock])] at hs'
  dsimp only at hs'
  split at hs'
  · obtain ⟨f, hf, hquiet⟩ := unmapped_quiet E hsig decrypt cfg op.length
      (f := ⟨_, copyFromUser env (s.user pid) op.addr op.length.toNat⟩) (hkeyed _)
    rw [hf] at hs'
    dsimp only at hs'
    split at hs'
    · obtain rfl := (Prod.mk.inj (Option.some.inj hs')).2
      exact hquiet
    · obtain rfl := (Prod.mk.inj (Option.some.inj hs')).2
      exact hquiet
  · obtain ⟨f, hf, hquiet⟩ := mapped_quiet E hsig decrypt cfg op.length (f := ⟨_, []⟩) (hkeyed _)
    rw [hf] at hs'
    obtain rfl := (Prod.mk.inj (Option.some.inj hs')).2
    exact hquiet

/-- Undisturbed, a request has its bytes transformed. -/
theorem outcome_eq {env : Env} (hsig : env.signal = none) (decrypt : Bool) (pid : Nat)
    (cfg : CryptocardConfig) {op : CcOp} (hlen : op.length.toNat < 2 ^ 32) {s : Sys}
    (hq : s.m.Quiet) : outcome E decrypt env pid cfg op s
      = pieceOutcome env (op.addr, op.length.toNat) := by
  have hu : op.length.toUInt32.toNat = op.length.toNat := by
    rw [UInt64.toNat_toUInt32]
    exact Nat.mod_eq_of_lt hlen
  have hbuff : (copyFromUser env (s.user pid) op.addr op.length.toNat).length
      = op.length.toUInt32.toNat := by rw [length_copyFromUser, hu]
  obtain ⟨m', hrun, -⟩ := unmapped_spec E hsig decrypt cfg op.length
    (f := ⟨{ s.m with
        card := { s.m.card with key := cfg.a.toUInt32 <<< 8 ||| cfg.b.toUInt32 } },
      copyFromUser env (s.user pid) op.addr op.length.toNat⟩)
    ⟨hq.job, hq.irqs, hq.flag⟩ hbuff
  unfold outcome pieceOutcome
  simp only [Outcome.mk.injEq, true_and, and_true, beq_iff_eq]
  exact congrArg (Option.map Frame.data) hrun

/-- No request on an open file is ever reported as an error. -/
theorem loggedIo_spec {envs : Nat → Env} {k : Nat} (hsig : (envs k).signal = none) (pid fd : Nat)
    (decrypt : Bool) (op : CcOp) (hlen : op.length.toNat < 2 ^ 32) {s : Sys} (log : List Outcome)
    {cfg : CryptocardConfig} (hf : s.files fd = some cfg) (hq : s.m.Quiet) :
    ∃ ret s', loggedIo E envs pid fd k (cmdOf decrypt op) (s, log)
          = some (ret, s', log ++ [pieceOutcome (envs k) (op.addr, op.length.toNat)])
      ∧ (ret = 0 ∨ ret = efault) ∧ s'.files = s.files ∧ s'.m.Quiet := by
  obtain ⟨s', hs', hfiles, hq'⟩ := cryptRequest_quiet E hsig decrypt pid cfg op
    (s := { s with ccSpinlock := false }) rfl hq
  have hret : op.result (envs k) = 0 ∨ op.result (envs k) = efault := by
    unfold CcOp.result
    split
    · exact Or.inr rfl
    · exact Or.inl rfl
  have hnonneg : ¬op.result (envs k) < 0 := by
    rcases hret with h | h <;> rw [h] <;> decide
  have hout : outcomes E (envs k) pid fd (cmdOf decrypt op) s
      = [pieceOutcome (envs k) (op.addr, op.length.toNat)] := by
    have hproc := fun d => outcome_eq E hsig d pid cfg hlen hq
    cases decrypt <;> simp [outcomes, cmdOf, hf, hproc]
  refine ⟨op.result (envs k), s', ?_, hret, hfiles, hq'⟩
  unfold loggedIo ioctl
  have hio : cryptocardIoctl E (envs k) pid fd cfg (cmdOf decrypt op)
      { s with ccSpinlock := false } = some (op.result (envs k), s') := by
    cases decrypt <;> exact hs'
  simp only [hf, hio, hout, Option.map_some, if_neg hnonneg]

/-- A call has made the requests for the pieces `done`, and logged what became of them. -/
structure LoggedUpTo (envs : Nat → Env) (fd : Nat) (cfg : CryptocardConfig)
    (done : List (Nat × Nat)) (r : Int) (st : Sys × List Outcome) : Prop where
  ret : done ≠ [] → r = 0 ∨ r = efault
  file : st.1.files fd = some cfg
  quiet : st.1.m.Quiet
  log : st.2 = done.mapIdx fun i p => pieceOutcome (envs i) p

theorem LoggedUpTo.next {envs : Nat → Env} {fd : Nat} {cfg : CryptocardConfig}
    {done : List (Nat × Nat)} {r : Int} {st : Sys × List Outcome}
    (h : LoggedUpTo envs fd cfg done r st) (hsig : ∀ k, (envs k).signal = none) (pid : Nat)
    (decrypt : Bool) {p : Nat × Nat} (hp : p.2 ≤ 32768) :
    ∃ r' st', loggedIo E envs pid fd done.length (pieceCmd (cmdOf decrypt) 0 p) st = some (r', st')
      ∧ r' ≠ -1 ∧ LoggedUpTo envs fd cfg (done ++ [p]) r' st' := by
  have hlen := toNat_piece hp
  obtain ⟨ret, t, hio, hret, hfiles, hquiet⟩ := loggedIo_spec E (hsig done.length) pid fd decrypt
    ⟨p.1, UInt64.ofNat p.2, 0⟩ (by dsimp only; omega) st.2 h.file h.quiet
  rw [hlen] at hio
  have hcode : ret ≠ -1 := by rcases hret with h | h <;> rw [h] <;> decide
  refine ⟨ret, _, hio, hcode, fun _ => hret, ?_, hquiet, ?_⟩
  · rw [hfiles]
    exact h.file
  · rw [h.log, List.mapIdx_concat]

/-- The card just probed, with file 3 open. -/
def openedCard : Sys := (cryptocardFopen (some (0, 0)) 3 (Sys.probed fun _ _ => 65)).2

/-- A signal that ends the wait at once: the request hands back what it has read. -/
example : (outcome genCipher false { Env.calm with signal := some 0 } 1
    { a := 30, b := 17, dma := 0, interrupt := 1, isKeyset := 1, isConfigset := 1 }
    ⟨4096, 5, 0⟩ openedCard).processed = false := by decide

end LinuxDrivers.Card
