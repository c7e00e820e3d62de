import LinuxDrivers.Card.OneShot

/-!
# Encrypting in the mapped window

A mapped request carries an address, but the driver never looks at it: the mapped
routines write the same data address to the card every time, the start of the window.
The library knows nothing of that. It cuts a long message into chunks and moves the
address along, so chunk after chunk lands on the first 32000 bytes of the window, and
what lies behind them is never touched.

To count how often a byte is transformed, the operations the card is started on are
collected along the way (`opsAll`). Each request starts one (`windowIo_spec`), always at
the start of the window.

The lock, which a mapped request never gives back, is left out of it here: as in `Honest`
every request is given the lock.
-/

namespace LinuxDrivers.Card

variable (E : Cipher)

/-! ## The operations a routine starts -/

/-- The operation a statement starts, if it starts one. -/
def Instr.starts (lat : Nat) (i : Instr) (f : Frame) : Option Job :=
  let card := (i.effect lat f).m.card
  if card.started = f.m.card.started then none else card.job

/-- The operations a routine starts, in order. -/
def opsAll (env : Env) : List Instr → Frame → List Job
  | [], _ => []
  | i :: is, f =>
    (i.starts env.latency f).toList ++
      match i.run E env f with
      | none => []
      | some f => opsAll env is f

/-- Where an operation works: its first byte and how many there are. -/
def Job.span (j : Job) : Nat × Nat := (j.addr, j.len.toNat)

/-- The statement never starts an operation. -/
def Instr.Inert (i : Instr) : Prop :=
  ∀ lat f, (i.effect lat f).m.card.started = f.m.card.started

theorem Instr.Inert.starts {i : Instr} (h : i.Inert) (lat : Nat) (f : Frame) :
    i.starts lat f = none := if_pos (h lat f)

theorem inert_status (v : UInt32) : (Instr.iowrite32 v mmstatusOff).Inert := fun _ _ => rfl

theorem inert_dataLen (v : UInt32) : (Instr.iowrite32 v mmdataLenOff).Inert := fun _ _ => rfl

theorem inert_ioread32 (off : Nat) : (Instr.ioread32 off).Inert := fun _ _ => rfl

theorem inert_whileBusy (off : Nat) : (Instr.whileBusy off).Inert := fun _ _ => rfl

theorem inert_waitEvent : Instr.waitEventInterruptible.Inert := fun _ _ => rfl

theorem inert_clearWqFlag : Instr.clearWqFlag.Inert := fun _ _ => rfl

theorem opsAll_cons_of_inert {env : Env} {i : Instr} (h : i.Inert) {f f' : Frame}
    (hrun : i.run E env f = some f') (is : List Instr) :
    opsAll E env (i :: is) f = opsAll E env is f' := by
  rw [opsAll, h.starts, hrun]
  rfl

theorem opsAll_of_inert (env : Env) : ∀ (is : List Instr) (f : Frame), (∀ i ∈ is, i.Inert) →
    opsAll E env is f = [] := by
  intro is
  induction is with
  | nil => intro f _; rfl
  | cons i is ih =>
      intro f h
      rw [opsAll, (h i List.mem_cons_self).starts]
      cases i.run E env f with
      | none => rfl
      | some f' => exact ih f' fun x hx => h x (List.mem_cons_of_mem i hx)

/-! ## A mapped routine -/

/-- The frame once a mapped routine has written its registers. -/
def mmapLoaded (status : UInt32) (length : UInt64) (f : Frame) : Frame :=
  { f with
    m := { f.m with
      card := { f.m.card with mmStatus := status, mmLen := length.toUInt32 } } }

/-- From a loaded frame: trigger and wait. One operation is started, at the start of the
window, and it is over when the routine returns. -/
theorem mmap_transfer {env : Env} (status : UInt32) {intr decrypt : Bool} {fin : List Instr}
    (hintr : decide (status &&& 0x80 ≠ 0) = intr) (hdec : decide (status &&& 2 ≠ 0) = decrypt)
    (hfin : Awaits E env intr fin) (hinert : ∀ i ∈ fin, i.Inert) (length : UInt64) {f : Frame}
    (hq : f.m.Quiet) :
    ∃ m' j, runAll E env (.iowrite32 0xa8 mmaddrOff :: fin) (mmapLoaded status length f)
        = some ⟨m', f.data⟩
      ∧ opsAll E env (.iowrite32 0xa8 mmaddrOff :: fin) (mmapLoaded status length f) = [j]
      ∧ j.span = (dataOff, length.toUInt32.toNat) ∧ m'.Quiet
      ∧ m'.card.bar0 = Mem.mapRange (crypt E decrypt f.m.card.key) dataOff length.toUInt32.toNat
          f.m.card.bar0 := by
  let c := (mmapLoaded status length f).m.card
  let j := c.mmJob env.latency 0xa8
  -- the machine with the operation in progress
  let m₁ : Machine := { f.m with card := { c with job := some j, started := c.started + 1 } }
  have htrig : c.trigger j = m₁.card := if_neg (by simp [c, mmapLoaded, hq.job])
  have heff : (Instr.iowrite32 0xa8 mmaddrOff).effect env.latency (mmapLoaded status length f)
      = ⟨m₁, f.data⟩ := by
    show (⟨{ f.m with card := c.trigger j }, f.data⟩ : Frame) = _
    rw [htrig]
  have hrun : (Instr.iowrite32 0xa8 mmaddrOff).run E env (mmapLoaded status length f)
      = some ⟨m₁, f.data⟩ := by
    rw [← heff]
    rfl
  have hirqs : m₁.card.irqs = 0 := hq.irqs
  refine ⟨m₁.awaited E, j, ?_, ?_, rfl, awaited_quiet E hirqs, ?_⟩
  · have hwait := hfin [] ⟨m₁, f.data⟩ j rfl hintr hirqs hq.flag
    rw [List.append_nil] at hwait
    rw [runAll, hrun]
    exact hwait
  · have hstart : (Instr.iowrite32 0xa8 mmaddrOff).starts env.latency (mmapLoaded status length f)
        = some j := by
      unfold Instr.starts
      rw [heff]
      exact if_neg (Nat.succ_ne_self _)
    rw [opsAll, hstart, hrun]
    dsimp only
    rw [opsAll_of_inert E env fin _ hinert]
    rfl
  · show (m₁.settle E).card.bar0 = _
    rw [settle_bar0 E (m := m₁) (j := j) rfl rfl]
    show Mem.mapRange (crypt E (status &&& 2 ≠ 0) f.m.card.key) dataOff length.toUInt32.toNat
      f.m.card.bar0 = _
    rw [hdec]

/-- The statements of a mapped routine before the trigger start nothing and load the
registers. -/
theorem mmap_prologue (env : Env) (status : UInt32) (length : UInt64) (fin : List Instr) {f : Frame}
    (hq : f.m.Quiet) :
    let pre := [.iowrite32 status mmstatusOff, .iowrite32 length.toUInt32 mmdataLenOff,
      .ioread32 mmdataLenOff, .whileBusy mmstatusOff]
    runAll E env (pre ++ fin) f = runAll E env fin (mmapLoaded status length f)
      ∧ opsAll E env (pre ++ fin) f = opsAll E env fin (mmapLoaded status length f) := by
  have hq' : (mmapLoaded status length f).m.Quiet := ⟨hq.job, hq.irqs, hq.flag⟩
  have hbusy : (Instr.whileBusy mmstatusOff).run E env (mmapLoaded status length f)
      = some (mmapLoaded status length f) := by
    rw [run_whileBusy E env (Or.inl rfl) hq'.irqs, settle_of_idle E hq'.job hq'.irqs]
  refine ⟨runAll_whileBusy_quiet E env (Or.inl rfl) hq' fin, ?_⟩
  rw [List.cons_append, opsAll_cons_of_inert E (inert_status status) rfl, List.cons_append,
    opsAll_cons_of_inert E (inert_dataLen _) rfl, List.cons_append,
    opsAll_cons_of_inert E (inert_ioread32 _) rfl, List.singleton_append]
  exact opsAll_cons_of_inert E (inert_whileBusy mmstatusOff) hbusy fin

/-- Whatever the configuration, a mapped encryption starts one operation, on as many bytes
as it was asked for, at the start of the window. -/
theorem mapped_spec {env : Env} {cfg : CryptocardConfig}
    (hs : cfg.interrupt = 0 ∨ env.signal = none) (length : UInt64) {f : Frame} (hq : f.m.Quiet) :
    ∃ m' j, runAll E env ((routines false).mapped cfg length) f = some ⟨m', f.data⟩
      ∧ opsAll E env ((routines false).mapped cfg length) f = [j]
      ∧ j.span = (dataOff, length.toUInt32.toNat) ∧ m'.Quiet
      ∧ m'.card.bar0 = Mem.mapRange (crypt E false f.m.card.key) dataOff length.toUInt32.toNat
          f.m.card.bar0 := by
  have hdec0 : decide ((0x0 : UInt32) &&& 2 ≠ 0) = false := by decide
  have hdec80 : decide ((0x80 : UInt32) &&& 2 ≠ 0) = false := by decide
  unfold Routines.mapped
  by_cases hi : cfg.interrupt = 0
  · rw [if_pos hi]
    obtain ⟨hrun, hops⟩ := mmap_prologue E env 0x0 length
      [.iowrite32 0xa8 mmaddrOff, .whileBusy mmstatusOff] hq
    obtain ⟨m', j, h1, h2, h3⟩ := mmap_transfer E 0x0 (by decide) hdec0
      (awaits_whileBusy E env (Or.inl rfl))
      (by simpa using inert_whileBusy mmstatusOff) length hq
    exact ⟨m', j, hrun.trans h1, hops.trans h2, h3⟩
  · rw [if_neg hi]
    obtain ⟨hrun, hops⟩ := mmap_prologue E env 0x80 length
      [.iowrite32 0xa8 mmaddrOff, .waitEventInterruptible, .clearWqFlag] hq
    obtain ⟨m', j, h1, h2, h3⟩ := mmap_transfer E 0x80 (by decide) hdec80
      (awaits_interrupt E (hs.resolve_left hi))
      (by simpa using ⟨inert_waitEvent, inert_clearWqFlag⟩) length hq
    exact ⟨m', j, hrun.trans h1, hops.trans h2, h3⟩

/-! ## Requests that get the lock, and the operations they start -/

/-- The operations a mapped `ENCRYPT` request on `fd` starts, made in state `s`. -/
def mappedOps (env : Env) (fd : Nat) (cmd : Cmd) (s : Sys) : List Job :=
  match s.files fd, cmd with
  | some cfg, .encrypt op =>
    let key := cfg.a.toUInt32 <<< 8 ||| cfg.b.toUInt32
    let m := { s.m with card := iowrite32 env.latency s.m.card key keyOff }
    opsAll E env ((routines false).mapped cfg op.length) ⟨m, []⟩
  | _, _ => []

/-- The system call with the lock free, collecting the operations that are started. -/
def windowIo (envs : Nat → Env) (pid fd : Nat) (k : Nat) (cmd : Cmd) (st : Sys × List Job) :
    Option (Int × Sys × List Job) :=
  (ioctl E (envs k) pid fd cmd { st.1 with ccSpinlock := false }).map fun (r, s) =>
    (r, s, st.2 ++ mappedOps E (envs k) fd cmd st.1)

/-- The card is idle and `fd` is open under the configuration `cfg`. -/
structure Ready (fd : Nat) (cfg : CryptocardConfig) (s : Sys) : Prop where
  quiet : s.m.Quiet
  file : s.files fd = some cfg

/-- No signal ends a wait: the requests poll, or none arrives. -/
def Undisturbed (cfg : CryptocardConfig) (envs : Nat → Env) : Prop :=
  ∀ k, cfg.interrupt = 0 ∨ (envs k).signal = none

/-- **One mapped request.** Whatever address it carries, it transforms the bytes at the start
of the window. -/
theorem windowIo_spec {envs : Nat → Env} {cfg : CryptocardConfig} (hu : Undisturbed cfg envs)
    (pid fd k : Nat) (op : CcOp) (hmap : op.isMapped = 1) (hlen : op.length.toNat < 2 ^ 32)
    {s : Sys} (hs : Ready fd cfg s) (log : List Job) :
    ∃ s' j, windowIo E envs pid fd k (.encrypt op) (s, log) = some (0, s', log ++ [j])
      ∧ j.span = (dataOff, op.length.toNat) ∧ Ready fd cfg s'
      ∧ s'.m.card.bar0
        = Mem.mapRange (E cfg.a cfg.b) dataOff op.length.toNat s.m.card.bar0 := by
  have hlen32 : op.length.toUInt32.toNat = op.length.toNat := by
    rw [UInt64.toNat_toUInt32]
    exact Nat.mod_eq_of_lt hlen
  -- the machine once the key is written
  let m₁ : Machine :=
    { s.m with card := { s.m.card with key := cfg.a.toUInt32 <<< 8 ||| cfg.b.toUInt32 } }
  have hq₁ : m₁.Quiet := ⟨hs.quiet.job, hs.quiet.irqs, hs.quiet.flag⟩
  obtain ⟨m', j, hrun, hops, hspan, hq', hbar⟩ :=
    mapped_spec E (hu k) op.length (f := ⟨m₁, []⟩) hq₁
  rw [hlen32] at hspan hbar
  have hreq : cryptRequest E (routines false) (envs k) pid cfg op { s with ccSpinlock := false }
      = some (0, { s with ccSpinlock := true, m := m' }) := by
    unfold cryptRequest
    rw [if_neg (by simp)]
    dsimp only
    rw [if_neg (by simp [hmap])]
    have hw : iowrite32 (envs k).latency s.m.card (cfg.a.toUInt32 <<< 8 ||| cfg.b.toUInt32) keyOff
        = m₁.card := rfl
    rw [hw, hrun]
  refine ⟨{ s with ccSpinlock := true, m := m' }, j, ?_, hspan, ⟨hq', hs.file⟩, ?_⟩
  · have hcollect : mappedOps E (envs k) fd (.encrypt op) s = [j] := by
      unfold mappedOps
      rw [hs.file]
      exact hops
    unfold windowIo ioctl
    dsimp only
    rw [hs.file]
    dsimp only [cryptocardIoctl]
    rw [hreq, hcollect]
    rfl
  · rw [← (show crypt E false m₁.card.key = ⇑(E cfg.a cfg.b) from crypt_word E false cfg.a cfg.b)]
    exact hbar

/-! ## The loop -/

/-- Where the operations for the pieces really work: all at the start of the window. -/
def atWindow (ps : List (Nat × Nat)) : List (Nat × Nat) := ps.map fun p => (dataOff, p.2)

/-- The call came back with 0, having started the operations `jobs`, and the window changed
as they say. -/
def Passes (f : UInt8 → UInt8) (ps : List (Nat × Nat)) (s : Sys) (log : List Job)
    (res : Option (Int × Sys × List Job)) : Prop :=
  ∃ s' jobs, res = some (0, s', log ++ jobs) ∧ jobs.map Job.span = atWindow ps
    ∧ s'.m.card.bar0 = Mem.mapSpans f (atWindow ps) s.m.card.bar0

/-- A call that started in `s` has made the passes for the pieces `done`. -/
structure PassedUpTo (s : Sys) (fd : Nat) (cfg : CryptocardConfig) (done : List (Nat × Nat))
    (r : Int) (st : Sys × List Job) : Prop where
  ret : done ≠ [] → r = 0
  ready : Ready fd cfg st.1
  spans : st.2.map Job.span = atWindow done
  bar0 : st.1.m.card.bar0 = Mem.mapSpans (E cfg.a cfg.b) (atWindow done) s.m.card.bar0

theorem PassedUpTo.next {s : Sys} {envs : Nat → Env} {cfg : CryptocardConfig}
    (hu : Undisturbed cfg envs) {fd : Nat} {done : List (Nat × Nat)} {r : Int}
    {st : Sys × List Job} (h : PassedUpTo E s fd cfg done r st) (pid k : Nat) {p : Nat × Nat}
    (hp : p.2 ≤ 32000) :
    ∃ st', windowIo E envs pid fd k (pieceCmd .encrypt 1 p) st = some (0, st')
      ∧ PassedUpTo E s fd cfg (done ++ [p]) 0 st' := by
  have hlen : (UInt64.ofNat p.2).toNat = p.2 := toNat_piece (by omega)
  obtain ⟨t, j, hio, hspan, ht, hbar⟩ := windowIo_spec E hu pid fd k
    ⟨p.1, UInt64.ofNat p.2, 1⟩ rfl (by rw [hlen]; omega) h.ready st.2
  rw [hlen] at hspan hbar
  have hlast : atWindow (done ++ [p]) = atWindow done ++ [(dataOff, p.2)] := List.map_append
  refine ⟨_, hio, fun _ => rfl, ht, ?_, ?_⟩
  · rw [List.map_append, h.spans, List.map_singleton, hspan, hlast]
  · rw [hlast, Mem.mapSpans_append, ← h.bar0]
    exact hbar

/-- A call of `encrypt` on the window makes one pass for each piece. -/
theorem encryptWith_window {envs : Nat → Env} {cfg : CryptocardConfig} (hu : Undisturbed cfg envs)
    (pid fd : Nat) (err : Int) (addr : Nat) {length : UInt64} (hlen : length.toNat < 2 ^ 31)
    {s : Sys} (hs : Ready fd cfg s) :
    Passes (E cfg.a cfg.b) (pieces 32000 addr length.toNat) s []
      (encryptWith (windowIo E envs pid fd) err addr length 1 (s, [])) := by
  have hstart : PassedUpTo E s fd cfg [] err (s, []) :=
    ⟨fun hnil => absurd rfl hnil, hs, rfl, rfl⟩
  obtain ⟨r, ⟨s', jobs⟩, hrun, hend⟩ := passes_hist (windowIo E envs pid fd) .encrypt 1
    (fun done p _ st hst hp =>
      let ⟨st', hio, hst'⟩ := hst.next E hu pid done.length hp
      ⟨0, st', hio, by decide, hst'⟩) hstart (pieces_le 32000 addr length.toNat (by omega))
  rw [hend.ret (pieces_ne_nil 32000 addr length.toNat (by omega))] at hrun
  exact ⟨s', jobs, (encryptWith_eq err addr hlen _).trans hrun, hend.spans, hend.bar0⟩

/-! ## What should have happened -/

/-- The message in the window is encrypted, by going over each of its bytes once, and the rest
of the card's memory is as it was. -/
structure WholeMessage (f : UInt8 → UInt8) (length : Nat) (before after : Mem UInt8)
    (jobs : List Job) : Prop where
  data : after.read dataOff length = (before.read dataOff length).map f
  once : ∀ x, dataOff ≤ x → x < dataOff + length → coverage (jobs.map Job.span) x = 1
  frame : ∀ x, ¬(dataOff ≤ x ∧ x < dataOff + length) → after x = before x

/-- No operation reaches beyond the first chunk. -/
theorem coverage_atWindow_eq_zero (addr length : Nat) {x : Nat} (hx : dataOff + 32000 ≤ x) :
    coverage (atWindow (pieces 32000 addr length)) x = 0 := by
  refine coverage_eq_zero fun q hq hin => ?_
  obtain ⟨p, hp, rfl⟩ := List.mem_map.mp hq
  have hle := pieces_le 32000 addr length (by omega) p hp
  have hlt : x < dataOff + p.2 := hin.2
  omega

/-- A message that fits one chunk takes one pass over exactly its bytes. -/
theorem wholeMessage_of_tiles {f : UInt8 → UInt8} {length : Nat} {before after : Mem UInt8}
    {jobs : List Job} (htiles : Tiles dataOff (dataOff + length) (jobs.map Job.span))
    (hbar : after = Mem.mapSpans f (jobs.map Job.span) before) :
    WholeMessage f length before after jobs := by
  rw [htiles.mapSpans_eq, Nat.add_sub_cancel_left] at hbar
  refine ⟨?_, ?_, ?_⟩
  · rw [hbar, Mem.read_mapRange]
  · intro x hlo hhi
    rw [htiles.coverage_eq, if_pos ⟨hlo, hhi⟩]
  · intro x hx
    rw [hbar, Mem.mapRange_of_not_mem _ _ hx]

/--
**When mapped encryption covers the message.**

For every message that fits the window, under every key, in either mode and whatever the
address: the call comes back, and has encrypted the whole message, each byte once, exactly
if the message is not longer than one chunk.
-/
theorem mapped_encrypt_whole_iff {envs : Nat → Env} {cfg : CryptocardConfig}
    (hu : Undisturbed cfg envs) {s : Sys} {fd : Nat} (hs : Ready fd cfg s) (pid addr : Nat)
    (err : Int) {length : UInt64} (hlen : length.toNat ≤ 0x100000 - 0xa8) :
    ∃ ret s' jobs, encryptWith (windowIo E envs pid fd) err addr length 1 (s, [])
        = some (ret, s', jobs)
      ∧ (WholeMessage (E cfg.a cfg.b) length.toNat s.m.card.bar0 s'.m.card.bar0 jobs
          ↔ length.toNat ≤ 32000) := by
  obtain ⟨s', jobs, hrun, hspans, hbar⟩ :=
    encryptWith_window E hu pid fd err addr (Nat.lt_of_le_of_lt hlen (by decide)) hs
  refine ⟨0, s', jobs, hrun, ?_, ?_⟩
  · intro hwhole
    by_contra hlong
    have hone := hwhole.once (dataOff + 32000) (Nat.le_add_right _ _) (by omega)
    rw [hspans, coverage_atWindow_eq_zero addr _ (Nat.le_refl _)] at hone
    exact absurd hone (by decide)
  · intro hshort
    refine wholeMessage_of_tiles ?_ (by rw [hspans]; exact hbar)
    rw [hspans, pieces, if_pos hshort]
    exact .cons dataOff length.toNat (.nil _)

/-- File 3 is open under the key `(30, 17)`, and the window is full of `A`s. -/
def windowOfAs : Sys :=
  { openedCard with
    m := { openedCard.m with card := { openedCard.m.card with bar0 := fun _ => 65 } }
    files := fun fd =>
      if fd = 3 then
        some { a := 30, b := 17, dma := 0, interrupt := 0, isKeyset := 1, isConfigset := 0 }
      else none }

/-- Of 32001 `A`s the last stays an `A`, where it should have become a `V`; the first has been
encrypted twice. The call returns 0. -/
theorem mapped_encrypt_32001 :
    ∃ s' jobs, encryptWith (windowIo genCipher (fun _ => Env.calm) 1 3) 0 0x7f0000000000 32001 1
        (windowOfAs, []) = some (0, s', jobs)
      ∧ s'.m.card.bar0 (0xa8 + 32000) = 65 ∧ genCipher 30 17 65 = 86
      ∧ coverage (jobs.map Job.span) 0xa8 = 2
      ∧ ¬WholeMessage (genCipher 30 17) 32001 windowOfAs.m.card.bar0 s'.m.card.bar0 jobs := by
  have hready : Ready 3 ⟨30, 17, 0, 0, 1, 0⟩ windowOfAs := ⟨⟨rfl, rfl, rfl⟩, rfl⟩
  have hpolls : Undisturbed ⟨30, 17, 0, 0, 1, 0⟩ fun _ => Env.calm := fun _ => Or.inl rfl
  have hlen : (32001 : UInt64).toNat < 2 ^ 31 := by decide
  obtain ⟨s', jobs, hrun, hspans, hbar⟩ :=
    encryptWith_window genCipher hpolls 1 3 0 0x7f0000000000 hlen hready
  have hlast : coverage (jobs.map Job.span) (0xa8 + 32000) = 0 := by
    rw [hspans]
    exact coverage_atWindow_eq_zero _ _ (Nat.le_refl _)
  refine ⟨s', jobs, hrun, ?_, by decide, by rw [hspans]; decide, fun hwhole => ?_⟩
  · rw [hbar, Mem.mapSpans_apply, ← hspans, hlast]
    rfl
  · have hone := hwhole.once (0xa8 + 32000) (by decide) (by decide)
    rw [hlast] at hone
    exact absurd hone (by decide)

/-- Five bytes are encrypted in place. -/
theorem mapped_encrypt_five :
    ∃ ret s' jobs, encryptWith (windowIo genCipher (fun _ => Env.calm) 1 3) 0 0x7f0000000000 5 1
        (windowOfAs, []) = some (ret, s', jobs)
      ∧ WholeMessage (genCipher 30 17) 5 windowOfAs.m.card.bar0 s'.m.card.bar0 jobs := by
  have hready : Ready 3 ⟨30, 17, 0, 0, 1, 0⟩ windowOfAs := ⟨⟨rfl, rfl, rfl⟩, rfl⟩
  have hpolls : Undisturbed ⟨30, 17, 0, 0, 1, 0⟩ fun _ => Env.calm := fun _ => Or.inl rfl
  have hlen : (5 : UInt64).toNat ≤ 0x100000 - 0xa8 := by decide
  obtain ⟨ret, s', jobs, hrun, hiff⟩ :=
    mapped_encrypt_whole_iff genCipher hpolls hready 1 0x7f0000000000 0 hlen
  exact ⟨ret, s', jobs, hrun, hiff.mpr (by decide)⟩

end LinuxDrivers.Card
