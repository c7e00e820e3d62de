import LinuxDrivers.Card.Routine
import LinuxDrivers.Card.Service

/-!
# The driver refines the service

The invariant that carries the refinement is small: between calls the lock is
free and the machine is quiet. Everything a previous request could have left
behind for the next one (a stale direction or interrupt bit, a stale key, a flag
still up) is overwritten before the trigger, because each routine writes its
status word and length, and each request writes the key, on every call.
-/

namespace LinuxDrivers.Card

variable (E : Cipher)

/-! ## One request -/

/-- Whatever the configuration, an unmapped request runs the transfer the command names. -/
theorem unmapped_spec {env : Env} (hs : env.signal = none) (decrypt : Bool)
    (cfg : CryptocardConfig) (length : UInt64) {f : Frame} (hq : f.m.Quiet)
    (hlen : f.data.length = length.toUInt32.toNat) :
    ∃ m', runAll E env ((routines decrypt).unmapped cfg env length) f
        = some ⟨m', f.data.map (crypt E decrypt f.m.card.key)⟩ ∧ m'.Quiet := by
  have hpoll : Awaits E env false [.whileBusy mmstatusOff] :=
    awaits_whileBusy E env (Or.inl rfl)
  have hpollDma : Awaits E env false [.whileBusy dmaCmdOff] :=
    awaits_whileBusy E env (Or.inr rfl)
  have hintr := awaits_interrupt E hs
  unfold Routines.unmapped
  cases decrypt with
  | false =>
      split
      · split
        · exact encryptionMmioPoll_eq E env hq length ▸
            mmio_transfer E 0x0 (by decide) (by decide) hpoll hq hlen
        · exact mmioInterrupt_eq E env hq 0x80 length ▸
            mmio_transfer E 0x80 (by decide) (by decide) hintr hq hlen
      · split
        · exact dmaPoll_eq E env hq 0x1 env.dmaHandle length ▸
            dma_transfer E 0x1 (by decide) (by decide) (by decide) hpollDma env.dma32 hq hlen
        · exact dmaInterrupt_eq E env hq (0x1 ||| 0x4) env.dmaHandle length ▸
            dma_transfer E (0x1 ||| 0x4) (by decide) (by decide) (by decide) hintr env.dma32 hq hlen
  | true =>
      split
      · split
        · exact decryptionMmioPoll_eq E env hq length ▸
            mmio_transfer E 0x2 (by decide) (by decide) hpoll hq hlen
        · exact mmioInterrupt_eq E env hq 0x82 length ▸
            mmio_transfer E 0x82 (by decide) (by decide) hintr hq hlen
      · split
        · exact dmaPoll_eq E env hq (0x1 ||| 0x2) env.dmaHandle length ▸
            dma_transfer E (0x1 ||| 0x2) (by decide) (by decide) (by decide) hpollDma
              env.dma32 hq hlen
        · exact dmaInterrupt_eq E env hq (0x1 ||| 0x2 ||| 0x4) env.dmaHandle length ▸
            dma_transfer E (0x1 ||| 0x2 ||| 0x4) (by decide) (by decide) (by decide) hintr
              env.dma32 hq hlen

/-- The key the request writes is the file's own. -/
theorem crypt_word (decrypt : Bool) (a b : UInt8) :
    crypt E decrypt (a.toUInt32 <<< 8 ||| b.toUInt32)
      = if decrypt then ⇑(E a b).symm else ⇑(E a b) := by
  rw [crypt, keyA_word, keyB_word]

/-- A request during which nothing goes wrong outside the driver. -/
structure Env.Good (env : Env) : Prop where
  noSignal : env.signal = none
  copyIn : env.copyIn = 0
  copyOut : env.copyOut = 0

theorem Env.calm_good : Env.calm.Good := ⟨rfl, rfl, rfl⟩

theorem length_copyFromUser (env : Env) (user : Mem UInt8) (addr n : Nat) :
    (copyFromUser env user addr n).length = n := by
  unfold copyFromUser
  rw [List.length_append, Mem.length_read, List.length_replicate]
  omega

theorem copyFromUser_good {env : Env} (hg : env.Good) (user : Mem UInt8) (addr n : Nat) :
    copyFromUser env user addr n = user.read addr n := by
  simp [copyFromUser, hg.copyIn]

theorem copyToUser_good {env : Env} (hg : env.Good) (user : Mem UInt8) (addr : Nat)
    {buff : List UInt8} {n : Nat} (hn : buff.length = n) :
    copyToUser env user addr buff n = (0, user.write addr buff) := by
  simp [copyToUser, hg.copyOut, ← hn]

/-- **One request.** From a free lock and a quiet machine an unmapped request
transforms exactly the caller's bytes, under the file's key, and leaves the lock
free and the machine quiet. -/
theorem cryptRequest_spec {env : Env} (hg : env.Good) (decrypt : Bool) (pid : Nat)
    (cfg : CryptocardConfig) {op : CcOp} (hmap : op.isMapped = 0) (hlen : op.length.toNat < 2 ^ 32)
    {s : Sys} (hlock : s.ccSpinlock = false) (hq : s.m.Quiet) :
    ∃ m', cryptRequest E (routines decrypt) env pid cfg op s = some (0,
          { s with
            m := m'
            ccSpinlock := false
            user := Function.update s.user pid
              (Mem.mapRange (if decrypt then ⇑(E cfg.a cfg.b).symm else ⇑(E cfg.a cfg.b))
                op.addr op.length.toNat (s.user pid)) })
      ∧ m'.Quiet := by
  have hu : op.length.toUInt32.toNat = op.length.toNat := by
    rw [UInt64.toNat_toUInt32]
    exact Nat.mod_eq_of_lt hlen
  -- the machine once the key is written
  let m₁ : Machine :=
    { s.m with card := { s.m.card with key := cfg.a.toUInt32 <<< 8 ||| cfg.b.toUInt32 } }
  have hq₁ : m₁.Quiet := ⟨hq.job, hq.irqs, hq.flag⟩
  obtain ⟨m', hrun, hq'⟩ := unmapped_spec E hg.noSignal decrypt cfg op.length
    (f := ⟨m₁, (s.user pid).read op.addr op.length.toNat⟩) hq₁ (by rw [Mem.length_read, hu])
  have hkey : m₁.card.key = cfg.a.toUInt32 <<< 8 ||| cfg.b.toUInt32 := rfl
  refine ⟨m', ?_, hq'⟩
  unfold cryptRequest
  rw [if_neg (by simp [hlock])]
  dsimp only
  rw [if_pos hmap, copyFromUser_good hg]
  have hw : iowrite32 env.latency s.m.card (cfg.a.toUInt32 <<< 8 ||| cfg.b.toUInt32) keyOff
      = m₁.card := rfl
  rw [hw]
  rw [hrun]
  dsimp only
  rw [copyToUser_good hg _ _ (by simp), hkey, crypt_word, Mem.write_map_read]
  rfl

/-! ## The refinement -/

/-- The driver state `s` implements the service state `σ`. -/
structure Refines (s : Sys) (σ : Service) : Prop where
  /-- Both have the same process memories. -/
  user : s.user = σ.user
  /-- Both have the same files open. -/
  isOpen : ∀ fd, (s.files fd).isSome = (σ.keys fd).isSome
  /-- A keyed file's configuration holds its key. -/
  key : ∀ fd a b, σ.keys fd = some (some (a, b)) →
    ∃ cfg, s.files fd = some cfg ∧ cfg.a = a ∧ cfg.b = b
  /-- The lock is free between calls. -/
  lock : s.ccSpinlock = false
  /-- The machine is quiet between calls. -/
  quiet : s.m.Quiet

/-- A call the service makes promises about: allocations and copies succeed, no
signal arrives, and requests are unmapped and fit the card's internal buffer. -/
structure Event.Good (e : Event) : Prop where
  env : e.env.Good
  alloc : e.call ≠ .fopen none
  request : ∀ op, e.call = .ioctl (.encrypt op) ∨ e.call = .ioctl (.decrypt op) →
    op.isMapped = 0 ∧ op.length.toNat ≤ 32768

/-- Storing a configuration that matches the file's new status keeps the refinement. -/
theorem Refines.setFile {s : Sys} {σ : Service} (h : Refines s σ) (fd : Nat)
    {cfg : Option CryptocardConfig} {k : Option (Option (UInt8 × UInt8))}
    (hopen : cfg.isSome = k.isSome)
    (hkey : ∀ a b, k = some (some (a, b)) → ∃ c, cfg = some c ∧ c.a = a ∧ c.b = b) :
    Refines (s.setFile fd cfg) { σ with keys := Function.update σ.keys fd k } where
  user := h.user
  isOpen := by
    intro x
    by_cases hx : x = fd
    · subst hx
      simp [Sys.setFile, hopen]
    · simp [Sys.setFile, hx, h.isOpen x]
  key := by
    intro x a b hk
    by_cases hx : x = fd
    · subst hx
      simp only [Function.update_self] at hk
      obtain ⟨c, hc, hab⟩ := hkey a b hk
      exact ⟨c, by simp [Sys.setFile, hc], hab⟩
    · simp only [Function.update_of_ne hx] at hk
      obtain ⟨c, hc, hab⟩ := h.key x a b hk
      exact ⟨c, by simp [Sys.setFile, hx, hc], hab⟩
  lock := h.lock
  quiet := h.quiet

/-- Changing anything but the key of an open file is invisible to the service. -/
theorem Refines.setFile_config {s : Sys} {σ : Service} (h : Refines s σ) {fd : Nat}
    {cfg cfg' : CryptocardConfig} (hf : s.files fd = some cfg)
    (hkey : cfg'.a = cfg.a ∧ cfg'.b = cfg.b) : Refines (s.setFile fd (some cfg')) σ := by
  have hopen : (some cfg').isSome = (σ.keys fd).isSome := by
    rw [← h.isOpen fd, hf]
    rfl
  have hkey' : ∀ a b, σ.keys fd = some (some (a, b)) →
      ∃ c, some cfg' = some c ∧ c.a = a ∧ c.b = b := by
    intro a b hab
    obtain ⟨c, hc, hcab⟩ := h.key fd a b hab
    rw [hf] at hc
    cases hc
    exact ⟨cfg', rfl, by rw [hkey.1, hkey.2]; exact hcab⟩
  have h' := h.setFile fd hopen hkey'
  rwa [Function.update_eq_self] at h'

/-- A request on an open file does what the service allows. -/
theorem request_refines {s : Sys} {σ : Service} (h : Refines s σ) (decrypt : Bool) {e : Event}
    (hg : e.env.Good) {op : CcOp} (hop : op.isMapped = 0 ∧ op.length.toNat ≤ 32768)
    {cfg : CryptocardConfig} (hfile : s.files e.fd = some cfg) :
    ∃ s', cryptRequest E (routines decrypt) e.env e.pid cfg op s = some (0, s')
      ∧ σ.Request (fun a b => if decrypt then ⇑(E a b).symm else ⇑(E a b)) e op ⟨σ.keys, s'.user⟩
      ∧ Refines s' ⟨σ.keys, s'.user⟩ := by
  obtain ⟨m', hrun, hq'⟩ :=
    cryptRequest_spec E hg decrypt e.pid cfg hop.1 (by omega) h.lock h.quiet
  rw [hrun]
  refine ⟨_, rfl, ?_, ⟨rfl, h.isOpen, h.key, rfl, hq'⟩⟩
  unfold Service.Request
  have hopen := h.isOpen e.fd
  rw [hfile] at hopen
  split
  · rename_i hk
    rw [hk] at hopen
    exact absurd hopen (by simp)
  · -- no key yet: whatever the bytes become, they are the caller's own
    refine ⟨fun p hp => ?_, fun x hx => ?_⟩
    · rw [← h.user]
      exact Function.update_of_ne hp _ _
    · rw [← h.user]
      dsimp only
      rw [Function.update_self, Mem.mapRange_of_not_mem _ _ hx]
  · rename_i a b hk
    obtain ⟨c, hc, rfl, rfl⟩ := h.key e.fd a b hk
    rw [hfile] at hc
    cases hc
    rw [← h.user]

/-- **The driver refines the service**, one call at a time. -/
theorem step_refines {s : Sys} {σ : Service} (h : Refines s σ) {e : Event} (hg : e.Good) :
    ∃ s' σ', s.step E e = some s' ∧ σ.Step E e σ' ∧ Refines s' σ' := by
  cases step_cases E h.isOpen e with
  | idle hs hk hreq =>
      exact ⟨s, σ, hs, Service.step_of_not_request E hk.symm rfl hreq, h⟩
  | noMemory hc => exact absurd hc hg.alloc
  | setFile s₀ cfg key hs₀ hs hk hopen hkey hreq =>
      have h₀ : Refines s₀ σ := by
        rw [hs₀]
        exact ⟨h.user, h.isOpen, h.key, h.lock, h.quiet⟩
      exact ⟨_, { σ with keys := Function.update σ.keys e.fd key }, hs,
        Service.step_of_not_request E hk.symm rfl fun hr => absurd hr hreq,
        h₀.setFile e.fd hopen hkey⟩
  | setConfig cfg cfg' hf hs hk hab hreq =>
      exact ⟨_, σ, hs, Service.step_of_not_request E hk.symm rfl fun hr => absurd hr hreq,
        h.setFile_config hf hab⟩
  | request decrypt op cfg hc hf hs hk =>
      have hop : op.isMapped = 0 ∧ op.length.toNat ≤ 32768 :=
        hg.request op (by cases decrypt <;> simp [hc])
      obtain ⟨s', hrun, hstep, h'⟩ := request_refines E h decrypt hg.env hop hf
      refine ⟨s', ⟨σ.keys, s'.user⟩, by rw [hs, hrun]; rfl, ⟨hk.symm, ?_⟩, h'⟩
      rw [hc]
      cases decrypt with
      | false => exact hstep
      | true => exact hstep

/-! ## Whole runs -/

theorem refines_initial {s : Sys} (h : s.Initial) : Refines s ⟨fun _ => none, s.user⟩ where
  user := rfl
  isOpen := by simp [h.files]
  key := by simp
  lock := h.lock
  quiet := ⟨h.job, h.irqs, h.flag⟩

/-- Along every run of good calls the driver implements the service, with the
files and keys the history of the run says. -/
theorem run_refines {s₀ : Sys} (h₀ : s₀.Initial) (hist : List Event) (hg : ∀ e ∈ hist, e.Good) :
    ∃ s, runs (Sys.step E) s₀ hist = some s ∧ Refines s ⟨keysOf hist, s.user⟩ := by
  refine runs_hist (P := fun h s => Refines s ⟨keysOf h, s.user⟩) (refines_initial h₀) ?_ hist
    (along_of_forall hg)
  intro h s e hR he
  obtain ⟨s', σ', hs, hσ, hR'⟩ := step_refines E hR he
  refine ⟨s', hs, ?_⟩
  have hk : σ'.keys = keysOf (h ++ [e]) := by rw [keysOf_snoc]; exact hσ.1
  rw [← hk, hR'.user]
  exact hR'

/--
**Every request of every run is served correctly.**

After any history of good calls, on any files and in any order, a request on a
file that has had a key set replaces exactly the caller's bytes, under the last
key set on that file, and leaves the completion flag down.
-/
theorem driver_runs_correct {s₀ : Sys} (h₀ : s₀.Initial) (hist : List Event) (e : Event)
    (hg : ∀ x ∈ hist ++ [e], x.Good) :
    ∃ s s', runs (Sys.step E) s₀ hist = some s ∧ s.step E e = some s'
      ∧ (∀ op a b, e.call = .ioctl (.encrypt op) → lastKey hist e.fd = some (a, b) →
          s'.user = Function.update s.user e.pid
            (Mem.mapRange (E a b) op.addr op.length.toNat (s.user e.pid)))
      ∧ (∀ op a b, e.call = .ioctl (.decrypt op) → lastKey hist e.fd = some (a, b) →
          s'.user = Function.update s.user e.pid
            (Mem.mapRange (E a b).symm op.addr op.length.toNat (s.user e.pid)))
      ∧ s'.m.wqFlag = 0 := by
  obtain ⟨s, hs, hR⟩ := run_refines E h₀ hist (fun x hx => hg x (by simp [hx]))
  obtain ⟨s', σ', hs', hσ, hR'⟩ := step_refines E hR (hg e (by simp))
  have hkeys : ∀ a b, lastKey hist e.fd = some (a, b) → keysOf hist e.fd = some (some (a, b)) := by
    intro a b h
    exact Option.join_eq_some_iff.mp h
  have hstep := hσ.2
  refine ⟨s, s', hs, hs', ?_, ?_, hR'.quiet.flag⟩
  · intro op a b hc hk
    rw [hc] at hstep
    exact hR'.user.trans (hstep.user_eq (hkeys a b hk))
  · intro op a b hc hk
    rw [hc] at hstep
    exact hR'.user.trans (hstep.user_eq (hkeys a b hk))

/-- Five bytes encrypted by DMA with interrupts, under the key set before the mode. -/
theorem driver_encrypts_five_bytes :
    ∃ s s', runs (Sys.step genCipher) (Sys.probed fun _ _ => 65)
        [⟨1, 3, Env.calm, .fopen (some (0, 0))⟩, ⟨1, 3, Env.calm, .ioctl (.setKey ⟨30, 17⟩)⟩,
          ⟨1, 3, Env.calm, .ioctl (.setConfig ⟨1, 1⟩)⟩,
          ⟨1, 3, Env.calm, .ioctl (.setConfig ⟨0, 1⟩)⟩] = some s
      ∧ s.step genCipher ⟨1, 3, Env.calm, .ioctl (.encrypt ⟨4096, 5, 0⟩)⟩ = some s'
      ∧ s'.user = Function.update s.user 1 (Mem.mapRange (genCipher 30 17) 4096 5 (s.user 1))
      ∧ s'.m.wqFlag = 0 := by
  obtain ⟨s, s', h1, h2, h3, -, h5⟩ := driver_runs_correct genCipher
    (Sys.probed_initial fun _ _ => 65)
    [⟨1, 3, Env.calm, .fopen (some (0, 0))⟩, ⟨1, 3, Env.calm, .ioctl (.setKey ⟨30, 17⟩)⟩,
      ⟨1, 3, Env.calm, .ioctl (.setConfig ⟨1, 1⟩)⟩, ⟨1, 3, Env.calm, .ioctl (.setConfig ⟨0, 1⟩)⟩]
    ⟨1, 3, Env.calm, .ioctl (.encrypt ⟨4096, 5, 0⟩)⟩ (by
      intro x hx
      simp only [List.cons_append, List.nil_append, List.mem_cons, List.not_mem_nil, or_false] at hx
      rcases hx with rfl | rfl | rfl | rfl | rfl
      all_goals refine ⟨Env.calm_good, by simp, ?_⟩
      all_goals simp)
  exact ⟨s, s', h1, h2, h3 ⟨4096, 5, 0⟩ 30 17 rfl rfl, h5⟩

end LinuxDrivers.Card
