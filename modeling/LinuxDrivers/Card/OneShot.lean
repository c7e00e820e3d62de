import LinuxDrivers.Card.Honest

/-!
# Chunked encryption is one-shot encryption

`crypter1.c` is a second version of the library whose `encrypt` sends the whole buffer in
one request. `crypter.c` cuts it up. This module shows that nobody can tell: the
requests of the loop tile the buffer, so over any device that treats bytes one by one the
two leave the same memory and return the same value.

The two halves are about different systems. What requests are *issued* is a fact about the
library alone, over any system call whatever; it is read off a recording of the requests.
What they *do* needs a device, and the driver with its lock free is one
(`ioctl_bytewise`).
-/

namespace LinuxDrivers.Card

variable (E : Cipher)

section
variable {σ : Type} (io : Nat → Cmd → σ → Option (Int × σ))

/-- `encrypt` of `crypter1.c`: one request, whatever the length. -/
def Crypter1.encryptWith (addr : Nat) (length : UInt64) (isMapped : UInt8) (s : σ) :
    Option (Int × σ) :=
  requestWith io 0 .encrypt ⟨addr, length, isMapped⟩ s

/-! ## The requests that are issued -/

/-- The system call, recording each request with its result. -/
def recorded (k : Nat) (cmd : Cmd) (st : σ × List (Cmd × Int)) :
    Option (Int × σ × List (Cmd × Int)) :=
  (io k cmd st.1).map fun (r, s) => (r, s, st.2 ++ [(cmd, r)])

theorem recorded_eq_some {k : Nat} {cmd : Cmd} {s s' : σ} {log log' : List (Cmd × Int)} {r : Int}
    (h : recorded io k cmd (s, log) = some (r, s', log')) :
    io k cmd s = some (r, s') ∧ log' = log ++ [(cmd, r)] := by
  obtain ⟨⟨r₁, s₁⟩, hio, heq⟩ := Option.map_eq_some_iff.mp h
  cases heq
  exact ⟨hio, rfl⟩

/-- A pass none of whose requests fails issues one for each piece. -/
theorem passes_recorded {cmd : CcOp → Cmd} {isMapped : UInt8} : ∀ (ps : List (Nat × Nat)) (k : Nat)
    (err : Int) {s s' : σ} {log log' : List (Cmd × Int)} {ret : Int},
      passes (recorded io) cmd isMapped ps k err (s, log) = some (ret, s', log') →
      (∀ e ∈ log', e.2 ≠ -1) →
      log'.map Prod.fst = log.map Prod.fst ++ ps.map (pieceCmd cmd isMapped) := by
  intro ps
  induction ps with
  | nil =>
      intro k err s s' log log' ret h _
      cases h
      simp
  | cons p ps ih =>
      intro k err s s' log log' ret h hok
      rw [passes] at h
      cases hio : recorded io k (pieceCmd cmd isMapped p) (s, log) with
      | none => rw [hio] at h; cases h
      | some res =>
          obtain ⟨r, s₁, log₁⟩ := res
          obtain ⟨-, rfl⟩ := recorded_eq_some io hio
          rw [hio] at h
          dsimp only at h
          split at h
          · -- a failed request would be in the recording
            rename_i hr
            cases h
            exact absurd hr (hok _ (List.mem_append_right _ (List.mem_singleton_self _)))
          · rw [ih (k + 1) r h hok]
            simp

/-! ## What they do on a device that treats bytes one by one -/

/-- The system call is a device that applies `f` to every byte of an unmapped request in
the memory `mem`, as long as it is in one of the states `Ok`. -/
def Bytewise (Ok : σ → Prop) (mem : σ → Mem UInt8) (f : UInt8 → UInt8) : Prop :=
  ∀ k op s, Ok s → op.isMapped = 0 → op.length.toNat < 2 ^ 31 →
    ∃ s', io k (.encrypt op) s = some (0, s') ∧ Ok s'
      ∧ mem s' = Mem.mapRange f op.addr op.length.toNat (mem s)

variable {io} {Ok : σ → Prop} {mem : σ → Mem UInt8} {f : UInt8 → UInt8}

theorem requestWith_bytewise (hio : Bytewise io Ok mem f) (k : Nat) (op : CcOp) {s : σ} (hs : Ok s)
    (hmap : op.isMapped = 0) (hlen : op.length.toNat < 2 ^ 31) :
    ∃ s', requestWith io k .encrypt op s = some (0, s')
      ∧ mem s' = Mem.mapRange f op.addr op.length.toNat (mem s) := by
  obtain ⟨s', hreq, -, hmem⟩ := hio k op s hs hmap hlen
  refine ⟨s', ?_, hmem⟩
  rw [requestWith, hreq]
  rfl

/-- A call that started with the memory `m` has transformed the pieces `done`. -/
structure BytewiseUpTo (Ok : σ → Prop) (mem : σ → Mem UInt8) (f : UInt8 → UInt8) (m : Mem UInt8)
    (done : List (Nat × Nat)) (r : Int) (t : σ) : Prop where
  ret : done ≠ [] → r = 0
  ok : Ok t
  mem_eq : mem t = Mem.mapSpans f done m

theorem BytewiseUpTo.next (hio : Bytewise io Ok mem f) {m : Mem UInt8} {done : List (Nat × Nat)}
    {r : Int} {t : σ} (h : BytewiseUpTo Ok mem f m done r t) (k : Nat) {p : Nat × Nat}
    (hp : p.2 ≤ 32000) :
    ∃ t', io k (pieceCmd .encrypt 0 p) t = some (0, t')
      ∧ BytewiseUpTo Ok mem f m (done ++ [p]) 0 t' := by
  have hlen : (UInt64.ofNat p.2).toNat = p.2 := toNat_piece (by omega)
  obtain ⟨t', hreq, ht', hmem⟩ := hio k ⟨p.1, UInt64.ofNat p.2, 0⟩ t h.ok rfl
    (by rw [hlen]; omega)
  refine ⟨t', hreq, fun _ => rfl, ht', ?_⟩
  rw [hmem, h.mem_eq, hlen, Mem.mapSpans_append]
  rfl

/-- A call of `encrypt` transforms its pieces one after another. -/
theorem encryptWith_bytewise (hio : Bytewise io Ok mem f) (err : Int) (addr : Nat)
    {length : UInt64} (hlen : length.toNat < 2 ^ 31) {s : σ} (hs : Ok s) :
    ∃ s', encryptWith io err addr length 0 s = some (0, s')
      ∧ mem s' = Mem.mapSpans f (pieces 32000 addr length.toNat) (mem s) := by
  have hstart : BytewiseUpTo Ok mem f (mem s) [] err s := ⟨fun hnil => absurd rfl hnil, hs, rfl⟩
  obtain ⟨r, s', hrun, hend⟩ := passes_hist io .encrypt 0
    (fun done p _ t ht hp =>
      let ⟨t', hreq, ht'⟩ := ht.next hio done.length hp
      ⟨0, t', hreq, by decide, ht'⟩) hstart (pieces_le 32000 addr length.toNat (by omega))
  rw [hend.ret (pieces_ne_nil 32000 addr length.toNat (by omega))] at hrun
  exact ⟨s', (encryptWith_eq err addr hlen s).trans hrun, hend.mem_eq⟩

end

/-- The recorded requests are unmapped `ENCRYPT` requests for at most 32768 bytes each, and
their spans, in order, tile the buffer. -/
def CoverBuffer (addr length : Nat) (cmds : List Cmd) : Prop :=
  ∃ ops : List CcOp, cmds = ops.map .encrypt
    ∧ (∀ op ∈ ops, op.isMapped = 0 ∧ op.length.toNat ≤ 32768)
    ∧ Tiles addr (addr + length) (ops.map fun op => (op.addr, op.length.toNat))

theorem coverBuffer_pieces (addr length : Nat) :
    CoverBuffer addr length ((pieces 32000 addr length).map (pieceCmd .encrypt 0)) := by
  have hle := pieces_le 32000 addr length (by omega)
  have hnat : ∀ p ∈ pieces 32000 addr length, (UInt64.ofNat p.2).toNat = p.2 := by
    intro p hp
    exact toNat_piece (Nat.le_trans (hle p hp) (by omega))
  refine ⟨(pieces 32000 addr length).map fun p => ⟨p.1, UInt64.ofNat p.2, 0⟩, ?_, ?_, ?_⟩
  · rw [List.map_map]
    rfl
  · intro op hop
    obtain ⟨p, hp, rfl⟩ := List.mem_map.mp hop
    have hp' := hle p hp
    refine ⟨rfl, ?_⟩
    dsimp only
    rw [hnat p hp]
    omega
  · have hspans : ((pieces 32000 addr length).map fun p => (⟨p.1, UInt64.ofNat p.2, 0⟩ : CcOp)).map
        (fun op => (op.addr, op.length.toNat)) = pieces 32000 addr length := by
      rw [List.map_map]
      refine (List.map_congr_left fun p hp => ?_).trans (List.map_id _)
      exact Prod.ext rfl (hnat p hp)
    rw [hspans]
    exact tiles_pieces 32000 addr length

/--
**Chunked encryption equals one-shot encryption.**

For every length below 2³¹: whatever system call the library runs over, the requests of a
call of `encrypt` tile the buffer if none of them fails; and if the system call applies a
function to each byte, that call and the one of `crypter1.c` return the same value and
leave the same memory.
-/
theorem encrypt_eq_one_shot (err : Int) (addr : Nat) {length : UInt64}
    (hlen : length.toNat < 2 ^ 31) :
    (∀ {σ : Type} (io : Nat → Cmd → σ → Option (Int × σ)) (s s' : σ) (ret : Int)
        (log : List (Cmd × Int)),
      encryptWith (recorded io) err addr length 0 (s, []) = some (ret, s', log) →
      (∀ e ∈ log, e.2 ≠ -1) → CoverBuffer addr length.toNat (log.map Prod.fst))
    ∧ ∀ {σ : Type} (io : Nat → Cmd → σ → Option (Int × σ)) (Ok : σ → Prop) (mem : σ → Mem UInt8)
        (f : UInt8 → UInt8), Bytewise io Ok mem f → ∀ s, Ok s →
      ∃ ret s₁ s₂, encryptWith io err addr length 0 s = some (ret, s₁)
        ∧ Crypter1.encryptWith io addr length 0 s = some (ret, s₂) ∧ mem s₁ = mem s₂ := by
  refine ⟨?_, ?_⟩
  · intro σ io s s' ret log hrun hok
    rw [encryptWith_eq err addr hlen] at hrun
    rw [passes_recorded io _ 0 err hrun hok]
    exact coverBuffer_pieces addr length.toNat
  · intro σ io Ok mem f hio s hs
    obtain ⟨s₁, hlong, hmem₁⟩ := encryptWith_bytewise hio err addr hlen hs
    obtain ⟨s₂, hone, hmem₂⟩ := requestWith_bytewise hio 0 ⟨addr, length, 0⟩ hs rfl hlen
    refine ⟨0, s₁, s₂, hlong, hone, ?_⟩
    rw [hmem₁, hmem₂, (tiles_pieces 32000 addr length.toNat).mapSpans_eq f, Nat.add_sub_cancel_left]

/-! ## The driver is such a device -/

/-- Between calls, with `fd` open under the configuration `cfg`. -/
structure Idle (fd : Nat) (cfg : CryptocardConfig) (s : Sys) : Prop where
  lock : s.ccSpinlock = false
  quiet : s.m.Quiet
  file : s.files fd = some cfg

/-- As long as nothing goes wrong outside it, the driver applies the cipher to each byte. -/
theorem ioctl_bytewise {envs : Nat → Env} (hg : ∀ k, (envs k).Good) (pid fd : Nat)
    (cfg : CryptocardConfig) :
    Bytewise (fun k => ioctl E (envs k) pid fd) (Idle fd cfg) (fun s => s.user pid)
      (E cfg.a cfg.b) := by
  intro k op s hs hmap hlen
  obtain ⟨m', hreq, hq'⟩ := cryptRequest_spec E (hg k) false pid cfg hmap
    (Nat.lt_trans hlen (by decide)) hs.lock hs.quiet
  have hio : ∀ s', cryptRequest E (routines false) (envs k) pid cfg op s = some (0, s') →
      ioctl E (envs k) pid fd (.encrypt op) s = some (0, s') := by
    intro s' hs'
    rw [ioctl, hs.file]
    dsimp only [cryptocardIoctl]
    rw [hs']
    rfl
  refine ⟨_, hio _ hreq, ⟨rfl, hq', hs.file⟩, ?_⟩
  dsimp only
  rw [Function.update_self]
  rfl

/-- The requests for 64001 bytes, and what becomes of them on a freshly probed card. -/
theorem encrypt_64001_eq_one_shot :
    (∃ log, encryptWith (recorded fun _ _ s => some (0, s)) 0 4096 64001 0 ((), [])
        = some (0, (), log) ∧ CoverBuffer 4096 64001 (log.map Prod.fst))
    ∧ ∃ ret s₁ s₂, encryptWith (fun _ => ioctl genCipher Env.calm 1 3) 0 4096 64001 0 openedCard
          = some (ret, s₁)
        ∧ Crypter1.encryptWith (fun _ => ioctl genCipher Env.calm 1 3) 4096 64001 0 openedCard
          = some (ret, s₂)
        ∧ s₁.user 1 = s₂.user 1 := by
  have hlen : (64001 : UInt64).toNat < 2 ^ 31 := by decide
  obtain ⟨htiles, hagree⟩ := encrypt_eq_one_shot 0 4096 hlen
  refine ⟨⟨_, rfl, htiles (fun _ _ s => some (0, s)) () () 0 _ rfl ?_⟩, ?_⟩
  · intro e he
    simp only [List.nil_append, List.cons_append, List.mem_cons, List.not_mem_nil, or_false] at he
    rcases he with rfl | rfl | rfl <;> decide
  · exact hagree _ _ _ _ (ioctl_bytewise genCipher (fun _ => Env.calm_good) 1 3 _) openedCard
      ⟨rfl, ⟨rfl, rfl, rfl⟩, rfl⟩

end LinuxDrivers.Card
