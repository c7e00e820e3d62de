import LinuxDrivers.Card.Pieces
import LinuxDrivers.Card.Refine

/-!
# Encrypting and decrypting through the library

Each request of a call transforms its own chunk, chunks lie end to end, so a call
transforms the whole buffer by whatever its requests do to a byte. For `encrypt`
that is the cipher; for `decrypt` it is the inverse up to 32768 bytes and, because
of the command the long path sends, the cipher once more above that.

The result at the end is what follows for the pair.
-/

namespace LinuxDrivers.Card

variable (E : Cipher)

/-- The driver is between calls, and `fd` is open under the key `(a, b)`. -/
structure Served (s : Sys) (fd : Nat) (a b : UInt8) : Prop where
  between : ∃ keys : Keys, Refines s ⟨keys, s.user⟩ ∧ keys fd = some (some (a, b))

/-- What the card does to one byte of a request. -/
def byteOf (decrypt : Bool) (a b : UInt8) : UInt8 → UInt8 :=
  if decrypt then ⇑(E a b).symm else ⇑(E a b)

/-- One request transforms its bytes in place and leaves the driver between calls. -/
theorem ioctl_served {s : Sys} {fd : Nat} {a b : UInt8} (h : Served s fd a b) (decrypt : Bool)
    {env : Env} (hg : env.Good) (pid : Nat) (op : CcOp)
    (hop : op.isMapped = 0 ∧ op.length.toNat ≤ 32768) :
    ∃ s', ioctl E env pid fd (cmdOf decrypt op) s = some (0, s')
      ∧ s'.user = Function.update s.user pid
          (Mem.mapRange (byteOf E decrypt a b) op.addr op.length.toNat (s.user pid))
      ∧ Served s' fd a b := by
  obtain ⟨keys, hR, hk⟩ := h.between
  obtain ⟨cfg, hf, -⟩ := hR.key fd a b hk
  obtain ⟨s', h1, h2, h3⟩ := request_refines E hR decrypt
    (e := ⟨pid, fd, env, .ioctl (cmdOf decrypt op)⟩) hg hop hf
  refine ⟨s', ?_, ?_, ⟨keys, h3, hk⟩⟩
  · have hio : cryptocardIoctl E env pid fd cfg (cmdOf decrypt op) s = some (0, s') := by
      cases decrypt <;> exact h1
    rw [ioctl, hf]
    dsimp only
    rw [hio]
    rfl
  · exact h2.user_eq hk

/-- A call that started in `s` has transformed the pieces `done`, and stands in `t`. -/
structure ServedUpTo (s : Sys) (fd : Nat) (a b : UInt8) (decrypt : Bool) (pid : Nat)
    (done : List (Nat × Nat)) (r : Int) (t : Sys) : Prop where
  ret : done ≠ [] → r = 0
  user : t.user = Function.update s.user pid
    (Mem.mapSpans (byteOf E decrypt a b) done (s.user pid))
  served : Served t fd a b

theorem ServedUpTo.next {s t : Sys} {fd : Nat} {a b : UInt8} {decrypt : Bool} {pid : Nat}
    {done : List (Nat × Nat)} {r : Int} (h : ServedUpTo E s fd a b decrypt pid done r t)
    {env : Env} (hg : env.Good) {p : Nat × Nat} (hp : p.2 ≤ 32768) :
    ∃ t', ioctl E env pid fd (pieceCmd (cmdOf decrypt) 0 p) t = some (0, t')
      ∧ ServedUpTo E s fd a b decrypt pid (done ++ [p]) 0 t' := by
  have hlen := toNat_piece hp
  obtain ⟨t', hio, huser, ht'⟩ := ioctl_served E h.served decrypt hg pid
    ⟨p.1, UInt64.ofNat p.2, 0⟩ ⟨rfl, by rw [hlen]; exact hp⟩
  refine ⟨t', hio, fun _ => rfl, ?_, ht'⟩
  rw [huser, h.user, hlen, Function.update_self, Function.update_idem, Mem.mapSpans_append]
  rfl

/-- The requests for a list of pieces transform one piece after the other. -/
theorem passes_served {s : Sys} {fd : Nat} {a b : UInt8} (h : Served s fd a b) (decrypt : Bool)
    {envs : Nat → Env} (hg : ∀ k, (envs k).Good) (err : Int) (pid : Nat) {ps : List (Nat × Nat)}
    (hps : ∀ p ∈ ps, p.2 ≤ 32768) (hne : ps ≠ []) :
    ∃ s', passes (fun k => ioctl E (envs k) pid fd) (cmdOf decrypt) 0 ps 0 err s = some (0, s')
      ∧ s'.user = Function.update s.user pid
          (Mem.mapSpans (byteOf E decrypt a b) ps (s.user pid))
      ∧ Served s' fd a b := by
  have hstart : ServedUpTo E s fd a b decrypt pid [] err s :=
    ⟨fun hnil => absurd rfl hnil, (Function.update_eq_self pid s.user).symm, h⟩
  obtain ⟨r, s', hrun, hend⟩ := passes_hist (fun k => ioctl E (envs k) pid fd) (cmdOf decrypt) 0
    (fun done p _ t ht hp =>
      let ⟨t', hio, ht'⟩ := ht.next E (hg done.length) hp
      ⟨0, t', hio, by decide, ht'⟩) hstart hps
  rw [hend.ret hne] at hrun
  exact ⟨s', hrun, hend.user, hend.served⟩

/-- `encrypt` returns 0 and has applied the cipher to every byte of the buffer. -/
theorem encrypt_served {s : Sys} {fd : Nat} {a b : UInt8} (h : Served s fd a b)
    {envs : Nat → Env} (hg : ∀ k, (envs k).Good) (err : Int) (pid addr : Nat) {length : UInt64}
    (hlen : length.toNat < 2 ^ 31) :
    ∃ s', encrypt E envs err pid fd addr length 0 s = some (0, s')
      ∧ s'.user = Function.update s.user pid
          (Mem.mapRange (E a b) addr length.toNat (s.user pid))
      ∧ Served s' fd a b := by
  obtain ⟨s', hrun, huser, hs'⟩ := passes_served E h false hg err pid
    (fun p hp => Nat.le_trans (pieces_le 32000 addr length.toNat (by omega) p hp) (by omega))
    (pieces_ne_nil 32000 addr length.toNat (by omega))
  rw [(tiles_pieces 32000 addr length.toNat).mapSpans_eq, Nat.add_sub_cancel_left] at huser
  refine ⟨s', ?_, huser, hs'⟩
  rw [encrypt, encryptWith_eq err addr hlen]
  exact hrun

/-- `decrypt` returns 0 and has applied the inverse cipher to every byte of a
short buffer, and the cipher itself to every byte of a long one. -/
theorem decrypt_served {s : Sys} {fd : Nat} {a b : UInt8} (h : Served s fd a b)
    {envs : Nat → Env} (hg : ∀ k, (envs k).Good) (err : Int) (pid addr : Nat) {length : UInt64}
    (hlen : length.toNat < 2 ^ 31) :
    ∃ s', decrypt E envs err pid fd addr length 0 s = some (0, s')
      ∧ s'.user = Function.update s.user pid
          (Mem.mapRange (byteOf E (length.toNat ≤ 32768) a b) addr length.toNat (s.user pid))
      ∧ Served s' fd a b := by
  obtain ⟨s', hrun, huser, hs'⟩ := passes_served E h (length.toNat ≤ 32768) hg err pid
    (pieces_le 32768 addr length.toNat (by omega))
    (pieces_ne_nil 32768 addr length.toNat (by omega))
  rw [(tiles_pieces 32768 addr length.toNat).mapSpans_eq, Nat.add_sub_cancel_left] at huser
  refine ⟨s', ?_, huser, hs'⟩
  rw [decrypt, decryptWith_eq err addr hlen]
  exact hrun

/-- After a history of good calls that last set `(a, b)` on `fd`, the file is served. -/
theorem served_of_history {s₀ s : Sys} (h₀ : s₀.Initial) {hist : List Event}
    (hg : ∀ e ∈ hist, e.Good) (hs : runs (Sys.step E) s₀ hist = some s) (fd : Nat) {a b : UInt8}
    (hkey : lastKey hist fd = some (a, b)) : Served s fd a b := by
  obtain ⟨s', hs', hR⟩ := run_refines E h₀ hist hg
  rw [hs] at hs'
  cases hs'
  exact ⟨keysOf hist, hR, Option.join_eq_some_iff.mp hkey⟩

/-- What the pair does to the caller's buffer: nothing when it is short, the
cipher twice when it is long. -/
theorem round_trip_read {s : Sys} {fd : Nat} {a b : UInt8} (h : Served s fd a b)
    (envs envs' : Nat → Env) (hg : ∀ k, (envs k).Good) (hg' : ∀ k, (envs' k).Good)
    (err err' : Int) (pid addr : Nat) (length : UInt64) (hlen : length.toNat < 2 ^ 31) :
    ∃ s₁ s₂, encrypt E envs err pid fd addr length 0 s = some (0, s₁)
      ∧ decrypt E envs' err' pid fd addr length 0 s₁ = some (0, s₂)
      ∧ ((s₂.user pid).read addr length.toNat = (s.user pid).read addr length.toNat ↔
          length.toNat ≤ 32768
            ∨ ∀ i < length.toNat, E a b (E a b (s.user pid (addr + i)))
                = s.user pid (addr + i)) := by
  obtain ⟨s₁, h1, h2, h3⟩ := encrypt_served E h hg err pid addr hlen
  obtain ⟨s₂, h4, h5, -⟩ := decrypt_served E h3 hg' err' pid addr hlen
  refine ⟨s₁, s₂, h1, h4, ?_⟩
  have hmem : s₂.user pid = Mem.mapRange (byteOf E (length.toNat ≤ 32768) a b ∘ E a b)
      addr length.toNat (s.user pid) := by
    rw [h5, Function.update_self, h2, Function.update_self, Mem.mapRange_mapRange_self]
  rw [hmem, Mem.read_mapRange_eq_iff]
  by_cases hshort : length.toNat ≤ 32768
  · simp [hshort, byteOf]
  · simp [hshort, byteOf]

/--
**When encrypting and then decrypting gives the message back.**

For every file with a key, in whatever transfer mode, the pair returns 0 twice;
the buffer holds its original bytes again exactly when it is at most 32768 bytes
long, or the cipher applied twice happens to fix every byte of it.
-/
theorem round_trip_iff {s₀ s : Sys} (h₀ : s₀.Initial) {hist : List Event}
    (hhist : ∀ e ∈ hist, e.Good) (hs : runs (Sys.step E) s₀ hist = some s) (fd : Nat) {a b : UInt8}
    (hkey : lastKey hist fd = some (a, b)) (envs envs' : Nat → Env) (hg : ∀ k, (envs k).Good)
    (hg' : ∀ k, (envs' k).Good) (err err' : Int) (pid addr : Nat) (length : UInt64)
    (hlen : length.toNat < 2 ^ 31) :
    ∃ s₁ s₂, encrypt E envs err pid fd addr length 0 s = some (0, s₁)
      ∧ decrypt E envs' err' pid fd addr length 0 s₁ = some (0, s₂)
      ∧ ((s₂.user pid).read addr length.toNat = (s.user pid).read addr length.toNat ↔
          length.toNat ≤ 32768
            ∨ ∀ i < length.toNat, E a b (E a b (s.user pid (addr + i))) = s.user pid (addr + i)) :=
  round_trip_read E (served_of_history E h₀ hhist hs fd hkey) envs envs' hg hg' err err' pid addr
    length hlen

/-- File 3, opened by process 1 and given the key pair of the evaluation programs. -/
def keyedHistory : List Event :=
  [⟨1, 3, Env.calm, .fopen (some (0, 0))⟩, ⟨1, 3, Env.calm, .ioctl (.setKey ⟨30, 17⟩)⟩]

theorem keyedHistory_good : ∀ e ∈ keyedHistory, e.Good := by
  intro e he
  simp only [keyedHistory, List.mem_cons, List.not_mem_nil, or_false] at he
  rcases he with rfl | rfl
  · exact ⟨Env.calm_good, by simp, by simp⟩
  · exact ⟨Env.calm_good, by simp, by simp⟩

/-- Five letters make the round trip. -/
theorem round_trip_five_letters :
    ∃ s s₁ s₂, runs (Sys.step genCipher) (Sys.probed fun _ _ => 65) keyedHistory = some s
      ∧ encrypt genCipher (fun _ => Env.calm) 0 1 3 4096 5 0 s = some (0, s₁)
      ∧ decrypt genCipher (fun _ => Env.calm) 0 1 3 4096 5 0 s₁ = some (0, s₂)
      ∧ (s₂.user 1).read 4096 5 = (s.user 1).read 4096 5 := by
  obtain ⟨s₁, s₂, h1, h2, h3⟩ := round_trip_iff genCipher (Sys.probed_initial fun _ _ => 65)
    keyedHistory_good rfl 3 (a := 30) (b := 17) rfl (fun _ => Env.calm) (fun _ => Env.calm)
    (fun _ => Env.calm_good) (fun _ => Env.calm_good) 0 0 1 4096 5 (by decide)
  exact ⟨_, s₁, s₂, rfl, h1, h2, h3.mpr (Or.inl (by decide))⟩

/-- 32769 letters `A` come back as 32769 letters `Q`. -/
theorem round_trip_long_message_lost :
    ∃ s s₁ s₂, runs (Sys.step genCipher) (Sys.probed fun _ _ => 65) keyedHistory = some s
      ∧ lastKey keyedHistory 3 = some (30, 17)
      ∧ encrypt genCipher (fun _ => Env.calm) 0 1 3 4096 32769 0 s = some (0, s₁)
      ∧ decrypt genCipher (fun _ => Env.calm) 0 1 3 4096 32769 0 s₁ = some (0, s₂)
      ∧ (s₂.user 1).read 4096 32769 ≠ (s.user 1).read 4096 32769 := by
  have hserved := served_of_history genCipher (Sys.probed_initial fun _ _ => 65)
    keyedHistory_good rfl 3 (a := 30) (b := 17) rfl
  obtain ⟨s₁, s₂, h1, h2, h3⟩ := round_trip_read genCipher hserved (fun _ => Env.calm)
    (fun _ => Env.calm) (fun _ => Env.calm_good) (fun _ => Env.calm_good) 0 0 1 4096 32769
    (by decide)
  refine ⟨_, s₁, s₂, rfl, rfl, h1, h2, fun h => ?_⟩
  rcases h3.mp h with hshort | hfix
  · exact absurd hshort (by decide)
  · exact absurd (hfix 0 (by decide)) (by decide)

end LinuxDrivers.Card
