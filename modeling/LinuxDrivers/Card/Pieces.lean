import LinuxDrivers.Lib.Tiling
import LinuxDrivers.Card.Library

/-!
# The pieces of a buffer

A call of `encrypt` or `decrypt` cuts its buffer into pieces and makes a request for each.
Most of what can be said about a call does not depend on what a request does. Over any
system call the functions are brought into the form in which they are used: a pass over the
list of pieces (`encryptWith_eq`, `decryptWith_eq`), to which a rule with an invariant
applies (`passes_hist`).

The count of chunks is a C `int`, which is why the length has to be below 2³¹.
-/

namespace LinuxDrivers.Card

/-! ## The pieces -/

/-- The pieces of `count` chunks and a remainder, from `new` on. -/
def piecesFrom (chunk residual : Nat) : Nat → Nat → List (Nat × Nat)
  | 0, new => if residual ≠ 0 then [(new, residual)] else []
  | count + 1, new => (new, chunk) :: piecesFrom chunk residual count (new + chunk)

/-- How a buffer is cut up: in one piece, if it is not longer than a chunk. -/
def pieces (chunk addr length : Nat) : List (Nat × Nat) :=
  if length ≤ chunk then [(addr, length)]
  else piecesFrom chunk (length % chunk) (length / chunk) addr

/-- The request for one piece. -/
def pieceCmd (cmd : CcOp → Cmd) (isMapped : UInt8) (p : Nat × Nat) : Cmd :=
  cmd ⟨p.1, UInt64.ofNat p.2, isMapped⟩

theorem tiles_piecesFrom (chunk residual : Nat) : ∀ count new,
    Tiles new (new + (count * chunk + residual)) (piecesFrom chunk residual count new) := by
  intro count
  induction count with
  | zero =>
      intro new
      rw [piecesFrom, Nat.zero_mul, Nat.zero_add]
      split
      · exact .cons new residual (.nil _)
      · have hres : residual = 0 := by omega
        rw [hres]
        exact .nil new
  | succ count ih =>
      intro new
      have hend : new + ((count + 1) * chunk + residual)
          = new + chunk + (count * chunk + residual) := by
        rw [Nat.succ_mul]
        omega
      rw [piecesFrom, hend]
      exact .cons new chunk (ih (new + chunk))

theorem tiles_pieces (chunk addr length : Nat) :
    Tiles addr (addr + length) (pieces chunk addr length) := by
  unfold pieces
  split
  · exact .cons addr length (.nil _)
  · have htiles := tiles_piecesFrom chunk (length % chunk) (length / chunk) addr
    rwa [Nat.div_add_mod'] at htiles

theorem piecesFrom_le {chunk residual : Nat} (hres : residual ≤ chunk) : ∀ count new,
    ∀ p ∈ piecesFrom chunk residual count new, p.2 ≤ chunk := by
  intro count
  induction count with
  | zero =>
      intro new p hp
      rw [piecesFrom] at hp
      split at hp
      · rw [List.mem_singleton.mp hp]
        exact hres
      · exact absurd hp List.not_mem_nil
  | succ count ih =>
      intro new p hp
      rcases List.mem_cons.mp hp with rfl | hp
      · exact Nat.le_refl chunk
      · exact ih (new + chunk) p hp

theorem pieces_le (chunk addr length : Nat) (hchunk : 0 < chunk) :
    ∀ p ∈ pieces chunk addr length, p.2 ≤ chunk := by
  unfold pieces
  split
  · intro p hp
    rw [List.mem_singleton.mp hp]
    assumption
  · exact piecesFrom_le (Nat.le_of_lt (Nat.mod_lt length hchunk)) _ _

theorem pieces_ne_nil (chunk addr length : Nat) (hchunk : 0 < chunk) :
    pieces chunk addr length ≠ [] := by
  unfold pieces
  split
  · exact List.cons_ne_nil _ _
  · rename_i hlong
    have hpos : 0 < length / chunk := Nat.div_pos (by omega) hchunk
    obtain ⟨count, hcount⟩ := Nat.exists_eq_succ_of_ne_zero (Nat.ne_of_gt hpos)
    rw [hcount, piecesFrom]
    exact List.cons_ne_nil _ _

/-- The length of a piece fits its field of the request. -/
theorem toNat_piece {n : Nat} (h : n ≤ 32768) : (UInt64.ofNat n).toNat = n :=
  UInt64.toNat_ofNat_of_lt' (Nat.lt_of_le_of_lt h (by decide))

/-! ## A call is a pass over the pieces -/

/-- The command whose requests decrypt, or encrypt. -/
def cmdOf (decrypt : Bool) : CcOp → Cmd := if decrypt then .decrypt else .encrypt

theorem toInt_of_lt {n : Nat} (h : n < 2 ^ 31) : (toInt n).toNat = n := by
  unfold toInt Int.bmod
  dsimp only
  split <;> omega

section
variable {σ : Type} (io : Nat → Cmd → σ → Option (Int × σ))

/-- Make a request for each piece, up to the first that fails. The `k`-th request is next, and
`err` is the result so far. -/
def passes (cmd : CcOp → Cmd) (isMapped : UInt8) :
    List (Nat × Nat) → Nat → Int → σ → Option (Int × σ)
  | [], _, err, s => some (err, s)
  | p :: ps, k, _, s =>
    match io k (pieceCmd cmd isMapped p) s with
    | none => none
    | some (err, s) => if err = -1 then some (error, s) else passes cmd isMapped ps (k + 1) err s

variable {io} {cmd : CcOp → Cmd} {isMapped : UInt8}

variable (io cmd isMapped) in
theorem requestWith_eq (k : Nat) (p : Nat × Nat) (err : Int) (s : σ) :
    requestWith io k cmd ⟨p.1, UInt64.ofNat p.2, isMapped⟩ s
      = passes io cmd isMapped [p] k err s := by
  unfold requestWith passes pieceCmd
  cases io k (cmd ⟨p.1, UInt64.ofNat p.2, isMapped⟩) s with
  | none => rfl
  | some r => rfl

theorem chunksWith_eq (chunk residual : Nat) : ∀ (count k new : Nat) (err : Int) (s : σ),
    chunksWith io cmd isMapped chunk residual count k new err s
      = passes io cmd isMapped (piecesFrom chunk residual count new) k err s := by
  intro count
  induction count with
  | zero =>
      intro k new err s
      rw [chunksWith, piecesFrom]
      by_cases hr : residual ≠ 0
      · rw [if_pos hr, if_pos hr, requestWith_eq io cmd isMapped k (new, residual) err s]
      · rw [if_neg hr, if_neg hr]
        rfl
  | succ count ih =>
      intro k new err s
      rw [chunksWith, piecesFrom, passes, pieceCmd]
      cases io k (cmd ⟨new, UInt64.ofNat chunk, isMapped⟩) s with
      | none => rfl
      | some r => simp only [ih]

/-- Both paths of a call at once, for a length that fits an `int`. -/
theorem call_eq {chunk : Nat} {cmd' : CcOp → Cmd} (err : Int) (addr : Nat) {length : UInt64}
    (hlen : length.toNat < 2 ^ 31) (s : σ) :
    (if length.toNat ≤ chunk then requestWith io 0 cmd ⟨addr, length, isMapped⟩ s
      else chunksWith io cmd' isMapped chunk (length.toNat % chunk)
        (toInt (length.toNat / chunk)).toNat 0 addr err s)
      = passes io (if length.toNat ≤ chunk then cmd else cmd') isMapped
          (pieces chunk addr length.toNat) 0 err s := by
  by_cases hshort : length.toNat ≤ chunk
  · have hreq := requestWith_eq io cmd isMapped 0 (addr, length.toNat) err s
    rw [UInt64.ofNat_toNat] at hreq
    rw [if_pos hshort, if_pos hshort, pieces, if_pos hshort, hreq]
  · rw [if_neg hshort, if_neg hshort, pieces, if_neg hshort, chunksWith_eq,
      toInt_of_lt (Nat.lt_of_le_of_lt (Nat.div_le_self _ _) hlen)]

theorem encryptWith_eq (err : Int) (addr : Nat) {length : UInt64} (hlen : length.toNat < 2 ^ 31)
    (s : σ) : encryptWith io err addr length isMapped s
      = passes io .encrypt isMapped (pieces 32000 addr length.toNat) 0 err s := by
  unfold encryptWith
  dsimp only
  rw [call_eq err addr hlen, ite_self]

/-- The long path sends the other command. -/
theorem decryptWith_eq (err : Int) (addr : Nat) {length : UInt64} (hlen : length.toNat < 2 ^ 31)
    (s : σ) : decryptWith io err addr length isMapped s
      = passes io (cmdOf (length.toNat ≤ 32768)) isMapped (pieces 32768 addr length.toNat) 0 err
          s := by
  unfold decryptWith
  dsimp only
  rw [call_eq err addr hlen]
  by_cases hshort : length.toNat ≤ 32768
  · rw [if_pos hshort, decide_eq_true hshort]
    rfl
  · rw [if_neg hshort, decide_eq_false hshort]
    rfl

variable (io cmd isMapped) in
/-- An invariant tied to the pieces done so far, when no request fails. -/
theorem passes_hist {P : List (Nat × Nat) → Int → σ → Prop} {Q : Nat × Nat → Prop}
    (next : ∀ done p err s, P done err s → Q p → ∃ r s',
      io done.length (pieceCmd cmd isMapped p) s = some (r, s') ∧ r ≠ -1 ∧ P (done ++ [p]) r s')
    {err : Int} {s : σ} (init : P [] err s) {ps : List (Nat × Nat)} (hps : ∀ p ∈ ps, Q p) :
    ∃ r s', passes io cmd isMapped ps 0 err s = some (r, s') ∧ P ps r s' := by
  -- some pieces are done, and `ps` is still to come
  have hrun : ∀ ps done err s, P done err s → (∀ p ∈ ps, Q p) →
      ∃ r s', passes io cmd isMapped ps done.length err s = some (r, s') ∧ P (done ++ ps) r s' := by
    intro ps
    induction ps with
    | nil =>
        intro done err s hP _
        exact ⟨err, s, rfl, by rw [List.append_nil]; exact hP⟩
    | cons p ps ih =>
        intro done err s hP hps
        obtain ⟨r, s₁, hio, hne, hP₁⟩ := next done p err s hP (hps p List.mem_cons_self)
        obtain ⟨r', s', hrest, hP'⟩ := ih (done ++ [p]) r s₁ hP₁
          fun q hq => hps q (List.mem_cons_of_mem p hq)
        rw [List.length_append, List.length_singleton] at hrest
        rw [List.append_assoc, List.singleton_append] at hP'
        refine ⟨r', s', ?_, hP'⟩
        rw [passes, hio]
        exact (if_neg hne).trans hrest
  exact hrun ps [] err s init hps

end

end LinuxDrivers.Card
