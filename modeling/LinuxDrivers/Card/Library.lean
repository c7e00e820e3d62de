import LinuxDrivers.Card.Driver

/-!
# The user-space library

`encrypt` and `decrypt` of `crypter.c`. Short messages go to the driver in one
request; long ones are cut into chunks, one request each, and a request for what
is left over. The two differ in their chunk sizes, and in one more thing: the
chunks of a long `decrypt` are sent with the `ENCRYPT` command.

Successive requests of one call meet successive circumstances, so a call takes a
sequence of environments.
-/

namespace LinuxDrivers.Card

/-- `ERROR` of `crypter.h`. -/
def error : Int := -1

/-- The value of a C `int` assigned from an unsigned 64-bit expression. -/
def toInt (n : Nat) : Int := Int.bmod n (2 ^ 32)

/-- The system call: a negative driver result becomes -1, others are passed through. -/
def ioctl (E : Cipher) (env : Env) (pid fd : Nat) (cmd : Cmd) (s : Sys) : Option (Int × Sys) :=
  match s.files fd with
  | none => some (-1, s)
  | some cfg =>
    (cryptocardIoctl E env pid fd cfg cmd s).map fun (r, s) => (if r < 0 then -1 else r, s)

/-! ## Over any system call

What the two functions do depends on the system call only through its results, so they are
stated over whatever makes the `k`-th request. -/

section
variable {σ : Type} (io : Nat → Cmd → σ → Option (Int × σ))

/-- One request, as both functions make it. -/
def requestWith (k : Nat) (cmd : CcOp → Cmd) (op : CcOp) (s : σ) : Option (Int × σ) :=
  match io k (cmd op) s with
  | none => none
  | some (err, s) => if err = -1 then some (error, s) else some (err, s)

/--
The long path: `count` requests of `chunk` bytes and one of `residual` bytes,
with `new` the next address and `err` the result so far. The first argument
counts the iterations still to come; `k` numbers the requests.
-/
def chunksWith (cmd : CcOp → Cmd) (isMapped : UInt8) (chunk residual : Nat) :
    Nat → Nat → Nat → Int → σ → Option (Int × σ)
  | 0, k, new, err, s =>
    if residual ≠ 0 then requestWith io k cmd ⟨new, UInt64.ofNat residual, isMapped⟩ s
    else some (err, s)
  | count + 1, k, new, _, s =>
    match io k (cmd ⟨new, UInt64.ofNat chunk, isMapped⟩) s with
    | none => none
    | some (err, s) =>
      if err = -1 then some (error, s)
      else chunksWith cmd isMapped chunk residual count (k + 1) (new + chunk) err s

/-- `encrypt`. `err` is the uninitialised local the long path could return untouched. -/
def encryptWith (err : Int) (addr : Nat) (length : UInt64) (isMapped : UInt8) (s : σ) :
    Option (Int × σ) :=
  if length.toNat ≤ 32000 then requestWith io 0 .encrypt ⟨addr, length, isMapped⟩ s
  else
    let chunk := 32000
    let count := toInt (length.toNat / chunk)
    let residual := length.toNat % chunk
    chunksWith io .encrypt isMapped chunk residual count.toNat 0 addr err s

/-- `decrypt`. The long path sends `ENCRYPT`. -/
def decryptWith (err : Int) (addr : Nat) (length : UInt64) (isMapped : UInt8) (s : σ) :
    Option (Int × σ) :=
  if length.toNat ≤ 32768 then requestWith io 0 .decrypt ⟨addr, length, isMapped⟩ s
  else
    let chunk := 32768
    let count := toInt (length.toNat / chunk)
    let residual := length.toNat % chunk
    chunksWith io .encrypt isMapped chunk residual count.toNat 0 addr err s

end

/-! ## Over the driver -/

def encrypt (E : Cipher) (envs : Nat → Env) (err : Int) (pid cdev addr : Nat) (length : UInt64)
    (isMapped : UInt8) (s : Sys) : Option (Int × Sys) :=
  encryptWith (fun k => ioctl E (envs k) pid cdev) err addr length isMapped s

def decrypt (E : Cipher) (envs : Nat → Env) (err : Int) (pid cdev addr : Nat) (length : UInt64)
    (isMapped : UInt8) (s : Sys) : Option (Int × Sys) :=
  decryptWith (fun k => ioctl E (envs k) pid cdev) err addr length isMapped s

end LinuxDrivers.Card
