import LinuxDrivers.Card.Driver

/-!
# What the driver is for

Seen by its callers the driver is a cipher service. A file is open or not, and an
open file has a key or has none yet; a request on a keyed file transforms the
caller's bytes under that file's key and touches nothing else. There is no card,
no lock and no transfer mode in this picture.

Requests on an open file with no key are outside the contract: the service says
only that nothing but the caller's own bytes may change.

`step_cases` says once what a call does, to the driver and to the keys. Everything
proved about whole runs of the driver starts from it.
-/

namespace LinuxDrivers.Card

/-- The open files, each with the key last set on it, if any. -/
abbrev Keys := Nat → Option (Option (UInt8 × UInt8))

structure Service where
  keys : Keys
  user : Nat → Mem UInt8

/-- How one call changes which files are open and what their keys are. -/
def Keys.step (k : Keys) (e : Event) : Keys :=
  match e.call, k e.fd with
  | .fopen (some _), none => Function.update k e.fd (some none)
  | .ioctl (.setKey key), some _ => Function.update k e.fd (some (some (key.a, key.b)))
  | .frelease, some _ => Function.update k e.fd none
  | _, _ => k

/-- The files and keys after a history of calls, starting with no file open. -/
def keysOf (hist : List Event) : Keys := hist.foldl Keys.step (fun _ => none)

/-- The last key set on a file since it was opened. -/
def lastKey (hist : List Event) (fd : Nat) : Option (UInt8 × UInt8) := (keysOf hist fd).join

theorem keysOf_snoc (hist : List Event) (e : Event) :
    keysOf (hist ++ [e]) = (keysOf hist).step e := by
  rw [keysOf, List.foldl_append]
  rfl

/-- What the service allows a request on `op` to do, `f a b` being the transformation. -/
def Service.Request (f : UInt8 → UInt8 → UInt8 → UInt8) (σ : Service) (e : Event) (op : CcOp)
    (σ' : Service) : Prop :=
  match σ.keys e.fd with
  | none => σ'.user = σ.user
  | some none =>
    (∀ p, p ≠ e.pid → σ'.user p = σ.user p)
      ∧ ∀ x, ¬(op.addr ≤ x ∧ x < op.addr + op.length.toNat) → σ'.user e.pid x = σ.user e.pid x
  | some (some (a, b)) =>
    σ'.user = Function.update σ.user e.pid
      (Mem.mapRange (f a b) op.addr op.length.toNat (σ.user e.pid))

/-- A request under a key replaces the caller's bytes and nothing else. -/
theorem Service.Request.user_eq {f : UInt8 → UInt8 → UInt8 → UInt8} {σ σ' : Service} {e : Event}
    {op : CcOp} {a b : UInt8} (h : σ.Request f e op σ') (hk : σ.keys e.fd = some (some (a, b))) :
    σ'.user = Function.update σ.user e.pid
      (Mem.mapRange (f a b) op.addr op.length.toNat (σ.user e.pid)) := by
  unfold Service.Request at h
  rw [hk] at h
  exact h

/-- One call, as the service sees it. -/
def Service.Step (E : Cipher) (σ : Service) (e : Event) (σ' : Service) : Prop :=
  σ'.keys = σ.keys.step e ∧
  match e.call with
  | .ioctl (.encrypt op) => σ.Request (fun a b => E a b) e op σ'
  | .ioctl (.decrypt op) => σ.Request (fun a b => (E a b).symm) e op σ'
  | _ => σ'.user = σ.user

/-! ## What one call does -/

/-- `ENCRYPT` and `DECRYPT` -/
def Event.IsRequest (e : Event) : Prop :=
  ∃ op, e.call = .ioctl (.encrypt op) ∨ e.call = .ioctl (.decrypt op)

/-- What a call does to the driver `s` and to the keys `k`, if both know of the same
open files. -/
inductive StepCase (E : Cipher) (s : Sys) (k : Keys) (e : Event) : Prop where
  /-- Nothing: the file is open already, or is not open, or the command is unknown. -/
  | idle (step : s.step E e = some s) (keys : k.step e = k)
      (request : e.IsRequest → k e.fd = none)
  /-- The file could not be opened for want of memory. -/
  | noMemory (call : e.call = .fopen none)
      (step : s.step E e = some { s with
        deviceOpened := s.deviceOpened + 1
        moduleRefs := s.moduleRefs + 1 })
      (keys : k.step e = k)
  /-- The file was opened or closed, or got a key. -/
  | setFile (s₀ : Sys) (cfg : Option CryptocardConfig) (key : Option (Option (UInt8 × UInt8)))
      (counters : s₀ = { s with deviceOpened := s₀.deviceOpened, moduleRefs := s₀.moduleRefs })
      (step : s.step E e = some (s₀.setFile e.fd cfg))
      (keys : k.step e = Function.update k e.fd key)
      (isOpen : cfg.isSome = key.isSome)
      (holds : ∀ a b, key = some (some (a, b)) → ∃ c, cfg = some c ∧ c.a = a ∧ c.b = b)
      (request : ¬e.IsRequest)
  /-- An open file got another transfer mode. -/
  | setConfig (cfg cfg' : CryptocardConfig) (file : s.files e.fd = some cfg)
      (step : s.step E e = some (s.setFile e.fd (some cfg')))
      (keys : k.step e = k) (sameKey : cfg'.a = cfg.a ∧ cfg'.b = cfg.b)
      (request : ¬e.IsRequest)
  /-- A request on an open file. -/
  | request (decrypt : Bool) (op : CcOp) (cfg : CryptocardConfig)
      (call : e.call = .ioctl (if decrypt then .decrypt op else .encrypt op))
      (file : s.files e.fd = some cfg)
      (step : s.step E e
        = (cryptRequest E (routines decrypt) e.env e.pid cfg op s).map Prod.snd)
      (keys : k.step e = k)

theorem step_cases (E : Cipher) {s : Sys} {k : Keys}
    (h : ∀ fd, (s.files fd).isSome = (k fd).isSome) (e : Event) : StepCase E s k e := by
  have hopen := h e.fd
  have hnone : s.files e.fd = none → k e.fd = none := by
    intro hf
    rw [hf] at hopen
    exact Option.not_isSome_iff_eq_none.mp (by simp [← hopen])
  have hsome : ∀ {cfg}, s.files e.fd = some cfg → ∃ key, k e.fd = some key := by
    intro cfg hf
    rw [hf] at hopen
    exact Option.isSome_iff_exists.mp hopen.symm
  cases hc : e.call with
  | fopen mem =>
      have hreq : ¬e.IsRequest := by simp [Event.IsRequest, hc]
      cases hf : s.files e.fd with
      | some cfg =>
          obtain ⟨key, hk⟩ := hsome hf
          exact .idle (by simp [Sys.step, hc, hf]) (by cases mem <;> simp [Keys.step, hc, hk])
            fun hr => absurd hr hreq
      | none =>
          cases mem with
          | none =>
              exact .noMemory hc (by simp [Sys.step, hc, hf, cryptocardFopen])
                (by simp [Keys.step, hc])
          | some ab =>
              exact .setFile { s with
                  deviceOpened := s.deviceOpened + 1
                  moduleRefs := s.moduleRefs + 1 } _ (some none) rfl
                (by simp [Sys.step, hc, hf, cryptocardFopen]; rfl)
                (by simp [Keys.step, hc, hnone hf]) rfl (by simp) hreq
  | frelease =>
      have hreq : ¬e.IsRequest := by simp [Event.IsRequest, hc]
      cases hf : s.files e.fd with
      | none =>
          exact .idle (by simp [Sys.step, hc, hf]) (by simp [Keys.step, hc, hnone hf])
            fun hr => absurd hr hreq
      | some cfg =>
          obtain ⟨key, hk⟩ := hsome hf
          exact .setFile { s with
              deviceOpened := s.deviceOpened - 1
              moduleRefs := s.moduleRefs - 1 } none none rfl
            (by simp [Sys.step, hc, hf, cryptocardFrelease]) (by simp [Keys.step, hc, hk]) rfl
            (by simp) hreq
  | ioctl cmd =>
      cases hf : s.files e.fd with
      | none =>
          exact .idle (by simp [Sys.step, hc, hf])
            (by cases cmd <;> simp [Keys.step, hc, hnone hf]) fun _ => hnone hf
      | some cfg =>
          obtain ⟨key, hk⟩ := hsome hf
          cases cmd with
          | setKey cckey =>
              exact .setFile s _ (some (some (cckey.a, cckey.b))) rfl
                (by simp [Sys.step, hc, hf, cryptocardIoctl]; rfl) (by simp [Keys.step, hc, hk]) rfl
                (by simp) (by simp [Event.IsRequest, hc])
          | setConfig cc =>
              exact .setConfig cfg _ hf (by simp [Sys.step, hc, hf, cryptocardIoctl]; rfl)
                (by simp [Keys.step, hc]) (by split <;> split <;> exact ⟨rfl, rfl⟩)
                (by simp [Event.IsRequest, hc])
          | encrypt op =>
              exact .request false op cfg hc hf (by simp [Sys.step, hc, hf, cryptocardIoctl])
                (by simp [Keys.step, hc])
          | decrypt op =>
              exact .request true op cfg hc hf (by simp [Sys.step, hc, hf, cryptocardIoctl])
                (by simp [Keys.step, hc])
          | other n =>
              exact .idle (by simp [Sys.step, hc, hf, cryptocardIoctl]) (by simp [Keys.step, hc])
                fun hr => absurd hr (by simp [Event.IsRequest, hc])

/-- What the service allows a call that makes no request on an open file. -/
theorem Service.step_of_not_request (E : Cipher) {σ σ' : Service} {e : Event}
    (hkeys : σ'.keys = σ.keys.step e) (huser : σ'.user = σ.user)
    (hreq : e.IsRequest → σ.keys e.fd = none) : σ.Step E e σ' := by
  refine ⟨hkeys, ?_⟩
  split
  · rename_i op hc
    unfold Service.Request
    rw [hreq ⟨op, Or.inl hc⟩]
    exact huser
  · rename_i op hc
    unfold Service.Request
    rw [hreq ⟨op, Or.inr hc⟩]
    exact huser
  · exact huser

end LinuxDrivers.Card
