import LinuxDrivers.Lib.Pool
import LinuxDrivers.Card.Early
import LinuxDrivers.Card.Lock

/-!
# Tasks inside `cryptocard_ioctl`

`Driver.lean` runs one call after the other. The kernel does not: any number of
tasks can be inside `cryptocard_ioctl` at once, each between two of its statements,
while the card ticks and raises interrupts. Here a call is the list of statements
its command selects, and a step executes the next statement of one task, so a list
of labels is an interleaving.

`SET_KEY` and `SET_CONFIG` write the file's configuration field by field and take no
lock. `ENCRYPT` and `DECRYPT` take `cc_spinlock` first, read the configuration field
by field, and drive the card statement by statement.

What is one step here is what no other task can see a part of: opening a file (it is
not shared before `open` returns), releasing it (the kernel calls `release` when no
call is using the file any more), and each of the statements.
-/

namespace LinuxDrivers.Card

/-- A write to the file's configuration. -/
inductive Write where
  /-- `rconfig->a = cckey->a` -/
  | a (v : UInt8)
  /-- `rconfig->b = cckey->b` -/
  | b (v : UInt8)
  /-- `rconfig->isKeyset = 1` -/
  | isKeyset
  /-- `rconfig->interrupt = cfg->set` -/
  | interrupt (v : UInt8)
  /-- `rconfig->dma = cfg->set` -/
  | dma (v : UInt8)
  /-- `if (!rconfig->isConfigset) rconfig->isConfigset = 1` -/
  | isConfigset

/-- A read of the file's configuration into the local of the same name. -/
inductive Read where
  | a
  | b
  | interrupt
  | dma
  deriving DecidableEq

/-- A statement of `cryptocard_ioctl`. -/
inductive Stmt where
  | store (w : Write)
  | spinLock
  | load (r : Read)
  /-- `iowrite32(a<<8|b, ccbar0 + KEY_OFF)` -/
  | writeKey
  /-- `copy_from_user(buff, ccop->addr, length)` into a fresh buffer -/
  | copyIn
  /-- The call of the routine that `dma` and `interrupt` select. -/
  | transfer (decrypt : Bool)
  /-- The call of the routine that `interrupt` selects, for a mapped request. -/
  | transferMapped (decrypt : Bool)
  /-- A statement of a transfer routine. -/
  | instr (i : Instr)
  /-- `if (copy_to_user(ccop->addr, buff, length)) return EFAULT` -/
  | copyOut
  | spinUnlock

/-- A request's reads of the file's configuration, in the order of the source. -/
def loads : List Stmt := [.load .a, .load .b, .load .interrupt, .load .dma]

/-- What an unmapped request executes once it has read the configuration. -/
def drive (decrypt : Bool) : List Stmt :=
  [.writeKey, .copyIn, .transfer decrypt, .copyOut, .spinUnlock]

/-- The `ENCRYPT` case and the `DECRYPT` case. A mapped request has no unlock. -/
def requestBody (decrypt : Bool) (ccop : CcOp) : List Stmt :=
  .spinLock :: loads ++
    (if ccop.isMapped = 0 then drive decrypt else [.writeKey, .transferMapped decrypt])

/-- The statements of `cryptocard_ioctl` for a command. -/
def Cmd.body : Cmd → List Stmt
  | .setKey cckey => [.store (.a cckey.a), .store (.b cckey.b), .store .isKeyset]
  | .setConfig cfg =>
    [.store (if cfg.modeIntDma = 0 then .interrupt cfg.set else .dma cfg.set),
     .store .isConfigset]
  | .encrypt ccop => requestBody false ccop
  | .decrypt ccop => requestBody true ccop
  | .other _ => []

/-- The structure a request's argument points to. -/
def Cmd.ccop : Cmd → CcOp
  | .encrypt ccop => ccop
  | .decrypt ccop => ccop
  | _ => ⟨0, 0, 0⟩

/-- What the call returns if none of its statements makes it return. -/
def Cmd.ret : Cmd → Int
  | .other _ => -einval
  | _ => 0

/-- A task that has called the driver: its call, the locals of `cryptocard_ioctl`, and the
statements it has still to execute. With none left the call has returned. -/
structure Task where
  ev : Event
  ccop : CcOp
  /-- The locals `a`, `b`, `interrupt` and `dma`. -/
  cfg : CryptocardConfig
  buff : List UInt8
  code : List Stmt
  ret : Int

/-- A task outside the driver. -/
def Task.idle : Task where
  ev := ⟨0, 0, Env.calm, .frelease⟩
  ccop := ⟨0, 0, 0⟩
  cfg := ⟨0, 0, 0, 0, 0, 0⟩
  buff := []
  code := []
  ret := 0

/-- A task that enters `cryptocard_ioctl`. -/
def Task.enter (e : Event) (cmd : Cmd) : Task :=
  { Task.idle with ev := e, ccop := cmd.ccop, code := cmd.body, ret := cmd.ret }

/-- The file's configuration after a write. -/
def Write.apply (cfg : CryptocardConfig) : Write → CryptocardConfig
  | .a v => { cfg with a := v }
  | .b v => { cfg with b := v }
  | .isKeyset => { cfg with isKeyset := 1 }
  | .interrupt v => { cfg with interrupt := v }
  | .dma v => { cfg with dma := v }
  | .isConfigset => if cfg.isConfigset = 0 then { cfg with isConfigset := 1 } else cfg

/-- The locals after a read. -/
def Read.apply (file cfg : CryptocardConfig) : Read → CryptocardConfig
  | .a => { cfg with a := file.a }
  | .b => { cfg with b := file.b }
  | .interrupt => { cfg with interrupt := file.interrupt }
  | .dma => { cfg with dma := file.dma }

/-- The card's key register once a request has written its key. -/
def Machine.keyed (m : Machine) (lat : Nat) (cfg : CryptocardConfig) : Machine :=
  { m with card := iowrite32 lat m.card (cfg.a.toUInt32 <<< 8 ||| cfg.b.toUInt32) keyOff }

/-- The task executes its next statement; `none` when there is none, or it has to wait. -/
def Task.exec (t : Task) (s : Sys) : Option (Task × Sys) :=
  match t.code with
  | [] => none
  | .spinLock :: code =>
    if s.ccSpinlock then none else some ({ t with code := code }, { s with ccSpinlock := true })
  | .spinUnlock :: code => some ({ t with code := code }, { s with ccSpinlock := false })
  | .writeKey :: code =>
    some ({ t with code := code }, { s with m := s.m.keyed t.ev.env.latency t.cfg })
  | .copyIn :: code =>
    some ({ t with
        code := code
        buff := copyFromUser t.ev.env (s.user t.ev.pid) t.ccop.addr t.ccop.length.toNat }, s)
  | .transfer decrypt :: code =>
    let routine := (routines decrypt).unmapped t.cfg t.ev.env t.ccop.length
    some ({ t with code := routine.map .instr ++ code }, s)
  | .transferMapped decrypt :: code =>
    let routine := (routines decrypt).mapped t.cfg t.ccop.length
    some ({ t with code := routine.map .instr ++ code }, s)
  | .instr i :: code =>
    if i.blocked s.m then none
    else
      let f := i.effect t.ev.env.latency ⟨s.m, t.buff⟩
      some ({ t with code := code, buff := f.data }, { s with m := f.m })
  | .copyOut :: code =>
    let (left, mem) :=
      copyToUser t.ev.env (s.user t.ev.pid) t.ccop.addr t.buff t.ccop.length.toNat
    let s := { s with user := Function.update s.user t.ev.pid mem }
    if left ≠ 0 then some ({ t with code := [], ret := efault }, s)
    else some ({ t with code := code }, s)
  | .store w :: code =>
    (s.files t.ev.fd).map fun file =>
      ({ t with code := code }, s.setFile t.ev.fd (some (w.apply file)))
  | .load r :: code =>
    (s.files t.ev.fd).map fun file => ({ t with code := code, cfg := r.apply file t.cfg }, s)

/-! ## The interleaved driver -/

/-- The driver's state, and where each of `n` tasks is. -/
abbrev Par (n : Nat) := Pool n Sys Task

/-- One step of the interleaved driver. -/
inductive Move (n : Nat) where
  /-- Task `t` makes the call `e`. -/
  | call (t : Fin n) (e : Event)
  /-- Task `t` executes its next statement. -/
  | exec (t : Fin n)
  /-- A signal ends the sleep of task `t`. -/
  | signal (t : Fin n)
  | tick
  /-- An interrupt in flight is delivered. -/
  | irq

variable {n : Nat}

@[inherit_doc Pool.update]
abbrev Par.update (p : Par n) (t : Fin n) (task : Task) (s : Sys) : Par n := Pool.update p t task s

/-- No call on the file is in progress. -/
def Par.unused (p : Par n) (fd : Nat) : Prop :=
  ∀ t, (p.tasks t).code ≠ [] → (p.tasks t).ev.fd ≠ fd

instance (p : Par n) (fd : Nat) : Decidable (p.unused fd) :=
  inferInstanceAs (Decidable (∀ t, (p.tasks t).code ≠ [] → (p.tasks t).ev.fd ≠ fd))

/-- The call reaches the driver. -/
def Par.enter (p : Par n) (t : Fin n) (e : Event) : Option (Par n) :=
  match e.call, p.sys.files e.fd with
  | .fopen mem, none => some { p with sys := (cryptocardFopen mem e.fd p.sys).2 }
  | .frelease, some _ =>
    if p.unused e.fd then some { p with sys := (cryptocardFrelease e.fd p.sys).2 } else none
  | .ioctl cmd, some _ => some (p.update t (.enter e cmd) p.sys)
  | _, _ => none

def Par.step (E : Cipher) (p : Par n) : Move n → Option (Par n)
  | .call t e => if (p.tasks t).code = [] then p.enter t e else none
  | .exec t => ((p.tasks t).exec p.sys).map fun (task, s) => p.update t task s
  | .signal t =>
    match (p.tasks t).code with
    | .instr .waitEventInterruptible :: code =>
      some (p.update t { p.tasks t with code := code } p.sys)
    | _ => none
  | .tick =>
    if p.sys.m.card.job.isSome then
      some { p with sys := { p.sys with m := p.sys.m.tick E } }
    else none
  | .irq =>
    if p.sys.m.card.irqs = 0 then none
    else some { p with sys := { p.sys with m := cryptocardIrqHandle p.sys.m } }

/-- All tasks outside the driver. -/
def Par.start (s : Sys) : Par n := ⟨s, fun _ => Task.idle⟩

/-- The next `k` statements of one task. -/
def Move.execs (t : Fin n) (k : Nat) : List (Move n) := List.replicate k (.exec t)

/-- The tasks of a run with two of them. -/
def task₀ : Fin 2 := 0

@[inherit_doc task₀]
def task₁ : Fin 2 := 1

/-! ## What a step can be -/

/-- What the next statement of a task does. -/
inductive ExecCase (t : Task) (s : Sys) : Task → Sys → Prop where
  | store {w : Write} {code : List Stmt} {file : CryptocardConfig} (hc : t.code = .store w :: code)
      (hf : s.files t.ev.fd = some file) :
      ExecCase t s { t with code := code } (s.setFile t.ev.fd (some (w.apply file)))
  | load {r : Read} {code : List Stmt} {file : CryptocardConfig} (hc : t.code = .load r :: code)
      (hf : s.files t.ev.fd = some file) :
      ExecCase t s { t with code := code, cfg := r.apply file t.cfg } s
  | lock {code : List Stmt} (hc : t.code = .spinLock :: code) (hfree : s.ccSpinlock = false) :
      ExecCase t s { t with code := code } { s with ccSpinlock := true }
  | writeKey {code : List Stmt} (hc : t.code = .writeKey :: code) :
      ExecCase t s { t with code := code } { s with m := s.m.keyed t.ev.env.latency t.cfg }
  | copyIn {code : List Stmt} (hc : t.code = .copyIn :: code) :
      ExecCase t s
        { t with
          code := code
          buff := copyFromUser t.ev.env (s.user t.ev.pid) t.ccop.addr t.ccop.length.toNat } s
  | transfer {decrypt : Bool} {code : List Stmt} (hc : t.code = .transfer decrypt :: code) :
      ExecCase t s
        { t with
          code := ((routines decrypt).unmapped t.cfg t.ev.env t.ccop.length).map .instr ++ code } s
  | transferMapped {decrypt : Bool} {code : List Stmt}
      (hc : t.code = .transferMapped decrypt :: code) :
      ExecCase t s
        { t with code := ((routines decrypt).mapped t.cfg t.ccop.length).map .instr ++ code } s
  | instr {i : Instr} {code : List Stmt} (hc : t.code = .instr i :: code)
      (hgo : i.blocked s.m = false) :
      ExecCase t s
        { t with code := code, buff := (i.effect t.ev.env.latency ⟨s.m, t.buff⟩).data }
        { s with m := (i.effect t.ev.env.latency ⟨s.m, t.buff⟩).m }
  | copyOut {code : List Stmt} (hc : t.code = .copyOut :: code)
      (hall : min t.ev.env.copyOut t.ccop.length.toNat = 0) :
      ExecCase t s { t with code := code }
        { s with
          user := Function.update s.user t.ev.pid (copyToUser t.ev.env (s.user t.ev.pid)
            t.ccop.addr t.buff t.ccop.length.toNat).2 }
  | fault {code : List Stmt} (hc : t.code = .copyOut :: code)
      (hsome : min t.ev.env.copyOut t.ccop.length.toNat ≠ 0) :
      ExecCase t s { t with code := [], ret := efault }
        { s with
          user := Function.update s.user t.ev.pid (copyToUser t.ev.env (s.user t.ev.pid)
            t.ccop.addr t.buff t.ccop.length.toNat).2 }
  | unlock {code : List Stmt} (hc : t.code = .spinUnlock :: code) :
      ExecCase t s { t with code := code } { s with ccSpinlock := false }

theorem exec_cases {t t' : Task} {s s' : Sys} (h : t.exec s = some (t', s')) :
    ExecCase t s t' s' := by
  unfold Task.exec at h
  cases hc : t.code with
  | nil =>
      rw [hc] at h
      exact absurd h (by simp)
  | cons st code =>
      rw [hc] at h
      cases st with
      | store w =>
          obtain ⟨file, hf, heq⟩ := Option.map_eq_some_iff.mp h
          cases heq
          exact .store hc hf
      | load r =>
          obtain ⟨file, hf, heq⟩ := Option.map_eq_some_iff.mp h
          cases heq
          exact .load hc hf
      | spinLock =>
          dsimp only at h
          split at h
          · exact absurd h (by simp)
          · rename_i hfree
            cases h
            exact .lock hc (by simpa using hfree)
      | spinUnlock => cases h; exact .unlock hc
      | writeKey => cases h; exact .writeKey hc
      | copyIn => cases h; exact .copyIn hc
      | transfer decrypt => cases h; exact .transfer hc
      | transferMapped decrypt => cases h; exact .transferMapped hc
      | instr i =>
          dsimp only at h
          split at h
          · exact absurd h (by simp)
          · rename_i hgo
            cases h
            exact .instr hc (by simpa using hgo)
      | copyOut =>
          dsimp only at h
          split at h
          · rename_i hleft
            cases h
            exact .fault hc hleft
          · rename_i hleft
            cases h
            exact .copyOut hc (not_not.mp hleft)

/-- A statement of `ENCRYPT` or `DECRYPT`: the other commands only store. -/
def Stmt.OfRequest : Stmt → Prop
  | .store _ => False
  | _ => True

/-- A request begins with all its reads to come. -/
theorem body_loads {cmd : Cmd} {st : Stmt} (h : st ∈ cmd.body) (hst : st.OfRequest) (r : Read) :
    .load r ∈ cmd.body := by
  have hreq : ∀ decrypt ccop, .load r ∈ requestBody decrypt ccop := by
    intro decrypt ccop
    have hr : .load r ∈ loads := by cases r <;> simp [loads]
    unfold requestBody
    exact List.mem_append_left _ (List.mem_cons_of_mem _ hr)
  cases cmd with
  | setKey cckey =>
      simp only [Cmd.body, List.mem_cons, List.not_mem_nil, or_false] at h
      rcases h with rfl | rfl | rfl <;> exact hst.elim
  | setConfig cfg =>
      simp only [Cmd.body, List.mem_cons, List.not_mem_nil, or_false] at h
      rcases h with rfl | rfl <;> exact hst.elim
  | encrypt ccop => exact hreq false ccop
  | decrypt ccop => exact hreq true ccop
  | other c => exact absurd h List.not_mem_nil

/-- A task stays with its call. -/
theorem ExecCase.ev {t t' : Task} {s s' : Sys} (h : ExecCase t s t' s') : t'.ev = t.ev := by
  cases h <;> rfl

/-- A statement changes the configuration of its own file only. -/
theorem ExecCase.files_other {t t' : Task} {s s' : Sys} (h : ExecCase t s t' s') {fd : Nat}
    (hfd : fd ≠ t.ev.fd) : s'.files fd = s.files fd := by
  cases h with
  | store hc hf => exact Function.update_of_ne hfd ..
  | _ => rfl

/-- What a step of the interleaved driver does. -/
inductive MoveCase (E : Cipher) (p : Par n) : Move n → Par n → Prop where
  | fopen {t : Fin n} {e : Event} {mem : Option (UInt8 × UInt8)} (hidle : (p.tasks t).code = [])
      (hc : e.call = .fopen mem) (hf : p.sys.files e.fd = none) :
      MoveCase E p (.call t e) { p with sys := (cryptocardFopen mem e.fd p.sys).2 }
  | frelease {t : Fin n} {e : Event} {file : CryptocardConfig} (hidle : (p.tasks t).code = [])
      (hc : e.call = .frelease) (hf : p.sys.files e.fd = some file) (hunused : p.unused e.fd) :
      MoveCase E p (.call t e) { p with sys := (cryptocardFrelease e.fd p.sys).2 }
  | ioctl {t : Fin n} {e : Event} {cmd : Cmd} {file : CryptocardConfig}
      (hidle : (p.tasks t).code = []) (hc : e.call = .ioctl cmd)
      (hf : p.sys.files e.fd = some file) :
      MoveCase E p (.call t e) (p.update t (.enter e cmd) p.sys)
  | exec {t : Fin n} {t' : Task} {s' : Sys} (h : (p.tasks t).exec p.sys = some (t', s')) :
      MoveCase E p (.exec t) (p.update t t' s')
  | signal {t : Fin n} {code : List Stmt}
      (hc : (p.tasks t).code = .instr .waitEventInterruptible :: code) :
      MoveCase E p (.signal t) (p.update t { p.tasks t with code := code } p.sys)
  | tick (hjob : p.sys.m.card.job.isSome) :
      MoveCase E p .tick { p with sys := { p.sys with m := p.sys.m.tick E } }
  | irq (hirq : p.sys.m.card.irqs ≠ 0) :
      MoveCase E p .irq { p with sys := { p.sys with m := cryptocardIrqHandle p.sys.m } }

theorem enter_cases {E : Cipher} {p p' : Par n} {t : Fin n} {e : Event}
    (hidle : (p.tasks t).code = []) (h : p.enter t e = some p') :
    MoveCase E p (.call t e) p' := by
  unfold Par.enter at h
  split at h
  · rename_i mem hc hf
    cases h
    exact .fopen hidle hc hf
  · rename_i file hc hf
    split at h
    · rename_i hunused
      cases h
      exact .frelease hidle hc hf hunused
    · exact absurd h (by simp)
  · rename_i cmd file hc hf
    cases h
    exact .ioctl hidle hc hf
  · exact absurd h (by simp)

theorem move_cases {E : Cipher} {p p' : Par n} {l : Move n} (h : p.step E l = some p') :
    MoveCase E p l p' := by
  cases l with
  | call t e =>
      simp only [Par.step] at h
      split at h
      · rename_i hidle
        exact enter_cases hidle h
      · exact absurd h (by simp)
  | exec t =>
      obtain ⟨⟨t', s'⟩, hexec, rfl⟩ := Option.map_eq_some_iff.mp h
      exact .exec hexec
  | signal t =>
      simp only [Par.step] at h
      split at h
      · rename_i code hc
        cases h
        exact .signal hc
      · exact absurd h (by simp)
  | tick =>
      simp only [Par.step] at h
      split at h
      · rename_i hjob
        cases h
        exact .tick hjob
      · exact absurd h (by simp)
  | irq =>
      simp only [Par.step] at h
      split at h
      · exact absurd h (by simp)
      · rename_i hirq
        cases h
        exact .irq hirq

/-! ## What a task has still to execute -/

/-- What holds of every body is kept when a statement is taken off, and when a routine takes the
place of its call. -/
structure CodeInv (P : List Stmt → Prop) : Prop where
  body : ∀ cmd : Cmd, P cmd.body
  tail : ∀ {st : Stmt} {code : List Stmt}, P (st :: code) → P code
  unmapped : ∀ {decrypt : Bool} {code : List Stmt} (cfg : CryptocardConfig) (env : Env)
    (length : UInt64), P (.transfer decrypt :: code) →
    P (((routines decrypt).unmapped cfg env length).map .instr ++ code)
  mapped : ∀ {decrypt : Bool} {code : List Stmt} (cfg : CryptocardConfig) (length : UInt64),
    P (.transferMapped decrypt :: code) →
    P (((routines decrypt).mapped cfg length).map .instr ++ code)

namespace CodeInv

variable {P : List Stmt → Prop}

theorem nil (hP : CodeInv P) : P [] := hP.body (.other 0)

theorem exec (hP : CodeInv P) {t t' : Task} {s s' : Sys} (h : P t.code)
    (hexec : ExecCase t s t' s') : P t'.code := by
  have hrest : ∀ {st : Stmt} {code : List Stmt}, t.code = st :: code → P code :=
    fun hc => hP.tail (hc ▸ h)
  cases hexec with
  | store hc => exact hrest hc
  | load hc => exact hrest hc
  | lock hc => exact hrest hc
  | writeKey hc => exact hrest hc
  | copyIn hc => exact hrest hc
  | transfer hc => exact hP.unmapped _ _ _ (hc ▸ h)
  | transferMapped hc => exact hP.mapped _ _ (hc ▸ h)
  | instr hc => exact hrest hc
  | copyOut hc => exact hrest hc
  | fault hc => exact hP.nil
  | unlock hc => exact hrest hc

theorem step (hP : CodeInv P) {E : Cipher} {p p' : Par n} {l : Move n}
    (h : ∀ t, P (p.tasks t).code) (hs : p.step E l = some p') (i : Fin n) :
    P (p'.tasks i).code := by
  have hupdate : ∀ {t : Fin n} {t' : Task} {s' : Sys}, P t'.code →
      P ((p.update t t' s').tasks i).code :=
    fun ht => Pool.forall_update (P := fun _ (t : Task) => P t.code) ht (fun i _ => h i) _ i
  cases move_cases hs with
  | fopen => exact h i
  | frelease => exact h i
  | ioctl => exact hupdate (hP.body _)
  | exec hexec => exact hupdate (hP.exec (h _) (exec_cases hexec))
  | @signal t code hc =>
      have ht := h t
      rw [hc] at ht
      exact hupdate (hP.tail ht)
  | tick => exact h i
  | irq => exact h i

/-- In every interleaving it holds of every task. -/
theorem runs (hP : CodeInv P) {E : Cipher} {s₀ : Sys} {ls : List (Move n)} {p : Par n}
    (hrun : LinuxDrivers.runs (Par.step E) (Par.start s₀) ls = some p) (t : Fin n) :
    P (p.tasks t).code :=
  runs_track (P := fun _ (p : Par n) => ∀ t, P (p.tasks t).code) (fun _ => hP.nil)
    (fun _ _ _ _ _ h hs => hP.step h hs) ls p hrun t

end CodeInv

end LinuxDrivers.Card
