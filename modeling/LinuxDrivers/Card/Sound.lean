import LinuxDrivers.Card.Exclusion

/-!
# A request under the lock, in any interleaving

While a task drives the card, other tasks come and go, the card ticks, and an
interrupt arrives at some point. None of this changes what the request will have done
in the end: `upshot` is what the statements still to be executed make of the frame,
and every step keeps it (`upshot_exec`, `upshot_tick`, `upshot_irq`). So when the
request gets to its copy-out, the frame is the one `Script.lean` computes by running
the routine on its own.

`Par.Sound` collects where the tasks can be, for calls that no signal disturbs and
that leave by the exit that unlocks. Its machine `m₀` is the one the last request
to finish has left; while nobody holds the lock it is the machine itself.
-/

namespace LinuxDrivers.Card

variable {n : Nat} (E : Cipher)

/-! ## What a routine will have done -/

/-- The interrupt in flight is handled. -/
def Machine.drain (m : Machine) : Machine :=
  if m.card.irqs = 0 then m else cryptocardIrqHandle m

/-- What the statements make of the frame, with the interrupt in flight handled first. -/
def upshot (env : Env) (is : List Instr) (f : Frame) : Option Frame :=
  runAll E env is { f with m := f.m.drain }

theorem drain_of_none {m : Machine} (hi : m.card.irqs = 0) : m.drain = m := if_pos hi

theorem upshot_of_none (env : Env) (is : List Instr) {f : Frame} (hi : f.m.card.irqs = 0) :
    upshot E env is f = runAll E env is f := by
  rw [upshot, drain_of_none hi]

/-- A statement that does not have to wait does nothing but its effect. -/
theorem run_of_go (env : Env) {i : Instr} {f : Frame} (hgo : i.blocked f.m = false) :
    i.run E env f = some (i.effect env.latency f) := by
  cases i with
  | whileBusy off =>
      have hfree : ¬(ioread32 f.m.card off &&& 1 ≠ 0) := by simpa [Instr.blocked] using hgo
      have hspin : spin E off f.m.ticksLeft f.m = f.m := by
        cases f.m.ticksLeft with
        | zero => rfl
        | succ k => rw [spin, if_neg hfree]
      rw [Instr.run, hspin]
      rfl
  | waitEventInterruptible =>
      have hflag : f.m.wqFlag ≠ 0 := by simpa [Instr.blocked] using hgo
      have hwait : waitEvent E env.signal f.m.ticksLeft f.m = some f.m := by
        cases f.m.ticksLeft with
        | zero => rw [waitEvent, if_pos hflag]
        | succ k => rw [waitEvent, if_pos hflag]
      rw [Instr.run, hwait]
      rfl
  | _ => rfl

theorem effect_irqs (i : Instr) (lat : Nat) (f : Frame) :
    (i.effect lat f).m.card.irqs = f.m.card.irqs := by
  cases i with
  | iowrite32 v off => exact iowrite32_irqs ..
  | _ => rfl

/-- A request that can go on has no interrupt in flight. -/
theorem Phase.irqs_of_go {f : Frame} {i : Instr} {is : List Instr} {mine : Option Nat}
    (h : Phase ⟨f, i :: is, mine⟩) (hgo : i.blocked f.m = false) : f.m.card.irqs = 0 := by
  cases h with
  | loading h =>
      cases h with
      | trigger rest _ _ => exact rest.irqs
      | next rest _ _ => exact rest.irqs
  | running _ _ irqs _ _ => exact irqs
  | raised fin _ _ flag _ =>
      -- it would be asleep
      cases fin with
      | sleep hc => exact absurd flag (by simpa [Instr.blocked] using hgo)
  | flagged _ _ irqs _ => exact irqs
  | awake _ _ irqs _ => exact irqs
  | polled _ rest => exact rest.irqs
  | copying _ rest => exact rest.irqs

/-- Between requests, and when its statements are executed, a request has the machine at rest. -/
theorem Phase.atRest {f : Frame} {mine : Option Nat} (h : Phase ⟨f, [], mine⟩) : f.m.AtRest := by
  cases h with
  | idle rest => exact rest
  | loading h => cases h
  | running fin => cases fin
  | raised fin => cases fin
  | flagged fin => cases fin
  | polled fin rest => exact rest

theorem upshot_exec {env : Env} {f : Frame} {i : Instr} {is : List Instr} {mine : Option Nat}
    (h : Phase ⟨f, i :: is, mine⟩) (hgo : i.blocked f.m = false) :
    upshot E env is (i.effect env.latency f) = upshot E env (i :: is) f := by
  have hi := h.irqs_of_go hgo
  rw [upshot_of_none E env _ ((effect_irqs ..).trans hi), upshot_of_none E env _ hi, runAll,
    run_of_go E env hgo]
  rfl

/-- While the operation runs, what is left waits for it and copies. -/
theorem upshot_running {env : Env} (hsig : env.signal = none) {intr : Bool} {is : List Instr}
    (fin : Ending intr is) {f : Frame} {j : Job} (hj : f.m.card.job = some j)
    (hintr : j.intr = intr) (hi : f.m.card.irqs = 0) (hf : f.m.wqFlag = 0) :
    upshot E env is f = runAll E env is.getLast?.toList { f with m := f.m.awaited E } := by
  rw [upshot_of_none E env _ hi]
  cases fin with
  | @sleep copy hc => exact awaits_interrupt E hsig [copy] f j hj hintr hi hf
  | @poll off copy hoff hc => exact awaits_whileBusy E env hoff [copy] f j hj hintr hi hf

/-- Once the operation has completed, what is left does not wait any more and copies the same. -/
theorem upshot_completed {env : Env} {intr : Bool} {is : List Instr} (fin : Ending intr is)
    {f : Frame} {j : Job} (hj : f.m.card.job = some j) (hintr : j.intr = intr)
    (hi : f.m.card.irqs = 0) (hf : f.m.wqFlag = 0) :
    upshot E env is { f with m := f.m.complete E }
      = runAll E env is.getLast?.toList { f with m := f.m.awaited E } := by
  have hdrain : (f.m.complete E).drain = f.m.settle E := rfl
  cases fin with
  | sleep hc =>
      have hgo : Instr.blocked (f.m.settle E) .waitEventInterruptible = false := by
        simp [Instr.blocked, settle_flag E hj hintr]
      rw [upshot, hdrain, runAll, run_of_go E env (f := { f with m := f.m.settle E }) hgo]
      rfl
  | @poll off copy hoff hc =>
      have hm : f.m.settle E = f.m.awaited E := by
        have hflag := settle_no_flag E hj hintr hi
        rw [hf] at hflag
        unfold Machine.awaited
        rw [← hflag]
      have hfree : ¬(ioread32 (f.m.settle E).card off &&& 1 ≠ 0) := by
        rw [busy_iff _ hoff, settle_job]
        simp
      have hgo : Instr.blocked (f.m.settle E) (.whileBusy off) = false := by
        simpa [Instr.blocked] using hfree
      rw [upshot, hdrain, runAll, run_of_go E env (f := { f with m := f.m.settle E }) hgo, hm]
      rfl

theorem upshot_tick {env : Env} (hsig : env.signal = none) {f : Frame} {is : List Instr}
    {mine : Option Nat} (h : Phase ⟨f, is, mine⟩) (hjob : f.m.card.job.isSome) :
    upshot E env is { f with m := f.m.tick E } = upshot E env is f := by
  have hbusy : f.m.card.job ≠ none := by
    intro h0
    rw [h0] at hjob
    exact absurd hjob (by simp)
  -- only a running operation ticks
  cases h with
  | idle rest => exact absurd rest.job hbusy
  | loading h => cases h with
    | trigger rest _ _ => exact absurd rest.job hbusy
    | next rest _ _ => exact absurd rest.job hbusy
  | raised _ job => exact absurd job hbusy
  | flagged _ job => exact absurd job hbusy
  | awake _ job => exact absurd job hbusy
  | polled _ rest => exact absurd rest.job hbusy
  | copying _ rest => exact absurd rest.job hbusy
  | @running _ _ intr fin job irqs flag last =>
      obtain ⟨j, hj, hintr⟩ := job
      rw [upshot_running E hsig fin hj hintr irqs flag]
      by_cases ht : j.ticks = 0
      · have htick : f.m.tick E = f.m.complete E := by simp [Machine.tick, hj, ht]
        rw [htick, upshot_completed E fin hj hintr irqs flag]
      · have htick : f.m.tick E = { f.m with
            card := { f.m.card with job := some { j with ticks := j.ticks - 1 } } } := by
          simp [Machine.tick, hj, ht]
        rw [htick, upshot_running E hsig fin (f := { f with m := { f.m with
          card := { f.m.card with job := some { j with ticks := j.ticks - 1 } } } })
          (j := { j with ticks := j.ticks - 1 }) rfl hintr irqs flag]
        unfold Machine.awaited
        dsimp only
        rw [settle_ticks E hj]

/-- At most one interrupt is in flight. -/
theorem Phase.irqs_le {f : Frame} {is : List Instr} {mine : Option Nat}
    (h : Phase ⟨f, is, mine⟩) : f.m.card.irqs ≤ 1 := by
  cases h with
  | idle rest => exact Nat.le_of_lt_succ (by rw [rest.irqs]; omega)
  | loading h => cases h with
    | trigger rest _ _ => rw [rest.irqs]; omega
    | next rest _ _ => rw [rest.irqs]; omega
  | running _ _ irqs => omega
  | raised _ _ irqs => omega
  | flagged _ _ irqs => omega
  | awake _ _ irqs => omega
  | polled _ rest => rw [rest.irqs]; omega
  | copying _ rest => rw [rest.irqs]; omega

theorem upshot_irq (env : Env) {f : Frame} {is : List Instr} {mine : Option Nat}
    (h : Phase ⟨f, is, mine⟩) (hirq : f.m.card.irqs ≠ 0) :
    upshot E env is { f with m := cryptocardIrqHandle f.m } = upshot E env is f := by
  have hle := h.irqs_le
  have hnone : (cryptocardIrqHandle f.m).card.irqs = 0 := by
    show f.m.card.irqs - 1 = 0
    omega
  rw [upshot_of_none E env is (f := { f with m := cryptocardIrqHandle f.m }) hnone, upshot,
    Machine.drain, if_neg hirq]

/-! ## Where a request can be -/

/-- An unmapped request that no signal disturbs and whose result can be copied out. -/
structure Task.Requests (t : Task) (decrypt : Bool) : Prop where
  call : t.ev.call = .ioctl (if decrypt then .decrypt t.ccop else .encrypt t.ccop)
  unlocks : t.ccop.Unlocks t.ev.env
  noSignal : t.ev.env.signal = none

/-- A task without the lock. -/
inductive Task.Outside (t : Task) : Prop where
  | configuring (ws : List Write) (hc : t.code = ws.map .store)
  | waiting (decrypt : Bool) (hreq : t.Requests decrypt)
      (hc : t.code = .spinLock :: (loads ++ drive decrypt))

/-- What a request computes, from the machine `m₀` it found. -/
def Task.result (t : Task) (decrypt : Bool) (user : Nat → Mem UInt8) (m₀ : Machine) :
    Option Frame :=
  runAll E t.ev.env ((routines decrypt).unmapped t.cfg t.ev.env t.ccop.length)
    ⟨m₀.keyed t.ev.env.latency t.cfg,
      copyFromUser t.ev.env (user t.ev.pid) t.ccop.addr t.ccop.length.toNat⟩

/-- A task with the lock: `m₀` is the machine it found, `m` the machine now. -/
inductive Task.Drives (t : Task) (decrypt : Bool) (user : Nat → Mem UInt8) (m₀ m : Machine) :
    Prop where
  | loading {reads : List Stmt} (hr : reads <:+ loads) (hc : t.code = reads ++ drive decrypt)
      (hm : m = m₀)
  | keyed (hc : t.code = [.copyIn, .transfer decrypt, .copyOut, .spinUnlock])
      (hm : m = m₀.keyed t.ev.env.latency t.cfg)
  | copied (hc : t.code = [.transfer decrypt, .copyOut, .spinUnlock])
      (hm : m = m₀.keyed t.ev.env.latency t.cfg)
      (hbuff : t.buff = copyFromUser t.ev.env (user t.ev.pid) t.ccop.addr t.ccop.length.toNat)
  /-- Inside the routine, or at its end. -/
  | moving {is : List Instr} {mine : Option Nat}
      (hc : t.code = is.map .instr ++ [.copyOut, .spinUnlock])
      (hphase : Phase ⟨⟨m, t.buff⟩, is, mine⟩)
      (hout : upshot E t.ev.env is ⟨m, t.buff⟩ = t.result E decrypt user m₀)
  | leaving (hc : t.code = [.spinUnlock]) (hm : m = m₀)

/-- A file is open while a call is using it. -/
def Par.IsOpen (p : Par n) : Prop :=
  ∀ t, (p.tasks t).code ≠ [] → (p.sys.files (p.tasks t).ev.fd).isSome

/-- The calls in progress, for a machine `m₀` left by the last request to finish. -/
structure Par.Sound (p : Par n) (holder : Option (Fin n)) (m₀ : Machine) : Prop where
  rest : m₀.AtRest
  isOpen : p.IsOpen
  outside : ∀ t, holder ≠ some t → (p.tasks t).Outside
  free : holder = none → p.sys.ccSpinlock = false ∧ p.sys.m = m₀
  held : ∀ t, holder = some t → p.sys.ccSpinlock = true ∧ ∃ decrypt,
    (p.tasks t).Requests decrypt ∧ (p.tasks t).Drives E decrypt p.sys.user m₀ p.sys.m

/-- The steps the statements below are about: no signal, and calls that leave by the exit that
unlocks. -/
def Move.Undisturbed : Move n → Prop
  | .call _ e => e.Releases ∧ e.env.signal = none
  | .signal _ => False
  | _ => True

theorem sound_start {s : Sys} (hlock : s.ccSpinlock = false) (hrest : s.m.AtRest) :
    (Par.start (n := n) s).Sound E none s.m where
  rest := hrest
  isOpen := fun _ h => absurd rfl h
  outside := fun _ _ => .configuring [] rfl
  free := fun _ => ⟨hlock, rfl⟩
  held := fun _ h => absurd h (by simp)

/-! ## What a statement does under the lock -/

/-- The request begins its routine with everything at rest. -/
theorem loading_unmapped (decrypt : Bool) (cfg : CryptocardConfig) (env : Env) (length : UInt64)
    {m₀ : Machine} (rest : m₀.AtRest) (lat : Nat) (data : List UInt8) :
    Loading ((routines decrypt).unmapped cfg env length) ⟨m₀.keyed lat cfg, data⟩ := by
  have h := loading_request decrypt cfg env length (f := ⟨m₀, data⟩) rest
  cases h with
  | trigger _ trig _ =>
      -- the key register starts no operation
      have hstart := (trig lat).started
      exact absurd hstart (Nat.ne_of_lt (Nat.lt_succ_self _))
  | next _ _ h => exact h lat

/-- What a statement does when its task holds the lock. -/
inductive DriveCase (t : Task) (decrypt : Bool) (m₀ : Machine) (s : Sys) (t' : Task) (s' : Sys) :
    Prop where
  | go (hs : s' = { s with m := s'.m }) (hev : t'.ev = t.ev) (hccop : t'.ccop = t.ccop)
      (hd : t'.Drives E decrypt s.user m₀ s'.m) (hnot : ∀ code, t.code ≠ .copyOut :: code)
  /-- The result is copied out: the request is done but for the unlock. -/
  | commit (hc : t.code = [.copyOut, .spinUnlock]) (ht : t' = { t with code := [.spinUnlock] })
      (hres : t.result E decrypt s.user m₀ = some ⟨s.m, t.buff⟩) (hrest : s.m.AtRest)
      (hs : s' = { s with
        user := Function.update s.user t.ev.pid (copyToUser t.ev.env (s.user t.ev.pid)
          t.ccop.addr t.buff t.ccop.length.toNat).2 })
  | release (hc : t.code = [.spinUnlock]) (ht : t' = { t with code := [] })
      (hs : s' = { s with ccSpinlock := false }) (hm : s.m = m₀)

theorem keyed_atRest {m₀ : Machine} (h : m₀.AtRest) (lat : Nat) (cfg : CryptocardConfig) :
    (m₀.keyed lat cfg).AtRest := ⟨⟨h.job, h.irqs, h.flag⟩, h.finished⟩

theorem exec_drives {t t' : Task} {decrypt : Bool} {m₀ : Machine} {s s' : Sys} (rest : m₀.AtRest)
    (hreq : t.Requests decrypt) (hd : t.Drives E decrypt s.user m₀ s.m)
    (h : t.exec s = some (t', s')) : DriveCase E t decrypt m₀ s t' s' := by
  cases hd with
  | @loading reads hr hc hm =>
      cases reads with
      | nil =>
          simp only [Task.exec, hc, drive, List.nil_append, Option.some.injEq, Prod.mk.injEq] at h
          obtain ⟨rfl, rfl⟩ := h
          exact .go rfl rfl rfl (.keyed rfl (by rw [hm])) (by simp [hc, drive])
      | cons st reads =>
          have hmem : st ∈ loads := hr.subset (by simp)
          obtain ⟨r, rfl⟩ : ∃ r, st = .load r := by
            simp only [loads, List.mem_cons, List.not_mem_nil, or_false] at hmem
            rcases hmem with h | h | h | h <;> exact ⟨_, h⟩
          simp only [Task.exec, hc, List.cons_append, Option.map_eq_some_iff, Prod.mk.injEq] at h
          obtain ⟨file, -, rfl, rfl⟩ := h
          exact .go rfl rfl rfl (.loading ((List.suffix_cons _ _).trans hr) rfl hm) (by simp [hc])
  | keyed hc hm =>
      simp only [Task.exec, hc, Option.some.injEq, Prod.mk.injEq] at h
      obtain ⟨rfl, rfl⟩ := h
      exact .go rfl rfl rfl (.copied rfl hm rfl) (by simp [hc])
  | copied hc hm hbuff =>
      simp only [Task.exec, hc, Option.some.injEq, Prod.mk.injEq] at h
      obtain ⟨rfl, rfl⟩ := h
      refine .go rfl rfl rfl (.moving rfl (.loading ?_ : Phase ⟨_, _, none⟩) ?_) (by simp [hc])
      · rw [hm]
        exact loading_unmapped decrypt t.cfg t.ev.env t.ccop.length rest _ _
      · -- nothing is in flight, and the frame is the one the routine starts from
        rw [upshot_of_none E _ _ (by rw [hm]; exact (keyed_atRest rest _ _).irqs), hm]
        show runAll E _ _ ⟨_, t.buff⟩ = _
        rw [hbuff]
        rfl
  | @moving is mine hc hphase hout =>
      cases is with
      | nil =>
          simp only [Task.exec, hc, List.map_nil, List.nil_append] at h
          have hall : (copyToUser t.ev.env (s.user t.ev.pid) t.ccop.addr t.buff
              t.ccop.length.toNat).1 = 0 := hreq.unlocks.2
          rw [if_neg (not_not.mpr hall)] at h
          simp only [Option.some.injEq, Prod.mk.injEq] at h
          obtain ⟨rfl, rfl⟩ := h
          refine .commit hc rfl ?_ hphase.atRest rfl
          rw [← hout, upshot_of_none E _ _ hphase.atRest.irqs]
          rfl
      | cons i is =>
          simp only [Task.exec, hc, List.map_cons, List.cons_append] at h
          split at h
          · exact absurd h (by simp)
          · rename_i hb
            have hgo : i.blocked s.m = false := by simpa using hb
            simp only [Option.some.injEq, Prod.mk.injEq] at h
            obtain ⟨rfl, rfl⟩ := h
            have hs : Conc.step E ⟨⟨s.m, t.buff⟩, i :: is, mine⟩ (.exec t.ev.env.latency)
                = some _ :=
              if_neg hb
            exact .go rfl rfl rfl (.moving rfl (hphase.exec E hs)
              ((upshot_exec E hphase hgo).trans hout))
              (by simp [hc])
  | leaving hc hm =>
      simp only [Task.exec, hc, Option.some.injEq, Prod.mk.injEq] at h
      obtain ⟨rfl, rfl⟩ := h
      exact .release hc rfl rfl hm

/-- What a statement does when its task does not hold the lock. -/
inductive OutsideCase (t : Task) (s : Sys) (t' : Task) (s' : Sys) : Prop where
  | store {w : Write} {ws : List Write} {file : CryptocardConfig}
      (hc : t.code = .store w :: ws.map .store) (ht : t' = { t with code := ws.map .store })
      (hf : s.files t.ev.fd = some file) (hs : s' = s.setFile t.ev.fd (some (w.apply file)))
  | acquire {decrypt : Bool} (hreq : t.Requests decrypt)
      (hc : t.code = .spinLock :: (loads ++ drive decrypt))
      (ht : t' = { t with code := loads ++ drive decrypt }) (hfree : s.ccSpinlock = false)
      (hs : s' = { s with ccSpinlock := true })

theorem exec_outside {t t' : Task} {s s' : Sys} (ho : t.Outside)
    (h : t.exec s = some (t', s')) : OutsideCase t s t' s' := by
  cases ho with
  | configuring ws hc =>
      cases ws with
      | nil =>
          simp only [Task.exec, hc, List.map_nil] at h
          exact absurd h (by simp)
      | cons w ws =>
          simp only [Task.exec, hc, List.map_cons, Option.map_eq_some_iff, Prod.mk.injEq] at h
          obtain ⟨file, hf, rfl, rfl⟩ := h
          exact .store hc rfl hf rfl
  | waiting decrypt hreq hc =>
      simp only [Task.exec, hc] at h
      split at h
      · exact absurd h (by simp)
      · rename_i hfree
        simp only [Option.some.injEq, Prod.mk.injEq] at h
        obtain ⟨rfl, rfl⟩ := h
        exact .acquire hreq hc rfl (by simpa using hfree) rfl

/-! ## Every step keeps the calls in progress sound -/

/-- A statement closes no file and keeps its task on the same one. -/
theorem update_isOpen {p : Par n} {t : Fin n} {t' : Task} {s' : Sys}
    (h : p.IsOpen) (hfiles : ∀ fd, (p.sys.files fd).isSome → (s'.files fd).isSome)
    (ht : t'.code ≠ [] → (s'.files t'.ev.fd).isSome) : (p.update t t' s').IsOpen :=
  Pool.forall_update (P := fun _ (t : Task) => t.code ≠ [] → (s'.files t.ev.fd).isSome) ht
    (fun i _ hne => hfiles _ (h i hne)) s'

theorem setFile_isSome {s : Sys} {fd : Nat} {cfg : CryptocardConfig} (x : Nat)
    (h : (s.files x).isSome) : ((s.setFile fd (some cfg)).files x).isSome := by
  by_cases hx : x = fd
  · subst hx
    simp [Sys.setFile]
  · simpa [Sys.setFile, hx] using h

theorem exec_code_ne {t t' : Task} {s s' : Sys} (h : t.exec s = some (t', s')) : t.code ≠ [] := by
  intro hnil
  simp [Task.exec, hnil] at h

/-- Whatever happens, no file is closed while a call is using it. -/
theorem isOpen_step {p p' : Par n} {l : Move n} (h : p.IsOpen) (hs : p.step E l = some p') :
    p'.IsOpen := by
  cases move_cases hs with
  | @fopen t e mem hidle hc hf =>
      intro i hi
      cases mem with
      | none => exact h i hi
      | some ab => exact setFile_isSome (s := p.sys) _ (h i hi)
  | @frelease t e file hidle hc hf hunused =>
      intro i hi
      have hfd := hunused i hi
      simpa [cryptocardFrelease, Sys.setFile, hfd] using h i hi
  | ioctl hidle hc hf =>
      exact update_isOpen h (fun _ hx => hx) fun _ => Option.isSome_of_eq_some hf
  | @exec t t' s' hexec =>
      have hkeep : ∀ fd, (p.sys.files fd).isSome → (s'.files fd).isSome := by
        intro fd hfd
        cases exec_cases hexec with
        | store hc hf => exact setFile_isSome fd hfd
        | _ => exact hfd
      refine update_isOpen h hkeep fun _ => ?_
      rw [(exec_cases hexec).ev]
      exact hkeep _ (h t (exec_code_ne hexec))
  | @signal t code hc => exact update_isOpen h (fun _ hx => hx) fun _ => h t (by simp [hc])
  | tick hjob => exact h
  | irq hirq => exact h

theorem Par.Sound.lock_of_holder {p : Par n} {holder : Option (Fin n)} {m₀ : Machine}
    (h : p.Sound E holder m₀) : p.sys.ccSpinlock = holder.isSome := by
  cases hh : holder with
  | none => exact (h.free hh).1
  | some t => exact (h.held t hh).1

/-- A statement leaves its task with the lock, and the others without. -/
theorem sound_with_lock {p : Par n} (hopen : p.IsOpen) {t : Fin n}
    (houtside : ∀ i, i ≠ t → (p.tasks i).Outside) {t' : Task} {s' : Sys} {m₀ : Machine}
    (rest : m₀.AtRest) (hfiles : s'.files = p.sys.files) (ht : (p.sys.files t'.ev.fd).isSome)
    (hlock : s'.ccSpinlock = true) {decrypt : Bool} (hreq : t'.Requests decrypt)
    (hd : t'.Drives E decrypt s'.user m₀ s'.m) : (p.update t t' s').Sound E (some t) m₀ where
  rest := rest
  isOpen := update_isOpen hopen (fun x hx => by rw [hfiles]; exact hx)
    fun _ => by rw [hfiles]; exact ht
  outside := by
    intro i hi
    have hit : i ≠ t := by
      rintro rfl
      exact hi rfl
    rw [Pool.update_tasks_ne p hit]
    exact houtside i hit
  free := by simp
  held := by
    intro i hi
    cases hi
    rw [Pool.update_tasks_self]
    exact ⟨hlock, decrypt, hreq, hd⟩

/-- A task without the lock executes a statement. -/
theorem sound_outside {p : Par n} {holder : Option (Fin n)} {m₀ : Machine}
    (h : p.Sound E holder m₀) {t : Fin n} {t' : Task} {s' : Sys} (hne : holder ≠ some t)
    (hexec : (p.tasks t).exec p.sys = some (t', s')) :
    (∃ holder', (p.update t t' s').Sound E holder' m₀) ∧ s'.user = p.sys.user
      ∧ ∀ code, (p.tasks t).code ≠ .copyOut :: code := by
  have hopen := h.isOpen t (exec_code_ne hexec)
  cases exec_outside (h.outside t hne) hexec with
  | @store w ws file hc ht hf hs =>
      subst ht hs
      refine ⟨⟨holder, ?_⟩, rfl, by simp [hc]⟩
      exact
        { rest := h.rest
          isOpen := update_isOpen h.isOpen (fun x hx => setFile_isSome x hx)
            fun _ => setFile_isSome _ hopen
          outside := Pool.forall_update (P := fun i (t : Task) => holder ≠ some i → t.Outside)
            (fun _ => .configuring ws rfl) (fun i _ => h.outside i) _
          free := h.free
          held := by
            intro i hi
            have hit : i ≠ t := by
              rintro rfl
              exact hne hi
            rw [Pool.update_tasks_ne p hit]
            exact h.held i hi }
  | @acquire decrypt hreq hc ht hfree hs =>
      subst ht hs
      -- the lock was free, so nobody was driving
      have hnone : holder = none := by
        have hlock := h.lock_of_holder E
        rw [hfree] at hlock
        exact Option.isSome_eq_false_iff.mp hlock.symm |> Option.isNone_iff_eq_none.mp
      refine ⟨⟨some t, ?_⟩, rfl, by simp [hc]⟩
      exact sound_with_lock E h.isOpen (fun i _ => h.outside i (by simp [hnone])) h.rest rfl hopen
        rfl ⟨hreq.call, hreq.unlocks, hreq.noSignal⟩
        (.loading (List.suffix_refl _) rfl (h.free hnone).2)

/-- The task with the lock executes a statement. -/
theorem sound_holder {p : Par n} {m₀ : Machine} {t : Fin n} (h : p.Sound E (some t) m₀)
    {t' : Task} {s' : Sys} (hexec : (p.tasks t).exec p.sys = some (t', s')) :
    ((∃ holder', (p.update t t' s').Sound E holder' m₀) ∧ s'.user = p.sys.user
        ∧ ∀ code, (p.tasks t).code ≠ .copyOut :: code)
      ∨ ((p.update t t' s').Sound E (some t) p.sys.m ∧ ∃ decrypt, (p.tasks t).Requests decrypt
        ∧ (p.tasks t).code = [.copyOut, .spinUnlock]
        ∧ (p.tasks t).result E decrypt p.sys.user m₀ = some ⟨p.sys.m, (p.tasks t).buff⟩
        ∧ s' = { p.sys with
            user := Function.update p.sys.user (p.tasks t).ev.pid
              (copyToUser (p.tasks t).ev.env (p.sys.user (p.tasks t).ev.pid) (p.tasks t).ccop.addr
                (p.tasks t).buff (p.tasks t).ccop.length.toNat).2 }) := by
  obtain ⟨hlock, decrypt, hreq, hd⟩ := h.held t rfl
  have hopen := h.isOpen t (exec_code_ne hexec)
  have houtside : ∀ i, i ≠ t → (p.tasks i).Outside := by
    intro i hi
    exact h.outside i (by simpa using fun h => hi h.symm)
  cases exec_drives E h.rest hreq hd hexec with
  | go hs hev hccop hd' hnot =>
      have huser : s'.user = p.sys.user := by rw [hs]
      have hreq' : t'.Requests decrypt :=
        ⟨by rw [hev, hccop]; exact hreq.call, by rw [hev, hccop]; exact hreq.unlocks,
          by rw [hev]; exact hreq.noSignal⟩
      refine Or.inl ⟨⟨some t, ?_⟩, huser, hnot⟩
      exact sound_with_lock E h.isOpen houtside h.rest (by rw [hs]) (by rw [hev]; exact hopen)
        (by rw [hs]; exact hlock) hreq' (by rw [huser]; exact hd')
  | commit hc ht hres hrest hs =>
      refine Or.inr ⟨?_, decrypt, hreq, hc, hres, hs⟩
      subst ht hs
      exact sound_with_lock E h.isOpen houtside hrest rfl hopen hlock
        ⟨hreq.call, hreq.unlocks, hreq.noSignal⟩ (.leaving rfl rfl)
  | release hc ht hs hm =>
      refine Or.inl ⟨⟨none, ?_⟩, by rw [hs], by simp [hc]⟩
      subst ht hs
      exact
        { rest := h.rest
          isOpen := update_isOpen h.isOpen (fun _ hx => hx) fun hne => absurd rfl hne
          outside := Pool.forall_update (P := fun i (t : Task) => none ≠ some i → t.Outside)
            (fun _ => .configuring [] rfl) (fun i hit _ => houtside i hit) _
          free := fun _ => ⟨rfl, hm⟩
          held := by simp }

/-- The machine is at rest except inside a routine. -/
theorem drives_busy {t : Task} {decrypt : Bool} {user : Nat → Mem UInt8} {m₀ m : Machine}
    (rest : m₀.AtRest) (hd : t.Drives E decrypt user m₀ m)
    (hbusy : m.card.job.isSome ∨ m.card.irqs ≠ 0) :
    ∃ is mine, t.code = is.map .instr ++ [.copyOut, .spinUnlock] ∧ Phase ⟨⟨m, t.buff⟩, is, mine⟩
      ∧ upshot E t.ev.env is ⟨m, t.buff⟩ = t.result E decrypt user m₀ := by
  have hrest : ¬m.AtRest := by
    intro h
    rcases hbusy with hj | hi
    · rw [h.job] at hj
      exact absurd hj (by simp)
    · exact hi h.irqs
  cases hd with
  | loading _ _ hm => exact absurd (hm ▸ rest) hrest
  | keyed _ hm => exact absurd (hm ▸ keyed_atRest rest _ _) hrest
  | copied _ hm _ => exact absurd (hm ▸ keyed_atRest rest _ _) hrest
  | moving hc hphase hout => exact ⟨_, _, hc, hphase, hout⟩
  | leaving _ hm => exact absurd (hm ▸ rest) hrest

/-- The card moves on, and the calls in progress stay sound. -/
theorem sound_machine {p : Par n} {holder : Option (Fin n)} {m₀ : Machine}
    (h : p.Sound E holder m₀) (hbusy : p.sys.m.card.job.isSome ∨ p.sys.m.card.irqs ≠ 0)
    {m' : Machine}
    (hkeep : ∀ (t : Task) (is : List Instr) (mine : Option Nat), t.ev.env.signal = none →
      Phase ⟨⟨p.sys.m, t.buff⟩, is, mine⟩ →
      Phase ⟨⟨m', t.buff⟩, is, mine⟩
        ∧ upshot E t.ev.env is ⟨m', t.buff⟩ = upshot E t.ev.env is ⟨p.sys.m, t.buff⟩) :
    Par.Sound E { p with sys := { p.sys with m := m' } } holder m₀ where
  rest := h.rest
  isOpen := h.isOpen
  outside := h.outside
  free := by
    intro hnone
    -- nobody drives, so the card is at rest
    have hm := (h.free hnone).2
    rcases hbusy with hj | hi
    · rw [hm, h.rest.job] at hj
      exact absurd hj (by simp)
    · exact absurd (hm ▸ h.rest.irqs) hi
  held := by
    intro t ht
    obtain ⟨hlock, decrypt, hreq, hd⟩ := h.held t ht
    obtain ⟨is, mine, hc, hphase, hout⟩ := drives_busy E h.rest hd hbusy
    obtain ⟨hphase', hout'⟩ := hkeep _ is mine hreq.noSignal hphase
    exact ⟨hlock, decrypt, hreq, .moving hc hphase' (hout'.trans hout)⟩

theorem sound_tick {p : Par n} {holder : Option (Fin n)} {m₀ : Machine}
    (h : p.Sound E holder m₀) (hjob : p.sys.m.card.job.isSome) :
    Par.Sound E { p with sys := { p.sys with m := p.sys.m.tick E } } holder m₀ :=
  sound_machine E h (Or.inl hjob) fun _ _ _ hsig hphase =>
    ⟨hphase.tick E (if_pos hjob), upshot_tick E hsig hphase hjob⟩

theorem sound_irq {p : Par n} {holder : Option (Fin n)} {m₀ : Machine}
    (h : p.Sound E holder m₀) (hirq : p.sys.m.card.irqs ≠ 0) :
    Par.Sound E { p with sys := { p.sys with m := cryptocardIrqHandle p.sys.m } } holder m₀ := by
  refine sound_machine E h (Or.inr hirq) fun t is mine _ hphase => ?_
  have hout := upshot_irq E t.ev.env hphase hirq
  exact ⟨hphase.irq E (if_neg hirq), hout⟩

/-- A change to the files that leaves those in use open. -/
theorem Par.Sound.of_files {p : Par n} {holder : Option (Fin n)} {m₀ : Machine}
    (h : p.Sound E holder m₀) {s' : Sys} (hm : s'.m = p.sys.m) (hu : s'.user = p.sys.user)
    (hlock : s'.ccSpinlock = p.sys.ccSpinlock)
    (hopen : Par.IsOpen { p with sys := s' }) : Par.Sound E { p with sys := s' } holder m₀ where
  rest := h.rest
  isOpen := hopen
  outside := h.outside
  free := by
    intro hnone
    show s'.ccSpinlock = false ∧ s'.m = m₀
    rw [hlock, hm]
    exact h.free hnone
  held := by
    intro t ht
    show s'.ccSpinlock = true ∧ ∃ decrypt, _ ∧ Task.Drives E _ decrypt s'.user m₀ s'.m
    rw [hlock, hm, hu]
    exact h.held t ht

theorem sound_fopen {p : Par n} {holder : Option (Fin n)} {m₀ : Machine}
    (h : p.Sound E holder m₀) (mem : Option (UInt8 × UInt8)) (fd : Nat) :
    Par.Sound E { p with sys := (cryptocardFopen mem fd p.sys).2 } holder m₀ := by
  cases mem with
  | none => exact h.of_files E rfl rfl rfl h.isOpen
  | some ab =>
      refine h.of_files E rfl rfl rfl fun t hne => ?_
      exact setFile_isSome (s := p.sys) _ (h.isOpen t hne)

theorem sound_frelease {p : Par n} {holder : Option (Fin n)} {m₀ : Machine}
    (h : p.Sound E holder m₀) {fd : Nat} (hunused : p.unused fd) :
    Par.Sound E { p with sys := (cryptocardFrelease fd p.sys).2 } holder m₀ := by
  refine h.of_files E rfl rfl rfl fun t hne => ?_
  have hfd := hunused t hne
  simpa [cryptocardFrelease, Sys.setFile, hfd] using h.isOpen t hne

/-- What a call starts with: it does not have the lock. -/
theorem enter_outside {e : Event} {cmd : Cmd} (hc : e.call = .ioctl cmd) (hrel : e.Releases)
    (hsig : e.env.signal = none) : (Task.enter e cmd).Outside := by
  cases cmd with
  | setKey cckey => exact .configuring [.a cckey.a, .b cckey.b, .isKeyset] rfl
  | setConfig cfg => exact .configuring [_, .isConfigset] rfl
  | encrypt ccop =>
      have hun := hrel ccop (Or.inl hc)
      refine .waiting false ⟨hc, hun, hsig⟩ ?_
      simp [Task.enter, Cmd.body, requestBody, hun.1]
  | decrypt ccop =>
      have hun := hrel ccop (Or.inr hc)
      refine .waiting true ⟨hc, hun, hsig⟩ ?_
      simp [Task.enter, Cmd.body, requestBody, hun.1]
  | other c => exact .configuring [] rfl

/-- A request with the lock has statements left. -/
theorem drives_code_ne {t : Task} {decrypt : Bool} {user : Nat → Mem UInt8} {m₀ m : Machine}
    (hd : t.Drives E decrypt user m₀ m) : t.code ≠ [] := by
  cases hd with
  | loading _ hc _ => simp [hc, drive]
  | keyed hc _ => simp [hc]
  | copied hc _ _ => simp [hc]
  | moving hc _ _ => simp [hc]
  | leaving hc _ => simp [hc]

theorem sound_ioctl {p : Par n} {holder : Option (Fin n)} {m₀ : Machine}
    (h : p.Sound E holder m₀) {t : Fin n} (hidle : (p.tasks t).code = []) {e : Event} {cmd : Cmd}
    (hc : e.call = .ioctl cmd) (hrel : e.Releases) (hsig : e.env.signal = none)
    (hopen : (p.sys.files e.fd).isSome) : (p.update t (.enter e cmd) p.sys).Sound E holder m₀ where
  rest := h.rest
  isOpen := update_isOpen h.isOpen (fun _ hx => hx) fun _ => hopen
  outside := Pool.forall_update (P := fun i (t : Task) => holder ≠ some i → t.Outside)
    (fun _ => enter_outside hc hrel hsig) (fun i _ => h.outside i) _
  free := h.free
  held := by
    intro i hi
    obtain ⟨hlock, decrypt, hreq, hd⟩ := h.held i hi
    have hit : i ≠ t := by
      rintro rfl
      exact drives_code_ne E hd hidle
    rw [Pool.update_tasks_ne p hit]
    exact ⟨hlock, decrypt, hreq, hd⟩

/-- Every undisturbed step keeps the calls in progress sound. -/
theorem sound_step {p p' : Par n} {holder : Option (Fin n)} {m₀ : Machine} {l : Move n}
    (h : p.Sound E holder m₀) (hl : l.Undisturbed) (hs : p.step E l = some p') :
    ∃ holder' m₀', p'.Sound E holder' m₀' := by
  cases move_cases hs with
  | fopen hidle hc hf => exact ⟨holder, m₀, sound_fopen E h _ _⟩
  | frelease hidle hc hf hunused => exact ⟨holder, m₀, sound_frelease E h hunused⟩
  | ioctl hidle hc hf =>
      exact ⟨holder, m₀, sound_ioctl E h hidle hc hl.1 hl.2 (by rw [hf]; rfl)⟩
  | @exec t t' s' hexec =>
      by_cases hh : holder = some t
      · subst hh
        rcases sound_holder E h hexec with ⟨⟨holder', h'⟩, -, -⟩ | ⟨h', -⟩
        · exact ⟨holder', m₀, h'⟩
        · exact ⟨some t, p.sys.m, h'⟩
      · obtain ⟨⟨holder', h'⟩, -, -⟩ := sound_outside E h hh hexec
        exact ⟨holder', m₀, h'⟩
  | signal hc => exact absurd hl id
  | tick hjob => exact ⟨holder, m₀, sound_tick E h hjob⟩
  | irq hirq => exact ⟨holder, m₀, sound_irq E h hirq⟩

theorem sound_runs {s₀ : Sys} (hlock : s₀.ccSpinlock = false) (hrest : s₀.m.AtRest)
    {ls : List (Move n)} (hls : ∀ l ∈ ls, l.Undisturbed) {p : Par n}
    (hrun : runs (Par.step E) (Par.start s₀) ls = some p) : ∃ holder m₀, p.Sound E holder m₀ := by
  have hok : Meets (Par.step E) (fun _ l => l.Undisturbed) (Par.start s₀) ls :=
    .of_forall fun l hl _ => hls l hl
  refine runs_meets (P := fun p => ∃ holder m₀, Par.Sound E p holder m₀)
    ⟨none, s₀.m, sound_start E hlock hrest⟩ ?_ hok hrun
  rintro p l p' ⟨holder, m₀, h⟩ hl hs
  exact sound_step E h hl hs

end LinuxDrivers.Card
