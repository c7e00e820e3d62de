import LinuxDrivers.Card.Progress

/-!
# What one signal does to the requests after it

A request that a signal wakes copies back too early, and when its operation
completes, the flag goes up for nobody. The next request in interrupt mode finds it
up, does not wait for its own operation either, and leaves the flag to the one after
it. This need not stop: for every sequence of requests in interrupt mode there is a
run with a single signal in which each of them copies its result back before its
operation is over.

Polling requests do not look at the flag. They wait for the card to be free, trigger,
and wait for it to be free again, and are never early whatever the signals did to the
requests before them.
-/

namespace LinuxDrivers.Card

variable (E : Cipher)

/-- The operation whose result a step copies back before it is over. -/
def Conc.earlyCopy (c : Conc) : Label → Option Nat
  | .exec _ =>
    match c.code, c.mine with
    | i :: _, some k => if i.copiesBack ∧ c.f.m.card.finished < k then some k else none
    | _, _ => none
  | _ => none

/-- An unmapped request, as it enters with the lock. -/
structure Request where
  decrypt : Bool
  cfg : CryptocardConfig
  env : Env
  length : UInt64
  data : List UInt8

def Request.call (r : Request) : Label := .call r.decrypt r.cfg r.env r.length r.data

/-- The request the label makes. -/
def Label.request : Label → Option Request
  | .call decrypt cfg env length data => some ⟨decrypt, cfg, env, length, data⟩
  | _ => none

def Label.isSignal : Label → Bool
  | .signal => true
  | _ => false

@[simp] theorem request_call (r : Request) : r.call.request = some r := rfl
@[simp] theorem request_exec (lat : Nat) : (Label.exec lat).request = none := rfl
@[simp] theorem request_tick : Label.tick.request = none := rfl
@[simp] theorem request_irq : Label.irq.request = none := rfl
@[simp] theorem isSignal_call (r : Request) : r.call.isSignal = false := rfl
@[simp] theorem isSignal_exec (lat : Nat) : (Label.exec lat).isSignal = false := rfl
@[simp] theorem isSignal_tick : Label.tick.isSignal = false := rfl
@[simp] theorem isSignal_irq : Label.irq.isSignal = false := rfl

/-! ## Up to the trigger, whatever the flag -/

/-- The same frame with the completion flag at `k`. -/
def Frame.flagged (f : Frame) (k : Nat) : Frame := { f with m := { f.m with wqFlag := k } }

/-- The statements before the trigger do not touch the flag. -/
theorem effect_flagged {i : Instr} (hi : i.setsUp) (lat : Nat) (f : Frame) (k : Nat) :
    i.effect lat (f.flagged k) = (i.effect lat f).flagged k := by
  cases i with
  | clearWqFlag => exact absurd hi (by simp [Instr.setsUp])
  | _ => rfl

/-- Nor do they start or finish anything. -/
theorem effect_counts {i : Instr} (hi : i.setsUp) (lat : Nat) (f : Frame) :
    (i.effect lat f).m.card.started = f.m.card.started
      ∧ (i.effect lat f).m.card.finished = f.m.card.finished := by
  cases i with
  | iowrite32 v off =>
      have hoff : off ≠ mmaddrOff ∧ off ≠ dmaCmdOff := by simpa [Instr.setsUp] using hi
      simp only [Instr.effect, iowrite32, if_neg hoff.1, if_neg hoff.2]
      repeat' split
      all_goals exact ⟨rfl, rfl⟩
  | _ => exact ⟨rfl, rfl⟩

theorem step_exec_of_go {f : Frame} {i : Instr} (is : List Instr) (mine : Option Nat) (lat : Nat)
    (hgo : i.blocked f.m = false) :
    Conc.step E ⟨f, i :: is, mine⟩ (.exec lat) = some ⟨i.effect lat f, is,
      if (i.effect lat f).m.card.started = f.m.card.started then mine
      else some (i.effect lat f).m.card.started⟩ := by
  simp [Conc.step, hgo]

/-- The operation of a request is in progress, and the flag is at `k`. -/
structure Frame.Busy (f : Frame) (intr : Bool) (k : Nat) : Prop where
  job : ∃ j, f.m.card.job = some j ∧ j.intr = intr
  irqs : f.m.card.irqs = 0
  flag : f.m.wqFlag = k
  last : f.m.card.finished + 1 = f.m.card.started

/-- The run `ls` leads from `c` to `c'`, and copies the results of the operations `early` back
before they are over. -/
structure Trace (c : Conc) (ls : List Label) (c' : Conc) (early : List Nat) : Prop where
  run : runs (Conc.step E) c ls = some c'
  early : commits (Conc.step E) Conc.earlyCopy c ls = early

theorem Trace.nil (c : Conc) : Trace E c [] c [] := ⟨rfl, rfl⟩

theorem Trace.of_step {c c' : Conc} {l : Label} (h : c.step E l = some c') :
    Trace E c [l] c' (c.earlyCopy l).toList :=
  ⟨(runs_singleton ..).trans h, commits_singleton _ h⟩

theorem Trace.trans {c c' c'' : Conc} {ls ls' : List Label} {early early' : List Nat}
    (h : Trace E c ls c' early) (h' : Trace E c' ls' c'' early') :
    Trace E c (ls ++ ls') c'' (early ++ early') where
  run := by rw [runs_append, h.run]; exact h'.run
  early := by rw [commits_append _ _ _ h.run, h.early, h'.early]

/-- A request on its way to the trigger gets there, and copies nothing on the way. -/
theorem loading_runs (lat k : Nat) {code : List Instr} {f : Frame} (h : Loading code f)
    (hpoll : ∀ off, .whileBusy off ∈ code → off = mmstatusOff ∨ off = dmaCmdOff)
    (mine : Option Nat) :
    ∃ (n : Nat) (pre fin : List Instr) (intr : Bool) (f' : Frame), code = pre ++ fin
      ∧ .waitEventInterruptible ∉ pre ∧ Ending intr fin
      ∧ Trace E ⟨f.flagged k, code, mine⟩ (List.replicate n (.exec lat))
        ⟨f', fin, some f'.m.card.started⟩ []
      ∧ f'.Busy intr k ∧ f'.m.card.started = f.m.card.started + 1 := by
  induction h generalizing mine with
  | @trigger v off intr is f rest trig fin =>
      have hs := step_exec_of_go E (f := f.flagged k) (i := .iowrite32 v off) is mine lat rfl
      have hstarted : (iowrite32 lat f.m.card v off).started = f.m.card.started + 1 :=
        (trig lat).started
      rw [if_neg (by show ¬(iowrite32 lat f.m.card v off).started = _; rw [hstarted]; exact
        Nat.succ_ne_self _)] at hs
      have hearly : Conc.earlyCopy ⟨f.flagged k, .iowrite32 v off :: is, mine⟩ (.exec lat)
          = none := by
        cases mine <;> rfl
      have htrace := Trace.of_step E hs
      rw [hearly] at htrace
      refine ⟨1, [.iowrite32 v off], is, intr, _, rfl, by simp, fin, htrace,
        ⟨(trig lat).job, (iowrite32_irqs ..).trans rest.irqs, rfl, ?_⟩, hstarted⟩
      · show (iowrite32 lat f.m.card v off).finished + 1 = (iowrite32 lat f.m.card v off).started
        rw [(trig lat).finished, hstarted, rest.finished]
  | @next i is f rest hi _ ih =>
      have hgo : i.blocked (f.flagged k).m = false := by
        cases i with
        | whileBusy off =>
            have hfree : ¬(ioread32 f.m.card off &&& 1 ≠ 0) := by
              rw [busy_iff _ (hpoll off (List.mem_cons_self ..)), rest.job]
              simp
            exact decide_eq_false hfree
        | waitEventInterruptible => exact absurd hi (by simp [Instr.setsUp])
        | _ => rfl
      have hs := step_exec_of_go E is mine lat hgo
      have hcount := effect_counts hi lat f
      rw [effect_flagged hi, if_pos (by exact hcount.1)] at hs
      have hearly : Conc.earlyCopy ⟨f.flagged k, i :: is, mine⟩ (.exec lat) = none := by
        have hback := copiesBack_of_setsUp hi
        cases mine <;> simp [Conc.earlyCopy, hback]
      have htrace := Trace.of_step E hs
      rw [hearly] at htrace
      obtain ⟨n, pre, fin, intr, f', rfl, hpre, hfin, hrest, hbusy, hstarted⟩ :=
        ih lat (fun off ho => hpoll off (List.mem_cons_of_mem _ ho)) mine
      refine ⟨n + 1, i :: pre, fin, intr, f', rfl, ?_, hfin, htrace.trans E hrest, hbusy, ?_⟩
      · rw [List.mem_cons, not_or]
        exact ⟨fun h => ne_wait_of_setsUp hi h.symm, hpre⟩
      · rw [hstarted, hcount.1]

/-! ## One request in interrupt mode -/

/-- No request in progress, nothing under way, and the flag at `k`. -/
structure Conc.Idle (c : Conc) (k : Nat) : Prop where
  code : c.code = []
  job : c.f.m.card.job = none
  irqs : c.f.m.card.irqs = 0
  flag : c.f.m.wqFlag = k
  finished : c.f.m.card.finished = c.f.m.card.started

theorem complete_ticks {m : Machine} {j : Job} (hj : m.card.job = some j) (t : Nat) :
    Machine.complete E { m with card := { m.card with job := some { j with ticks := t } } }
      = m.complete E := by
  simp [Machine.complete, Device.retire, hj]

/-- Left alone, the card completes its operation. -/
theorem ticks_complete (mine : Option Nat) (t : Nat) : ∀ {f : Frame} {j : Job},
    f.m.card.job = some j → j.ticks = t →
    Trace E ⟨f, [], mine⟩ (List.replicate (t + 1) .tick)
      ⟨{ f with m := f.m.complete E }, [], mine⟩ [] := by
  induction t with
  | zero =>
      intro f j hj ht
      have hs : Conc.step E ⟨f, [], mine⟩ .tick
          = some ⟨{ f with m := f.m.complete E }, [], mine⟩ := by
        simp [Conc.step, Machine.tick, hj, ht]
      exact .of_step E hs
  | succ t ih =>
      intro f j hj ht
      have hs : Conc.step E ⟨f, [], mine⟩ .tick = some ⟨{ f with m := { f.m with
          card := { f.m.card with job := some { j with ticks := t } } } }, [], mine⟩ := by
        simp [Conc.step, Machine.tick, hj, ht]
      have hrest := ih (f := { f with m := { f.m with
        card := { f.m.card with job := some { j with ticks := t } } } })
        (j := { j with ticks := t }) rfl rfl
      rw [complete_ticks E hj] at hrest
      exact (Trace.of_step E hs).trans E hrest

/-- The copy that ends a request in interrupt mode, made while the operation runs. -/
theorem copy_early {copy : Instr} (hc : copy.copiesBack) {f : Frame} {k : Nat}
    (hb : f.Busy true k) (lat : Nat) :
    ∃ f', Trace E ⟨f, [copy], some f.m.card.started⟩ [.exec lat] ⟨f', [], some f.m.card.started⟩
        [f.m.card.started]
      ∧ f'.m = f.m := by
  have hm := effect_copiesBack hc lat f
  have hgo : copy.blocked f.m = false := by
    cases copy with
    | whileBusy off => exact absurd hc (by simp [Instr.copiesBack])
    | waitEventInterruptible => exact absurd hc (by simp [Instr.copiesBack])
    | _ => rfl
  have hs := step_exec_of_go E [] (some f.m.card.started) lat hgo
  rw [if_pos (by rw [hm])] at hs
  have hlt := hb.last
  have hearly : Conc.earlyCopy ⟨f, [copy], some f.m.card.started⟩ (.exec lat)
      = some f.m.card.started := if_pos ⟨hc, by show f.m.card.finished < _; omega⟩
  have htrace := Trace.of_step E hs
  rw [hearly] at htrace
  exact ⟨_, htrace, hm⟩

/-- Past the wait: the request clears the flag, copies too early and returns, and the card and its
interrupt go on without it. -/
theorem return_early {copy : Instr} (hc : copy.copiesBack) {f : Frame} {k : Nat}
    (hb : f.Busy true k) :
    ∃ (t : Nat) (c' : Conc), Trace E ⟨f, [.clearWqFlag, copy], some f.m.card.started⟩
        ([.exec 0] ++ [.exec 0] ++ List.replicate (t + 1) Label.tick ++ [.irq]) c'
          [f.m.card.started]
      ∧ c'.Idle 1 ∧ c'.f.m.card.started = f.m.card.started := by
  -- the flag comes down
  have hclear : Conc.step E ⟨f, [.clearWqFlag, copy], some f.m.card.started⟩ (.exec 0)
      = some ⟨f.flagged 0, [copy], some f.m.card.started⟩ := by
    simp [Conc.step, Instr.blocked, Instr.effect, Frame.flagged]
  have hb₀ : (f.flagged 0).Busy true 0 := ⟨hb.job, hb.irqs, rfl, hb.last⟩
  obtain ⟨f₁, hcopy, hm⟩ := copy_early E hc hb₀ 0
  -- the operation completes and its interrupt is handled
  obtain ⟨j, hj, hintr⟩ := hb₀.job
  have hj₁ : f₁.m.card.job = some j := by rw [hm]; exact hj
  have hticks := ticks_complete E (some f.m.card.started) j.ticks hj₁ rfl
  obtain ⟨data, hcard⟩ := complete_card E hj₁
  have hirqs : (f₁.m.complete E).card.irqs = 1 := by
    rw [hcard, hm]
    show (if j.intr then f.m.card.irqs + 1 else f.m.card.irqs) = 1
    rw [if_pos hintr, hb.irqs]
  have hirq : Conc.step E ⟨{ f₁ with m := f₁.m.complete E }, [], some f.m.card.started⟩ .irq
      = some ⟨{ f₁ with m := cryptocardIrqHandle (f₁.m.complete E) }, [],
        some f.m.card.started⟩ := by
    simp [Conc.step, hirqs]
  have hstarted : (f₁.m.complete E).card.started = f.m.card.started := by rw [hcard, hm]; rfl
  refine ⟨j.ticks, _, (((Trace.of_step E hclear).trans E hcopy).trans E hticks).trans E
    (.of_step E hirq), ⟨rfl, ?_, ?_, rfl, ?_⟩, hstarted⟩
  · show (f₁.m.complete E).card.job = none
    rw [hcard]
    rfl
  · show (f₁.m.complete E).card.irqs - 1 = 0
    rw [hirqs]
  · show (f₁.m.complete E).card.finished = (f₁.m.complete E).card.started
    rw [hstarted, hcard, hm]
    exact hb.last

/-- A request in interrupt mode waits for the flag. -/
theorem wait_mem_unmapped (decrypt : Bool) {cfg : CryptocardConfig} (hcfg : cfg.interrupt ≠ 0)
    (env : Env) (length : UInt64) :
    .waitEventInterruptible ∈ (routines decrypt).unmapped cfg env length := by
  unfold Routines.unmapped
  rw [if_neg hcfg, if_neg hcfg]
  split
  · cases decrypt <;>
      simp [routines, encryptRoutines, decryptRoutines, encryptionMmioInterrupt,
        decryptionMmioInterrupt, mmioInterrupt]
  · cases decrypt <;>
      simp [routines, encryptRoutines, decryptRoutines, encryptionDmaInterrupt,
        decryptionDmaInterrupt, dmaInterrupt]

/-- **One round.** Between requests, with the flag up or down, a request in interrupt mode can go
wrong: if the flag is down it takes a signal. It leaves the flag up. -/
theorem round_early {c : Conc} {k : Nat} (hc : c.Idle k) {r : Request}
    (hr : r.cfg.interrupt ≠ 0) :
    ∃ ls c', Trace E c ls c' [c.f.m.card.started + 1] ∧ ls.filterMap Label.request = [r]
      ∧ ls.countP Label.isSignal = (if k = 0 then 1 else 0)
      ∧ c'.Idle 1 ∧ c'.f.m.card.started = c.f.m.card.started + 1 := by
  -- the machine is at rest but for the flag
  let f₀ : Frame := Frame.flagged ⟨c.f.m, r.data⟩ 0
  have hrest : f₀.m.AtRest := ⟨⟨hc.job, hc.irqs, rfl⟩, hc.finished⟩
  have hflag : f₀.flagged k = ⟨c.f.m, r.data⟩ := by
    show Frame.mk { c.f.m with wqFlag := k } r.data = _
    rw [← hc.flag]
  have hload := loading_request r.decrypt r.cfg r.env r.length hrest
  have hcall : Conc.step E c r.call = some ⟨f₀.flagged k,
      .iowrite32 (r.cfg.a.toUInt32 <<< 8 ||| r.cfg.b.toUInt32) keyOff
        :: (routines r.decrypt).unmapped r.cfg r.env r.length, none⟩ := by
    rw [hflag]
    simp only [Conc.step, Request.call, hc.code]
  obtain ⟨n, pre, fin, intr, f', hcode, hpre, hfin, hrun, hbusy, hstarted⟩ :=
    loading_runs E 0 k hload (fun off ho => unmapped_polls _ _ _ _ off (by simpa using ho)) none
  -- its ending is the one with the wait
  have hwait : .waitEventInterruptible ∈ pre ++ fin := by
    rw [← hcode]
    exact List.mem_cons_of_mem _ (wait_mem_unmapped r.decrypt hr r.env r.length)
  have hmem := (List.mem_append.mp hwait).resolve_left hpre
  cases hfin with
  | poll hoff hcopy =>
      rcases List.mem_cons.mp hmem with h | h
      · exact absurd h (by simp)
      · rw [← List.mem_singleton.mp h] at hcopy
        exact absurd hcopy (by simp [Instr.copiesBack])
  | @sleep copy hcopy =>
      obtain ⟨t, c', hret, hidle, hcount⟩ := return_early E hcopy hbusy
      have hsettled : c'.f.m.card.started = c.f.m.card.started + 1 := hcount.trans hstarted
      -- a signal ends the wait, or the wait finds the flag up
      obtain ⟨w, hpass, hwr, hws⟩ : ∃ w, Trace E ⟨f', [.waitEventInterruptible, .clearWqFlag, copy],
          some f'.m.card.started⟩ [w] ⟨f', [.clearWqFlag, copy], some f'.m.card.started⟩ []
          ∧ w.request = none ∧ w.isSignal = decide (k = 0) := by
        by_cases hk : k = 0
        · exact ⟨.signal, .of_step E rfl, rfl, by simp [Label.isSignal, hk]⟩
        · have hgo : Instr.blocked f'.m .waitEventInterruptible = false := by
            simp [Instr.blocked, hbusy.flag, hk]
          have hs := step_exec_of_go E [.clearWqFlag, copy] (some f'.m.card.started) 0 hgo
          rw [if_pos (by rfl)] at hs
          exact ⟨.exec 0, .of_step E hs, rfl, by simp [Label.isSignal, hk]⟩
      have htrace := (((Trace.of_step E hcall).trans E hrun).trans E hpass).trans E hret
      refine ⟨_, c', hstarted ▸ htrace, ?_, ?_, hidle, hcount.trans hstarted⟩
      · simp [hwr]
      · simp [List.countP_replicate, List.countP_cons, hws]

/-- From a flag that is up, every request in interrupt mode can go wrong without a signal. -/
theorem rounds_early (rs : List Request) (hrs : ∀ r ∈ rs, r.cfg.interrupt ≠ 0) {c : Conc}
    (hc : c.Idle 1) :
    ∃ ls c', Trace E c ls c' (List.range' (c.f.m.card.started + 1) rs.length)
      ∧ ls.filterMap Label.request = rs ∧ ls.countP Label.isSignal = 0 := by
  induction rs generalizing c with
  | nil => exact ⟨[], c, .nil E c, rfl, rfl⟩
  | cons r rs ih =>
      obtain ⟨ls, c₁, htrace, hreq, hsig, hidle, hstarted⟩ := round_early E hc (hrs r (by simp))
      obtain ⟨ls', c', htrace', hreq', hsig'⟩ :=
        ih (fun x hx => hrs x (List.mem_cons_of_mem _ hx)) hidle
      refine ⟨ls ++ ls', c', ?_, ?_, ?_⟩
      · rw [hstarted] at htrace'
        rw [List.length_cons, List.range'_succ]
        exact htrace.trans E htrace'
      · rw [List.filterMap_append, hreq, hreq']
        rfl
      · rw [List.countP_append, hsig, hsig']
        rfl

/--
**One signal can spoil every request after it.**

For every card at rest and every sequence of requests in interrupt mode, whatever
their commands, keys, lengths and data, there is a run that makes exactly these
requests, in which one wait is ended by a signal, and in which each of them copies its
result back before its operation is over.
-/
theorem one_signal_spoils_all {m₀ : Machine} (h₀ : m₀.AtRest) (r : Request) (rs : List Request)
    (hrs : ∀ x ∈ r :: rs, x.cfg.interrupt ≠ 0) :
    ∃ ls c, runs (Conc.step E) (Conc.start m₀) ls = some c
      ∧ ls.filterMap Label.request = r :: rs ∧ ls.countP Label.isSignal = 1
      ∧ commits (Conc.step E) Conc.earlyCopy (Conc.start m₀) ls
        = List.range' (m₀.card.started + 1) (r :: rs).length := by
  have hidle : (Conc.start m₀).Idle 0 := ⟨rfl, h₀.job, h₀.irqs, h₀.flag, h₀.finished⟩
  obtain ⟨ls, c₁, htrace, hreq, hsig, hidle₁, hstarted⟩ := round_early E hidle (hrs r (by simp))
  obtain ⟨ls', c', htrace', hreq', hsig'⟩ :=
    rounds_early E rs (fun x hx => hrs x (List.mem_cons_of_mem _ hx)) hidle₁
  have hall := htrace.trans E htrace'
  refine ⟨ls ++ ls', c', hall.run, ?_, ?_, ?_⟩
  · rw [List.filterMap_append, hreq, hreq']
    rfl
  · rw [List.countP_append, hsig, hsig']
    rfl
  · rw [hall.early, hstarted, List.length_cons, List.range'_succ]
    rfl

/-- Three requests by MMIO and DMA, one after the other. -/
theorem one_signal_spoils_three :
    ∃ ls c, runs (Conc.step genCipher) (Conc.start (Sys.probed fun _ _ => 65).m) ls = some c
      ∧ ls.filterMap Label.request
        = [⟨false, ⟨30, 17, 0, 1, 1, 1⟩, Env.calm, 5, [72, 69, 76, 76, 79]⟩,
          ⟨true, ⟨30, 17, 1, 1, 1, 1⟩, Env.calm, 2, [72, 69]⟩,
          ⟨false, ⟨1, 2, 0, 1, 1, 1⟩, Env.calm, 1, [65]⟩]
      ∧ ls.countP Label.isSignal = 1
      ∧ commits (Conc.step genCipher) Conc.earlyCopy (Conc.start (Sys.probed fun _ _ => 65).m) ls
        = List.range' 1 3 :=
  one_signal_spoils_all genCipher (Sys.probed_atRest fun _ _ => 65) _
    [⟨true, ⟨30, 17, 1, 1, 1, 1⟩, Env.calm, 2, [72, 69]⟩,
      ⟨false, ⟨1, 2, 0, 1, 1, 1⟩, Env.calm, 1, [65]⟩]
    (by simp)

/-! ## Polling requests -/

/-- A write that makes a free card start an operation. -/
def TriggerWrite (v : UInt32) (off : Nat) : Prop := off = mmaddrOff ∨ off = dmaCmdOff ∧ v &&& 1 ≠ 0

theorem TriggerWrite.started {v : UInt32} {off : Nat} (h : TriggerWrite v off) {c : Device}
    (hj : c.job = none) (lat : Nat) : (iowrite32 lat c v off).started = c.started + 1 := by
  rcases h with rfl | ⟨rfl, hv⟩
  · exact (triggers_mm hj v lat).started
  · exact (triggers_dma hj hv lat).started

/-- What a polling request has to execute from its last look at the card before the trigger. -/
structure PollTail (tail : List Instr) (v : UInt32) (off poll : Nat) (copy : Instr) : Prop where
  code : tail = [.iowrite32 v off, .whileBusy poll, copy]
  trigger : TriggerWrite v off
  poll : poll = mmstatusOff ∨ poll = dmaCmdOff
  copy : copy.copiesBack

/-- Where a polling request can be, whatever else is going on. -/
inductive Polling : Conc → Prop where
  | returned {f : Frame} {mine : Option Nat} : Polling ⟨f, [], mine⟩
  | loading {f : Frame} {mine : Option Nat} (pre : List Instr) {tail : List Instr} {v : UInt32}
      {off poll : Nat} {copy : Instr} (hpre : ∀ i ∈ pre, i.setsUp = true)
      (h : PollTail tail v off poll copy) :
      Polling ⟨f, pre ++ .whileBusy poll :: tail, mine⟩
  /-- The card was found free, and only this request could change that. -/
  | ready {f : Frame} {mine : Option Nat} {tail : List Instr} {v : UInt32} {off poll : Nat}
      {copy : Instr} (h : PollTail tail v off poll copy) (job : f.m.card.job = none) :
      Polling ⟨f, tail, mine⟩
  | polling {f : Frame} {poll : Nat} {copy : Instr} (hpoll : poll = mmstatusOff ∨ poll = dmaCmdOff)
      (hc : copy.copiesBack) : Polling ⟨f, [.whileBusy poll, copy], some f.m.card.started⟩
  | copying {f : Frame} {copy : Instr} (hc : copy.copiesBack) (job : f.m.card.job = none) :
      Polling ⟨f, [copy], some f.m.card.started⟩

/-- The card has finished all operations but the one in progress. -/
def Device.Counts (c : Device) : Prop := c.finished + (if c.job.isSome then 1 else 0) = c.started

/-- Every request in polling mode starts by loading. -/
theorem polling_request (r : Request) (hr : r.cfg.interrupt = 0) (f : Frame) (mine : Option Nat) :
    Polling ⟨f, .iowrite32 (r.cfg.a.toUInt32 <<< 8 ||| r.cfg.b.toUInt32) keyOff
      :: (routines r.decrypt).unmapped r.cfg r.env r.length, mine⟩ := by
  have hmm : PollTail [.iowrite32 0xa8 mmaddrOff, .whileBusy mmstatusOff,
      .memcpyFromio dataOff r.length.toUInt32.toNat] 0xa8 mmaddrOff mmstatusOff _ :=
    ⟨rfl, Or.inl rfl, Or.inl rfl, rfl⟩
  have hdma : ∀ cmd : UInt32, cmd &&& 1 ≠ 0 → PollTail [.iowrite32 cmd dmaCmdOff,
      .whileBusy dmaCmdOff, .memcpyFromDma r.env.dmaHandle r.length.toUInt32.toNat] cmd dmaCmdOff
      dmaCmdOff _ := fun _ hcmd => ⟨rfl, Or.inr ⟨rfl, hcmd⟩, Or.inr rfl, rfl⟩
  unfold Routines.unmapped
  rw [if_pos hr, if_pos hr]
  split
  · cases r.decrypt with
    | false =>
        exact .loading [.iowrite32 _ keyOff, .iowrite32 0x0 mmstatusOff,
          .memcpyToio dataOff _, .iowrite32 _ mmdataLenOff, .ioread32 mmdataLenOff]
          (by simp [Instr.setsUp, keyOff, mmstatusOff, mmdataLenOff, mmaddrOff, dmaCmdOff]) hmm
    | true =>
        exact .loading [.iowrite32 _ keyOff, .iowrite32 _ mmdataLenOff,
          .iowrite32 0x2 mmstatusOff, .memcpyToio dataOff _, .ioread32 mmdataLenOff]
          (by simp [Instr.setsUp, keyOff, mmstatusOff, mmdataLenOff, mmaddrOff, dmaCmdOff]) hmm
  · cases r.decrypt with
    | false =>
        exact .loading [.iowrite32 _ keyOff, .memcpyToDma _ _, .iowrite32 _ dmaDataLenOff,
          .iowrite32 _ dmaAddrOff]
          (by simp [Instr.setsUp, keyOff, dmaDataLenOff, dmaAddrOff, mmaddrOff, dmaCmdOff])
          (hdma 0x1 (by decide))
    | true =>
        exact .loading [.iowrite32 _ keyOff, .memcpyToDma _ _, .iowrite32 _ dmaDataLenOff,
          .iowrite32 _ dmaAddrOff]
          (by simp [Instr.setsUp, keyOff, dmaDataLenOff, dmaAddrOff, mmaddrOff, dmaCmdOff])
          (hdma (0x1 ||| 0x2) (by decide))

/-- A request that gets past a poll has seen the card free. -/
theorem job_none_of_polled {m : Machine} {off : Nat} (hoff : off = mmstatusOff ∨ off = dmaCmdOff)
    (hgo : Instr.blocked m (.whileBusy off) = false) : m.card.job = none := by
  have hfree : ¬(ioread32 m.card off &&& 1 ≠ 0) := of_decide_eq_false hgo
  rw [busy_iff _ hoff] at hfree
  exact Option.not_isSome_iff_eq_none.mp hfree

theorem Polling.exec {c c' : Conc} (h : Polling c) {lat : Nat}
    (hs : c.step E (.exec lat) = some c') : Polling c' := by
  cases h with
  | returned => exact absurd hs (by simp [Conc.step])
  | @loading f mine pre tail v off poll copy hpre ht =>
      cases pre with
      | nil =>
          obtain ⟨hgo, rfl⟩ := exec_cons E hs
          exact .ready ht (job_none_of_polled ht.poll hgo)
      | cons i pre =>
          obtain ⟨-, rfl⟩ := exec_cons E hs
          exact .loading pre (fun x hx => hpre x (List.mem_cons_of_mem _ hx)) ht
  | @ready f mine tail v off poll copy ht job =>
      obtain rfl := ht.code
      obtain ⟨-, rfl⟩ := exec_cons E hs
      have hstarted : (iowrite32 lat f.m.card v off).started = f.m.card.started + 1 :=
        ht.trigger.started job lat
      rw [if_neg (by show ¬(iowrite32 lat f.m.card v off).started = _; omega)]
      exact .polling ht.poll ht.copy
  | polling hpoll hc =>
      obtain ⟨hgo, rfl⟩ := exec_cons E hs
      rw [if_pos (by rfl)]
      exact .copying hc (job_none_of_polled hpoll hgo)
  | copying hc job =>
      obtain ⟨-, rfl⟩ := exec_cons E hs
      exact .returned

/-- A polling request never sleeps, so no signal reaches it. -/
theorem Polling.not_asleep {c : Conc} (h : Polling c) (is : List Instr) :
    c.code ≠ .waitEventInterruptible :: is := by
  intro hc
  cases h with
  | returned => exact absurd hc (by simp)
  | @loading f mine pre tail v off poll copy hpre ht =>
      cases pre with
      | nil => exact absurd hc (by simp)
      | cons i pre => exact ne_wait_of_setsUp (hpre i (by simp)) (List.cons.inj hc).1
  | ready ht job =>
      rw [ht.code] at hc
      exact absurd hc (by simp)
  | polling => exact absurd hc (by simp)
  | copying hcopy job =>
      rw [(List.cons.inj hc).1] at hcopy
      exact absurd hcopy (by simp [Instr.copiesBack])

/-- The card and its interrupts go on beside a polling request. -/
theorem Polling.machine {f : Frame} {code : List Instr} {mine : Option Nat}
    (h : Polling ⟨f, code, mine⟩) {m' : Machine} (hs : m'.card.started = f.m.card.started)
    (hj : f.m.card.job = none → m'.card.job = none) : Polling ⟨{ f with m := m' }, code, mine⟩ := by
  cases h with
  | returned => exact .returned
  | loading pre hpre ht => exact .loading pre hpre ht
  | ready ht job => exact .ready ht (hj job)
  | polling hpoll hc =>
      rw [← hs]
      exact .polling (f := { f with m := m' }) hpoll hc
  | copying hc job =>
      rw [← hs]
      exact .copying (f := { f with m := m' }) hc (hj job)

theorem tick_cases {m : Machine} {j : Job} (hj : m.card.job = some j) :
    m.tick E = m.complete E
      ∨ (m.tick E).card = { m.card with job := some { j with ticks := j.ticks - 1 } } := by
  by_cases ht : j.ticks = 0
  · exact Or.inl (by simp [Machine.tick, hj, ht])
  · exact Or.inr (by simp [Machine.tick, hj, ht])

theorem tick_started {m : Machine} {j : Job} (hj : m.card.job = some j) :
    (m.tick E).card.started = m.card.started := by
  rcases tick_cases E hj with htick | htick
  · obtain ⟨data, hc⟩ := complete_card E hj
    rw [htick, hc]
    rfl
  · rw [htick]

/-! ## The card counts what it has to do -/

theorem Device.Counts.trigger {c : Device} (h : c.Counts) (j : Job) : (c.trigger j).Counts := by
  unfold Device.trigger
  split
  · exact h
  · rename_i hfree
    rw [Device.Counts, if_neg hfree] at h
    show c.finished + 1 = c.started + 1
    omega

theorem Device.Counts.iowrite32 {c : Device} (h : c.Counts) (lat : Nat) (v : UInt32) (off : Nat) :
    (iowrite32 lat c v off).Counts := by
  unfold Card.iowrite32
  iterate 6 refine iteInduction (motive := Device.Counts) (fun _ => h) fun _ => ?_
  refine iteInduction (motive := Device.Counts) (fun _ => h.trigger _) fun _ => ?_
  refine iteInduction (motive := Device.Counts) (fun _ => ?_) fun _ => h
  refine iteInduction (motive := Device.Counts) (fun _ => ?_) fun _ => h
  exact Device.Counts.trigger (c := { c with dmaCmd := v }) h _

theorem counts_effect {f : Frame} (h : f.m.card.Counts) (i : Instr) (lat : Nat) :
    (i.effect lat f).m.card.Counts := by
  cases i with
  | iowrite32 v off => exact h.iowrite32 lat v off
  | _ => exact h

theorem counts_tick {m : Machine} (h : m.card.Counts) {j : Job} (hj : m.card.job = some j) :
    (m.tick E).card.Counts := by
  have hlast : m.card.finished + 1 = m.card.started := by simpa [Device.Counts, hj] using h
  rcases tick_cases E hj with htick | htick
  · obtain ⟨data, hc⟩ := complete_card E hj
    rw [htick, hc]
    exact hlast
  · rw [htick]
    exact hlast

/-! ## Every run -/

/-- What a run keeps: the card's count, and where the last request is if it polls. -/
structure PollsLast (ls : List Label) (c : Conc) : Prop where
  counts : c.f.m.card.Counts
  last : ∀ r, latest Label.request ls = some r → r.cfg.interrupt = 0 → Polling c

theorem latest_of_no_request {ls : List Label} {l : Label} (hl : l.request = none) :
    latest Label.request (ls ++ [l]) = latest Label.request ls := by
  rw [latest_snoc, hl]
  rfl

theorem PollsLast.step {ls : List Label} {c c' : Conc} {l : Label} (h : PollsLast ls c)
    (hs : c.step E l = some c') : PollsLast (ls ++ [l]) c' := by
  cases l with
  | call decrypt cfg env length data =>
      simp only [Conc.step] at hs
      split at hs
      · cases hs
        refine ⟨h.counts, fun r hr hpoll => ?_⟩
        rw [latest_snoc] at hr
        obtain rfl := Option.some.inj hr
        exact polling_request ⟨decrypt, cfg, env, length, data⟩ hpoll ⟨c.f.m, data⟩ none
      · exact absurd hs (by simp)
  | exec lat =>
      refine ⟨?_, fun r hr hpoll => (h.last r ?_ hpoll).exec E hs⟩
      · obtain ⟨f, code, mine⟩ := c
        cases code with
        | nil => exact absurd hs (by simp [Conc.step])
        | cons i is =>
            obtain ⟨-, rfl⟩ := exec_cons E hs
            exact counts_effect h.counts i lat
      · rwa [latest_of_no_request rfl] at hr
  | signal =>
      simp only [Conc.step] at hs
      split at hs
      · rename_i is hcode
        cases hs
        refine ⟨h.counts, fun r hr hpoll => ?_⟩
        rw [latest_of_no_request rfl] at hr
        exact absurd hcode ((h.last r hr hpoll).not_asleep is)
      · exact absurd hs (by simp)
  | tick =>
      simp only [Conc.step] at hs
      split at hs
      · rename_i hbusy
        cases hs
        obtain ⟨j, hj⟩ := Option.isSome_iff_exists.mp hbusy
        refine ⟨counts_tick E h.counts hj, fun r hr hpoll => ?_⟩
        rw [latest_of_no_request rfl] at hr
        refine (h.last r hr hpoll).machine (tick_started E hj) fun hfree => ?_
        exact absurd (hj.symm.trans hfree) (by simp)
      · exact absurd hs (by simp)
  | irq =>
      simp only [Conc.step] at hs
      split at hs
      · exact absurd hs (by simp)
      · cases hs
        refine ⟨h.counts, fun r hr hpoll => ?_⟩
        rw [latest_of_no_request rfl] at hr
        exact (h.last r hr hpoll).machine rfl id

theorem Polling.notEarly {c : Conc} (h : Polling c) (hcount : c.f.m.card.Counts) : c.NotEarly := by
  refine ⟨fun i is hc hback => ?_, fun is hc => absurd hc (h.not_asleep is)⟩
  cases h with
  | returned => exact absurd hc (by simp)
  | @loading f mine pre tail v off poll copy hpre ht =>
      cases pre with
      | nil => exact absurd hback (by rw [← (List.cons.inj hc).1]; simp [Instr.copiesBack])
      | cons x pre =>
          obtain rfl := (List.cons.inj hc).1
          exact absurd hback (by simp [copiesBack_of_setsUp (hpre x (by simp))])
  | ready ht job =>
      rw [ht.code] at hc
      exact absurd hback (by rw [← (List.cons.inj hc).1]; simp [Instr.copiesBack])
  | polling => exact absurd hback (by rw [← (List.cons.inj hc).1]; simp [Instr.copiesBack])
  | copying hcopy job =>
      refine ⟨_, rfl, ?_⟩
      simp only [Device.Counts, job] at hcount
      exact Nat.le_of_eq hcount.symm

end LinuxDrivers.Card
