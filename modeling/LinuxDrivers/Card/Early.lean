import LinuxDrivers.Card.Driver
import LinuxDrivers.Card.Routine

/-!
# Is the operation over when its result is copied back?

`Script.lean` runs a routine with the card making progress only where the driver
waits. Here the same statements are interleaved with everything that can happen
between them: the card ticks, an interrupt in flight is delivered, a signal ends
the sleep. The lock serialises requests, so one request is in progress at a time;
after it has returned the card may still tick and interrupts may still arrive.

The operation a request triggers is known by its number, `mine`. The card numbers
the operations it accepts and completes them in order, so operation `n` is over
once `n ≤ finished`.

The return value of `wait_event_interruptible` is ignored by the driver: after a
signal it clears the flag and copies back whatever the data area holds. Signals
apart nothing goes wrong, in any order of the steps: `Phase.exec`, `Phase.tick` and
`Phase.irq` follow one request from phase to phase, and in none of them can a flag,
an interrupt or an operation of an earlier request still be around.
-/

namespace LinuxDrivers.Card

variable (E : Cipher)

/-! ## The step system -/

/-- The card, and a request in the middle of its statements. -/
structure Conc where
  f : Frame
  /-- What the request has still to execute; empty between requests. -/
  code : List Instr
  /-- The number of the operation the request has triggered. -/
  mine : Option Nat

inductive Label where
  /-- An unmapped request enters: it has the lock, and its buffer holds `data`. -/
  | call (decrypt : Bool) (cfg : CryptocardConfig) (env : Env) (length : UInt64)
      (data : List UInt8)
  /-- The request executes its next statement; an operation it triggers takes `lat`. -/
  | exec (lat : Nat)
  /-- A signal ends the sleep. -/
  | signal
  | tick
  /-- An interrupt in flight is delivered. -/
  | irq

/-- The statement does not let the driver past. -/
def Instr.blocked (m : Machine) : Instr → Bool
  | .whileBusy off => Card.ioread32 m.card off &&& 1 ≠ 0
  | .waitEventInterruptible => m.wqFlag = 0
  | _ => false

def Conc.step (c : Conc) : Label → Option Conc
  | .call decrypt cfg env length data =>
    match c.code with
    | [] =>
      some
        { f := ⟨c.f.m, data⟩
          code := .iowrite32 (cfg.a.toUInt32 <<< 8 ||| cfg.b.toUInt32) keyOff
            :: (routines decrypt).unmapped cfg env length
          mine := none }
    | _ :: _ => none
  | .exec lat =>
    match c.code with
    | [] => none
    | i :: is =>
      if i.blocked c.f.m then none
      else
        let f := i.effect lat c.f
        -- the card has accepted an operation
        let mine :=
          if f.m.card.started = c.f.m.card.started then c.mine else some f.m.card.started
        some ⟨f, is, mine⟩
  | .signal =>
    match c.code with
    | .waitEventInterruptible :: is => some { c with code := is }
    | _ => none
  | .tick =>
    if c.f.m.card.job.isSome then some { c with f := { c.f with m := c.f.m.tick E } } else none
  | .irq =>
    if c.f.m.card.irqs = 0 then none
    else some { c with f := { c.f with m := cryptocardIrqHandle c.f.m } }

/-- The statements that copy the result to the caller's buffer. -/
def Instr.copiesBack : Instr → Bool
  | .memcpyFromio .. | .memcpyFromDma .. => true
  | _ => false

/-- The operation of the request in progress is over. -/
def Conc.Finished (c : Conc) : Prop := ∃ n, c.mine = some n ∧ n ≤ c.f.m.card.finished

/-- No result is copied back, and no wait is satisfied, before the request's own operation is
over. -/
structure Conc.NotEarly (c : Conc) : Prop where
  copies : ∀ i is, c.code = i :: is → i.copiesBack → c.Finished
  waits : ∀ is, c.code = .waitEventInterruptible :: is → c.f.m.wqFlag ≠ 0 → c.Finished

/-! ## The phases of a request -/

/-- Nothing in progress, and every operation accepted so far is over. -/
structure Machine.AtRest (m : Machine) : Prop extends m.Quiet where
  finished : m.card.finished = m.card.started

/-- The statements a routine begins with: they start nothing and wait for nothing of their own. -/
def Instr.setsUp : Instr → Bool
  | .iowrite32 _ off => off ≠ mmaddrOff && off ≠ dmaCmdOff
  | .ioread32 _ | .whileBusy _ | .memcpyToio .. | .memcpyToDma .. => true
  | _ => false

/-- Writing `v` at `off` makes the card accept an operation with interrupt bit `intr`. -/
structure Triggers (c : Device) (v : UInt32) (off lat : Nat) (intr : Bool) : Prop where
  job : ∃ j, (iowrite32 lat c v off).job = some j ∧ j.intr = intr
  started : (iowrite32 lat c v off).started = c.started + 1
  finished : (iowrite32 lat c v off).finished = c.finished

/-- How a routine ends once it has triggered: the wait that suits the interrupt bit, and the
copy. -/
inductive Ending : Bool → List Instr → Prop where
  | sleep {copy : Instr} (h : copy.copiesBack) :
      Ending true [.waitEventInterruptible, .clearWqFlag, copy]
  | poll {off : Nat} {copy : Instr} (hoff : off = mmstatusOff ∨ off = dmaCmdOff)
      (h : copy.copiesBack) : Ending false [.whileBusy off, copy]

/-- The frame `f` is on the way to the trigger, with `code` still to execute. -/
inductive Loading : List Instr → Frame → Prop where
  | trigger {v : UInt32} {off : Nat} {intr : Bool} {is : List Instr} {f : Frame}
      (rest : f.m.AtRest) (trig : ∀ lat, Triggers f.m.card v off lat intr) (fin : Ending intr is) :
      Loading (.iowrite32 v off :: is) f
  | next {i : Instr} {is : List Instr} {f : Frame} (rest : f.m.AtRest) (hi : i.setsUp)
      (h : ∀ lat, Loading is (i.effect lat f)) : Loading (i :: is) f

/-- Where a request can be, and what the machine looks like there. -/
inductive Phase : Conc → Prop where
  | idle {f : Frame} {mine : Option Nat} (rest : f.m.AtRest) : Phase ⟨f, [], mine⟩
  | loading {f : Frame} {code : List Instr} {mine : Option Nat} (h : Loading code f) :
      Phase ⟨f, code, mine⟩
  /-- The card is busy with the request's operation. -/
  | running {f : Frame} {code : List Instr} {intr : Bool} (fin : Ending intr code)
      (job : ∃ j, f.m.card.job = some j ∧ j.intr = intr) (irqs : f.m.card.irqs = 0)
      (flag : f.m.wqFlag = 0) (last : f.m.card.finished + 1 = f.m.card.started) :
      Phase ⟨f, code, some f.m.card.started⟩
  /-- The operation is over and its interrupt is in flight. -/
  | raised {f : Frame} {code : List Instr} (fin : Ending true code) (job : f.m.card.job = none)
      (irqs : f.m.card.irqs = 1) (flag : f.m.wqFlag = 0)
      (last : f.m.card.finished = f.m.card.started) : Phase ⟨f, code, some f.m.card.started⟩
  /-- The interrupt has been handled. -/
  | flagged {f : Frame} {code : List Instr} (fin : Ending true code) (job : f.m.card.job = none)
      (irqs : f.m.card.irqs = 0) (last : f.m.card.finished = f.m.card.started) :
      Phase ⟨f, code, some f.m.card.started⟩
  /-- The sleep is over and the flag still up. -/
  | awake {f : Frame} {copy : Instr} (hc : copy.copiesBack) (job : f.m.card.job = none)
      (irqs : f.m.card.irqs = 0) (last : f.m.card.finished = f.m.card.started) :
      Phase ⟨f, [.clearWqFlag, copy], some f.m.card.started⟩
  /-- The operation was polled for, and is over. -/
  | polled {f : Frame} {code : List Instr} (fin : Ending false code) (rest : f.m.AtRest) :
      Phase ⟨f, code, some f.m.card.started⟩
  | copying {f : Frame} {copy : Instr} (hc : copy.copiesBack) (rest : f.m.AtRest) :
      Phase ⟨f, [copy], some f.m.card.started⟩

theorem copiesBack_of_setsUp {i : Instr} (h : i.setsUp) : i.copiesBack = false := by
  cases i <;> first | rfl | exact nomatch h

theorem ne_wait_of_setsUp {i : Instr} (h : i.setsUp) : i ≠ .waitEventInterruptible := by
  rintro rfl
  exact nomatch h

/-- In no phase is the request ahead of its operation. -/
theorem Phase.notEarly {c : Conc} (h : Phase c) : c.NotEarly := by
  have hmine : ∀ {f : Frame} {code : List Instr}, f.m.card.finished = f.m.card.started →
      (Conc.mk f code (some f.m.card.started)).NotEarly := by
    intro f code hlast
    have hfin : (Conc.mk f code (some f.m.card.started)).Finished :=
      ⟨_, rfl, Nat.le_of_eq hlast.symm⟩
    exact ⟨fun _ _ _ _ => hfin, fun _ _ _ => hfin⟩
  cases h with
  | idle rest => exact ⟨by simp, by simp⟩
  | loading h =>
      cases h with
      | trigger rest trig fin => exact ⟨by simp [Instr.copiesBack], by simp⟩
      | @next i is f rest hi h =>
          exact ⟨by simp [copiesBack_of_setsUp hi], by simp [ne_wait_of_setsUp hi]⟩
  | running fin job irqs flag last =>
      -- the flag is down, and the copy is not next
      cases fin with
      | sleep hc => exact ⟨by simp [Instr.copiesBack], by simp [flag]⟩
      | poll hoff hc => exact ⟨by simp [Instr.copiesBack], by simp⟩
  | raised fin job irqs flag last => exact hmine last
  | flagged fin job irqs last => exact hmine last
  | awake hc job irqs last => exact hmine last
  | polled fin rest => exact hmine rest.finished
  | copying hc rest => exact hmine rest.finished

/-! ## A request starts loading -/

theorem effect_atRest {i : Instr} (hi : i.setsUp) (lat : Nat) {f : Frame} (h : f.m.AtRest) :
    (i.effect lat f).m.AtRest := by
  cases i with
  | iowrite32 v off =>
      have hoff : off ≠ mmaddrOff ∧ off ≠ dmaCmdOff := by simpa [Instr.setsUp] using hi
      have hw : ∀ c, (iowrite32 lat c v off).job = c.job ∧ (iowrite32 lat c v off).irqs = c.irqs
          ∧ (iowrite32 lat c v off).finished = c.finished
          ∧ (iowrite32 lat c v off).started = c.started := by
        intro c
        unfold iowrite32
        rw [if_neg hoff.1, if_neg hoff.2]
        repeat' split
        all_goals exact ⟨rfl, rfl, rfl, rfl⟩
      obtain ⟨h1, h2, h3, h4⟩ := hw f.m.card
      exact ⟨⟨h1.trans h.job, h2.trans h.irqs, h.flag⟩, h3.trans (h.finished.trans h4.symm)⟩
  | ioread32 off => exact h
  | whileBusy off => exact h
  | memcpyToio off len => exact ⟨⟨h.job, h.irqs, h.flag⟩, h.finished⟩
  | memcpyToDma handle len => exact ⟨⟨h.job, h.irqs, h.flag⟩, h.finished⟩
  | memcpyFromio off len => exact nomatch hi
  | memcpyFromDma handle len => exact nomatch hi
  | waitEventInterruptible => exact nomatch hi
  | clearWqFlag => exact nomatch hi

/-- One more statement before the trigger. -/
theorem Loading.step {i : Instr} {is : List Instr} {f : Frame} (hi : i.setsUp) (rest : f.m.AtRest)
    (h : ∀ lat, (i.effect lat f).m.AtRest → Loading is (i.effect lat f)) : Loading (i :: is) f :=
  .next rest hi fun lat => h lat (effect_atRest hi lat rest)

theorem triggers_mm {c : Device} (hj : c.job = none) (v : UInt32) (lat : Nat) :
    Triggers c v mmaddrOff lat (c.mmStatus &&& 0x80 ≠ 0) := by
  have hw : iowrite32 lat c v mmaddrOff
      = { c with job := some (c.mmJob lat v), started := c.started + 1 } := by
    show c.trigger (c.mmJob lat v) = _
    simp [Device.trigger, hj]
  exact ⟨⟨_, by rw [hw], rfl⟩, by rw [hw], by rw [hw]⟩

theorem triggers_dma {c : Device} (hj : c.job = none) {v : UInt32} (hv : v &&& 1 ≠ 0) (lat : Nat) :
    Triggers c v dmaCmdOff lat (v &&& 4 ≠ 0) := by
  let c₀ : Device := { c with dmaCmd := v }
  have hw : iowrite32 lat c v dmaCmdOff
      = { c₀ with job := some (c₀.dmaJob lat v), started := c.started + 1 } := by
    show (if v &&& 1 ≠ 0 then c₀.trigger (c₀.dmaJob lat v) else c₀) = _
    rw [if_pos hv]
    simp [Device.trigger, c₀, hj]
  exact ⟨⟨_, by rw [hw], rfl⟩, by rw [hw], by rw [hw]⟩

/-- An MMIO routine whose status word has been written is about to trigger. -/
theorem loading_mm (status : UInt32) {intr : Bool} (hintr : decide (status &&& 0x80 ≠ 0) = intr)
    {is : List Instr} (fin : Ending intr is) {f : Frame} (rest : f.m.AtRest)
    (hst : f.m.card.mmStatus = status) : Loading (.iowrite32 0xa8 mmaddrOff :: is) f := by
  subst hst hintr
  exact .trigger rest (triggers_mm rest.job 0xa8) fin

theorem loading_mmioInterrupt (status : UInt32) (hst : decide (status &&& 0x80 ≠ 0) = true)
    (length : UInt64) {f : Frame} (rest : f.m.AtRest) : Loading (mmioInterrupt status length) f :=
  .step rfl rest fun _ rest => .step rfl rest fun _ rest => .step rfl rest fun _ rest =>
    .step rfl rest fun _ rest => .step rfl rest fun _ rest => loading_mm _ hst (.sleep rfl) rest rfl

theorem loading_mmioPoll (decrypt : Bool) (length : UInt64) {f : Frame} (rest : f.m.AtRest) :
    Loading ((routines decrypt).mmioPoll length) f := by
  have fin : Ending false
      [.whileBusy mmstatusOff, .memcpyFromio dataOff length.toUInt32.toNat] :=
    .poll (Or.inl rfl) rfl
  cases decrypt with
  | false =>
      exact .step rfl rest fun _ rest => .step rfl rest fun _ rest => .step rfl rest fun _ rest =>
        .step rfl rest fun _ rest => .step rfl rest fun _ rest =>
          loading_mm 0x0 (by decide) fin rest rfl
  | true =>
      exact .step rfl rest fun _ rest => .step rfl rest fun _ rest => .step rfl rest fun _ rest =>
        .step rfl rest fun _ rest => .step rfl rest fun _ rest =>
          loading_mm 0x2 (by decide) fin rest rfl

theorem loading_dma (cmd : UInt32) (hcmd : cmd &&& 1 ≠ 0) {intr : Bool}
    (hintr : decide (cmd &&& 4 ≠ 0) = intr) {is : List Instr} (fin : Ending intr is)
    (handle : Nat) (length : UInt64) {f : Frame} (rest : f.m.AtRest) :
    Loading (.memcpyToDma handle length.toUInt32.toNat
      :: .iowrite32 length.toUInt32 dmaDataLenOff
      :: .iowrite32 (UInt32.ofNat handle) dmaAddrOff
      :: .whileBusy dmaCmdOff
      :: .iowrite32 cmd dmaCmdOff :: is) f := by
  subst hintr
  exact .step rfl rest fun _ rest => .step rfl rest fun _ rest => .step rfl rest fun _ rest =>
    .step rfl rest fun _ rest => .trigger rest (triggers_dma rest.job hcmd) fin

/-- Every unmapped request that finds the machine at rest starts out loading. -/
theorem loading_request (decrypt : Bool) (cfg : CryptocardConfig) (env : Env) (length : UInt64)
    {f : Frame} (rest : f.m.AtRest) :
    Loading (.iowrite32 (cfg.a.toUInt32 <<< 8 ||| cfg.b.toUInt32) keyOff
      :: (routines decrypt).unmapped cfg env length) f := by
  refine .step rfl rest fun _ rest => ?_
  unfold Routines.unmapped
  split
  · split
    · exact loading_mmioPoll decrypt length rest
    · cases decrypt with
      | false => exact loading_mmioInterrupt 0x80 (by decide) length rest
      | true => exact loading_mmioInterrupt 0x82 (by decide) length rest
  · split
    · cases decrypt with
      | false =>
          exact loading_dma 0x1 (by decide) (by decide) (.poll (Or.inr rfl) rfl) _ _ rest
      | true =>
          exact loading_dma (0x1 ||| 0x2) (by decide) (by decide) (.poll (Or.inr rfl) rfl)
            _ _ rest
    · cases decrypt with
      | false =>
          exact loading_dma (0x1 ||| 0x4) (by decide) (by decide) (.sleep rfl) _ _ rest
      | true =>
          exact loading_dma (0x1 ||| 0x2 ||| 0x4) (by decide) (by decide) (.sleep rfl) _ _ rest

/-! ## Every step but a signal leads from phase to phase -/

theorem Phase.call {c c' : Conc} (h : Phase c) {decrypt : Bool} {cfg : CryptocardConfig}
    {env : Env} {length : UInt64} {data : List UInt8}
    (hs : c.step E (.call decrypt cfg env length data) = some c') : Phase c' := by
  have hrest : c.code = [] → c.f.m.AtRest := by
    intro hnil
    cases h with
    | idle rest => exact rest
    | loading h => cases h <;> exact absurd hnil (by simp)
    | running fin => cases fin <;> exact absurd hnil (by simp)
    | raised fin => cases fin; exact absurd hnil (by simp)
    | flagged fin => cases fin; exact absurd hnil (by simp)
    | awake hc => exact absurd hnil (by simp)
    | polled fin rest => exact rest
    | copying hc rest => exact rest
  simp only [Conc.step] at hs
  split at hs
  · rename_i hnil
    cases hs
    exact .loading (loading_request decrypt cfg env length (f := ⟨c.f.m, data⟩) (hrest hnil))
  · exact absurd hs (by simp)

theorem exec_cons {f : Frame} {i : Instr} {is : List Instr} {mine : Option Nat} {lat : Nat}
    {c' : Conc} (hs : Conc.step E ⟨f, i :: is, mine⟩ (.exec lat) = some c') :
    i.blocked f.m = false ∧ c' = ⟨i.effect lat f, is,
      if (i.effect lat f).m.card.started = f.m.card.started then mine
      else some (i.effect lat f).m.card.started⟩ := by
  simp only [Conc.step] at hs
  split at hs
  · exact absurd hs (by simp)
  · rename_i hb
    exact ⟨by simpa using hb, (Option.some.inj hs).symm⟩

theorem effect_copiesBack {i : Instr} (hc : i.copiesBack) (lat : Nat) (f : Frame) :
    (i.effect lat f).m = f.m := by
  cases i <;> first | rfl | exact nomatch hc

theorem Phase.exec {c c' : Conc} (h : Phase c) {lat : Nat}
    (hs : c.step E (.exec lat) = some c') : Phase c' := by
  cases h with
  | idle rest => exact absurd hs (by simp [Conc.step])
  | loading h =>
      cases h with
      | trigger rest trig fin =>
          obtain ⟨-, rfl⟩ := exec_cons E hs
          have hstarted := (trig lat).started
          rw [if_neg (by show ¬(iowrite32 lat _ _ _).started = _; omega)]
          refine .running fin (trig lat).job ((iowrite32_irqs ..).trans rest.irqs) rest.flag ?_
          show (iowrite32 lat _ _ _).finished + 1 = (iowrite32 lat _ _ _).started
          rw [(trig lat).finished, hstarted, rest.finished]
      | next rest hi h =>
          obtain ⟨-, rfl⟩ := exec_cons E hs
          exact .loading (h lat)
  | running fin job irqs flag last =>
      -- the request waits for its operation
      obtain ⟨j, hj, -⟩ := job
      cases fin with
      | sleep hc =>
          have hb := (exec_cons E hs).1
          exact absurd flag (by simpa [Instr.blocked] using hb)
      | poll hoff hc =>
          have hb := (exec_cons E hs).1
          have hbusy := (busy_iff _ hoff).mpr (by rw [hj]; rfl)
          exact absurd hbusy (by simpa [Instr.blocked] using hb)
  | raised fin job irqs flag last =>
      cases fin with
      | sleep hc =>
          have hb := (exec_cons E hs).1
          exact absurd flag (by simpa [Instr.blocked] using hb)
  | flagged fin job irqs last =>
      cases fin with
      | sleep hc =>
          obtain ⟨-, rfl⟩ := exec_cons E hs
          rw [if_pos (by rfl)]
          exact .awake hc job irqs last
  | awake hc job irqs last =>
      obtain ⟨-, rfl⟩ := exec_cons E hs
      rw [if_pos (by rfl)]
      exact .copying (f := Instr.effect lat .clearWqFlag _) hc ⟨⟨job, irqs, rfl⟩, last⟩
  | polled fin rest =>
      cases fin with
      | poll hoff hc =>
          obtain ⟨-, rfl⟩ := exec_cons E hs
          rw [if_pos (by rfl)]
          exact .copying hc rest
  | copying hc rest =>
      obtain ⟨-, rfl⟩ := exec_cons E hs
      exact .idle (by rw [effect_copiesBack hc]; exact rest)

theorem Phase.tick {c c' : Conc} (h : Phase c) (hs : c.step E .tick = some c') : Phase c' := by
  simp only [Conc.step] at hs
  split at hs
  · rename_i hjob
    cases hs
    have hbusy : ∀ {m : Machine}, m.card.job.isSome → m.card.job ≠ none := by
      intro m hm h0
      rw [h0] at hm
      exact absurd hm (by simp)
    cases h with
    | idle rest => exact absurd rest.job (hbusy hjob)
    | loading h => cases h with
      | trigger rest trig fin => exact absurd rest.job (hbusy hjob)
      | next rest hi h => exact absurd rest.job (hbusy hjob)
    | @running f code intr fin job irqs flag last =>
        obtain ⟨j, hj, hintr⟩ := job
        by_cases ht : j.ticks = 0
        · have htick : f.m.tick E = f.m.complete E := by simp [Machine.tick, hj, ht]
          obtain ⟨data, hc⟩ := complete_card E hj
          have hflag := (complete_wqFlag E f.m).trans flag
          have hdone : (f.m.complete E).card.job = none := by rw [hc]; rfl
          have hlast : (f.m.complete E).card.finished = (f.m.complete E).card.started := by
            rw [hc]
            exact last
          have hstarted : f.m.card.started = (f.m.complete E).card.started := by rw [hc]; rfl
          have hirqs : (f.m.complete E).card.irqs = if j.intr then 1 else 0 := by
            rw [hc]
            simp [Device.retire, irqs]
          simp only [htick]
          rw [hstarted]
          subst hintr
          cases hi : j.intr with
          | true =>
              rw [hi] at fin hirqs
              exact .raised (f := { f with m := f.m.complete E }) fin hdone hirqs hflag hlast
          | false =>
              rw [hi] at fin hirqs
              exact .polled (f := { f with m := f.m.complete E }) fin
                ⟨⟨hdone, hirqs, hflag⟩, hlast⟩
        · have htick : f.m.tick E = { f.m with
              card := { f.m.card with job := some { j with ticks := j.ticks - 1 } } } := by
            simp [Machine.tick, hj, ht]
          simp only [htick]
          exact .running (f := { f with m := { f.m with
            card := { f.m.card with job := some { j with ticks := j.ticks - 1 } } } })
            fin ⟨_, rfl, hintr⟩ irqs flag last
    | raised fin job => exact absurd job (hbusy hjob)
    | flagged fin job => exact absurd job (hbusy hjob)
    | awake hc job => exact absurd job (hbusy hjob)
    | polled fin rest => exact absurd rest.job (hbusy hjob)
    | copying hc rest => exact absurd rest.job (hbusy hjob)
  · exact absurd hs (by simp)

theorem Phase.irq {c c' : Conc} (h : Phase c) (hs : c.step E .irq = some c') : Phase c' := by
  simp only [Conc.step] at hs
  split at hs
  · exact absurd hs (by simp)
  · rename_i hirq
    cases hs
    cases h with
    | idle rest => exact absurd rest.irqs hirq
    | loading h => cases h with
      | trigger rest trig fin => exact absurd rest.irqs hirq
      | next rest hi h => exact absurd rest.irqs hirq
    | running fin job irqs => exact absurd irqs hirq
    | @raised f code fin job irqs flag last =>
        refine .flagged (f := { f with m := cryptocardIrqHandle f.m }) fin job ?_ last
        show f.m.card.irqs - 1 = 0
        omega
    | flagged fin job irqs => exact absurd irqs hirq
    | awake hc job irqs => exact absurd irqs hirq
    | polled fin rest => exact absurd rest.irqs hirq
    | copying hc rest => exact absurd rest.irqs hirq

/-- The phases are an invariant of every step but the signal. -/
theorem phase_step {c c' : Conc} {l : Label} (h : Phase c) (hl : l ≠ .signal)
    (hs : c.step E l = some c') : Phase c' := by
  cases l with
  | call decrypt cfg env length data => exact h.call E hs
  | exec lat => exact h.exec E hs
  | signal => exact absurd rfl hl
  | tick => exact h.tick E hs
  | irq => exact h.irq E hs

/-- No request in progress. -/
def Conc.start (m : Machine) : Conc := ⟨⟨m, []⟩, [], none⟩

/--
**No early completion without signals.**

From a card at rest, along every run in which no wait is ended by a signal and in
whatever order the other steps come, no result is copied back and no wait is
satisfied before the request's own operation is over.
-/
theorem not_early {m₀ : Machine} (h₀ : m₀.AtRest) (ls : List Label) (hls : ∀ l ∈ ls, l ≠ .signal)
    {c : Conc} (hrun : runs (Conc.step E) (Conc.start m₀) ls = some c) : c.NotEarly := by
  refine Phase.notEarly (runs_inv (P := Phase) (.idle h₀) ?_ ls (along_of_forall hls) c hrun)
  intro _ t l t' _ hP hok hs
  exact phase_step E hP hok hs

theorem Sys.probed_atRest (user : Nat → Mem UInt8) : (Sys.probed user).m.AtRest :=
  ⟨⟨rfl, rfl, rfl⟩, rfl⟩

/-- A request in interrupt mode, up to and including the trigger. -/
def triggered : List Label :=
  [.call false ⟨30, 17, 0, 1, 1, 1⟩ Env.calm 5 [72, 69, 76, 76, 79], .exec 9, .exec 9, .exec 9,
    .exec 9, .exec 9, .exec 9, .exec 9]

/-- One request taken to its copy: the card completes, the interrupt arrives, the driver wakes. -/
theorem not_early_one_request :
    ∃ c, runs (Conc.step genCipher) (Conc.start (Sys.probed fun _ _ => 65).m)
        (triggered ++ List.replicate 10 .tick ++ [.irq, .exec 0, .exec 0]) = some c
      ∧ c.code = [.memcpyFromio dataOff 5] ∧ c.NotEarly :=
  ⟨_, rfl, rfl, not_early genCipher (Sys.probed_atRest fun _ _ => 65)
    (triggered ++ List.replicate 10 .tick ++ [.irq, .exec 0, .exec 0]) (by simp [triggered]) rfl⟩

/--
A signal ends the wait while the card is busy: the data area is copied back with
the operation still in progress. When that operation completes after the request
has returned, its interrupt leaves the flag up for the wait of the next request.
-/
theorem early_after_signal :
    (∃ c, runs (Conc.step genCipher) (Conc.start (Sys.probed fun _ _ => 65).m)
        (triggered ++ [.signal, .exec 0]) = some c ∧ ¬c.NotEarly)
      ∧ ∃ c, runs (Conc.step genCipher) (Conc.start (Sys.probed fun _ _ => 65).m)
        (triggered ++ [.signal, .exec 0, .exec 0] ++ List.replicate 10 .tick ++ [.irq]
          ++ triggered) = some c ∧ c.f.m.wqFlag = 1 ∧ ¬c.NotEarly := by
  refine ⟨⟨_, rfl, fun h => ?_⟩, ⟨_, rfl, rfl, fun h => ?_⟩⟩
  · obtain ⟨n, hn, hle⟩ := h.copies _ _ rfl rfl
    cases hn
    exact absurd hle (by decide)
  · obtain ⟨n, hn, hle⟩ := h.waits _ rfl (by decide)
    cases hn
    exact absurd hle (by decide)

/-! ## The undisturbed execution is one of the runs -/

/-- `c'` is reached from `c` by steps that are no signals. -/
def Reaches (c c' : Conc) : Prop :=
  ∃ ls, (∀ l ∈ ls, l ≠ .signal) ∧ runs (Conc.step E) c ls = some c'

theorem Reaches.refl (c : Conc) : Reaches E c c := ⟨[], by simp, rfl⟩

theorem Reaches.of_step {c c' : Conc} {l : Label} (hl : l ≠ .signal) (h : c.step E l = some c') :
    Reaches E c c' := ⟨[l], by simpa using hl, (runs_singleton ..).trans h⟩

theorem Reaches.trans {c c' c'' : Conc} (h : Reaches E c c') (h' : Reaches E c' c'') :
    Reaches E c c'' := by
  obtain ⟨ls, hls, hrun⟩ := h
  obtain ⟨ls', hls', hrun'⟩ := h'
  refine ⟨ls ++ ls', ?_, by rw [runs_append, hrun]; exact hrun'⟩
  intro l hl
  rcases List.mem_append.mp hl with hl | hl
  · exact hls l hl
  · exact hls' l hl

theorem reaches_elapse {f : Frame} (hi : f.m.card.irqs = 0) (code : List Instr)
    (mine : Option Nat) :
    Reaches E ⟨f, code, mine⟩ ⟨{ f with m := f.m.elapse E }, code, mine⟩ := by
  cases hj : f.m.card.job with
  | none =>
      have h : f.m.elapse E = f.m := by simp [Machine.elapse, Machine.tick, hj, hi]
      rw [h]
      exact .refl E _
  | some j =>
      have htick : Reaches E ⟨f, code, mine⟩ ⟨{ f with m := f.m.tick E }, code, mine⟩ :=
        .of_step E (l := .tick) (by simp) (if_pos (by simp [hj]))
      unfold Machine.elapse
      dsimp only
      split
      · exact htick
      · rename_i hirq
        exact htick.trans E (.of_step E (l := .irq) (by simp) (if_neg hirq))

theorem reaches_iterate_elapse {f : Frame} (hi : f.m.card.irqs = 0) (code : List Instr)
    (mine : Option Nat) (n : Nat) :
    Reaches E ⟨f, code, mine⟩ ⟨{ f with m := (Machine.elapse E)^[n] f.m }, code, mine⟩ := by
  induction n with
  | zero => exact .refl E _
  | succ n ih =>
      rw [Function.iterate_succ_apply']
      exact ih.trans E (reaches_elapse E (f := { f with m := (Machine.elapse E)^[n] f.m })
        (iterate_elapse_irqs E hi n) code mine)

theorem reaches_spin (off fuel : Nat) {f : Frame} (hi : f.m.card.irqs = 0) (code : List Instr)
    (mine : Option Nat) :
    Reaches E ⟨f, code, mine⟩ ⟨{ f with m := spin E off fuel f.m }, code, mine⟩ := by
  obtain ⟨n, hn⟩ := spin_elapses E off fuel f.m
  rw [hn]
  exact reaches_iterate_elapse E hi code mine n

theorem reaches_waitEvent {fuel : Nat} {f : Frame} {m' : Machine} (hi : f.m.card.irqs = 0)
    (h : waitEvent E none fuel f.m = some m') (is : List Instr) (mine : Option Nat) :
    Reaches E ⟨f, .waitEventInterruptible :: is, mine⟩ ⟨{ f with m := m' }, is, mine⟩ := by
  obtain ⟨n, rfl, hwoken⟩ := waitEvent_elapses E h
  have hflag := hwoken.resolve_right (by simp)
  -- it sleeps until the flag is up, and then gets past the wait
  refine (reaches_iterate_elapse E hi _ mine n).trans E ?_
  exact .of_step E (l := .exec 0) (by simp)
    (by simp [Conc.step, Instr.blocked, Instr.effect, hflag])

/-- **What `Script.lean` executes is a run of the step system**, when no signal interferes. -/
theorem runAll_reaches {env : Env} (hsig : env.signal = none) : ∀ (is : List Instr),
    (∀ off, .whileBusy off ∈ is → off = mmstatusOff ∨ off = dmaCmdOff) →
    ∀ (f f' : Frame) (mine : Option Nat), f.m.card.irqs = 0 → runAll E env is f = some f' →
    ∃ mine', Reaches E ⟨f, is, mine⟩ ⟨f', [], mine'⟩ := by
  intro is
  induction is with
  | nil => intro _ f f' mine _ h; cases h; exact ⟨mine, .refl E _⟩
  | cons i is ih =>
      intro hoffs f f' mine hi h
      obtain ⟨f₁, hrun, hrest⟩ := Option.bind_eq_some_iff.mp h
      have hone : ∃ mine₁, Reaches E ⟨f, i :: is, mine⟩ ⟨f₁, is, mine₁⟩ := by
        by_cases hwait : i = .waitEventInterruptible
        · subst hwait
          rw [Instr.run, hsig] at hrun
          obtain ⟨m', hm', rfl⟩ := Option.map_eq_some_iff.mp hrun
          exact ⟨mine, reaches_waitEvent E hi hm' is mine⟩
        by_cases hbusy : ∃ off, i = .whileBusy off
        · obtain ⟨off, rfl⟩ := hbusy
          have hoff := hoffs off (List.mem_cons_self ..)
          rw [Instr.run] at hrun
          cases hrun
          have hdone : (spin E off f.m.ticksLeft f.m).card.job = none := by
            rw [spin_eq E hoff hi]
            exact settle_job E f.m
          have hfree : ¬(ioread32 (spin E off f.m.ticksLeft f.m).card off &&& 1 ≠ 0) := by
            rw [busy_iff _ hoff, hdone]
            simp
          refine ⟨mine, (reaches_spin E off f.m.ticksLeft hi _ mine).trans E ?_⟩
          refine .of_step E (l := .exec 0) (by simp) ?_
          simp only [ne_eq, not_not] at hfree
          simp [Conc.step, Instr.blocked, Instr.effect, hfree]
        · have hplain : i.run E env f = some (i.effect env.latency f) ∧ i.blocked f.m = false := by
            cases i with
            | whileBusy off => exact absurd ⟨off, rfl⟩ hbusy
            | waitEventInterruptible => exact absurd rfl hwait
            | _ => exact ⟨rfl, rfl⟩
          rw [hplain.1] at hrun
          cases hrun
          exact ⟨_, .of_step E (l := .exec env.latency) (by simp)
            (if_neg (by simp [hplain.2]))⟩
      obtain ⟨mine₁, hone⟩ := hone
      obtain ⟨mine', hrest'⟩ := ih (fun off ho => hoffs off (List.mem_cons_of_mem _ ho)) f₁ f' mine₁
        (run_irqs E hi hrun) hrest
      exact ⟨mine', hone.trans E hrest'⟩

end LinuxDrivers.Card
