import LinuxDrivers.Card.Sound

/-!
# Every call returns

Two halves. A step of a call, a tick and an interrupt each lower the rank of the
system, so without new calls there is an end to them: a register write is priced
with the ticks of the operation it may trigger and the interrupt at their end, and the
call of a routine with the statements it unfolds to. And as long as a call is in
progress, one of these steps is possible: the task with the lock can go on, or it
waits for an operation that still ticks or an interrupt still in flight.

Waiting for the lock is not a step here. A task that finds it taken is one that
the scheduler does not pick. The source has no such task: it spins on its CPU, and the
task with the lock sleeps with the lock held. So with a spinning task on every CPU the
one with the lock would never run again. That it gets a CPU is an assumption on the
scheduler, and `Par.Served` is where it enters.
-/

namespace LinuxDrivers.Card

variable {n : Nat} (E : Cipher)

/-- A step of a call in progress, of the card or of the interrupt controller. -/
def Move.Internal : Move n → Prop
  | .exec _ | .tick | .irq => True
  | _ => False

/-! ## The rank -/

/-- The price of a register write: the operation it may trigger, and its interrupt. -/
def writePrice (lat : Nat) : Nat := 2 * (lat + 1) + 1

def Instr.price (lat : Nat) : Instr → Nat
  | .iowrite32 .. => writePrice lat
  | _ => 1

/-- No routine has more than nine statements. -/
def Stmt.price (lat : Nat) : Stmt → Nat
  | .instr i => i.price lat
  | .transfer _ | .transferMapped _ => 9 * writePrice lat + 1
  | _ => 1

def Task.rank (t : Task) : Nat := (t.code.map (Stmt.price t.ev.env.latency)).sum

/-- A tick is worth two, because the last one may leave an interrupt behind. -/
def Machine.rank (m : Machine) : Nat := 2 * m.ticksLeft + m.card.irqs

def Par.rank (p : Par n) : Nat := p.sys.m.rank + ∑ t, (p.tasks t).rank

theorem price_le (lat : Nat) (i : Instr) : i.price lat ≤ writePrice lat := by
  cases i <;> simp [Instr.price, writePrice]

theorem routine_price_le (lat : Nat) {is : List Instr} (h : is.length ≤ 9) :
    ((is.map Stmt.instr).map (Stmt.price lat)).sum ≤ 9 * writePrice lat := by
  have hle : ∀ x ∈ (is.map Stmt.instr).map (Stmt.price lat), x ≤ writePrice lat := by
    intro x hx
    rw [List.map_map] at hx
    obtain ⟨i, -, rfl⟩ := List.mem_map.mp hx
    exact price_le lat i
  have hsum := List.sum_le_card_nsmul _ _ hle
  rw [List.length_map, List.length_map, smul_eq_mul] at hsum
  exact hsum.trans (Nat.mul_le_mul_right _ h)

theorem unmapped_length_le (decrypt : Bool) (cfg : CryptocardConfig) (env : Env) (length : UInt64) :
    ((routines decrypt).unmapped cfg env length).length ≤ 9 := by
  unfold Routines.unmapped
  cases decrypt <;> (split <;> split) <;>
    simp [routines, encryptRoutines, decryptRoutines, encryptionMmioPoll, encryptionMmioInterrupt,
      decryptionMmioPoll, decryptionMmioInterrupt, mmioInterrupt, encryptionDmaPoll,
      decryptionDmaPoll, dmaPoll, encryptionDmaInterrupt, decryptionDmaInterrupt, dmaInterrupt]

theorem mapped_length_le (decrypt : Bool) (cfg : CryptocardConfig) (length : UInt64) :
    ((routines decrypt).mapped cfg length).length ≤ 9 := by
  unfold Routines.mapped
  cases decrypt <;> split <;>
    simp [routines, encryptRoutines, decryptRoutines, encryptionMmapPolling, decryptionMmapPolling,
      mmapPolling, encryptionMmapInterrupt, decryptionMmapInterrupt, mmapInterrupt]

/-- The operation in progress is the one of `c`, or a new one that takes `lat`. -/
def Device.Continues (c : Device) (lat : Nat) (c' : Device) : Prop :=
  c'.job = c.job ∨ ∃ j, c'.job = some j ∧ j.ticks = lat

theorem trigger_continues {c c' : Device} (h : c'.job = c.job) (j : Job) :
    c.Continues j.ticks (c'.trigger j) := by
  unfold Device.trigger
  split
  · exact Or.inl h
  · exact Or.inr ⟨j, rfl, rfl⟩

theorem iowrite32_continues (lat : Nat) (c : Device) (v : UInt32) (off : Nat) :
    c.Continues lat (iowrite32 lat c v off) := by
  unfold iowrite32
  -- six registers only hold what is written to them
  iterate 6 refine iteInduction (motive := c.Continues lat) (fun _ => Or.inl rfl) fun _ => ?_
  refine iteInduction (motive := c.Continues lat) (fun _ => ?_) fun _ => ?_
  · exact trigger_continues rfl (c.mmJob lat v)
  refine iteInduction (motive := c.Continues lat) (fun _ => ?_) fun _ => Or.inl rfl
  refine iteInduction (motive := c.Continues lat) (fun _ => ?_) fun _ => Or.inl rfl
  exact trigger_continues rfl (Device.dmaJob { c with dmaCmd := v } lat v)

theorem iowrite32_rank (lat : Nat) (m : Machine) (v : UInt32) (off : Nat) :
    Machine.rank { m with card := iowrite32 lat m.card v off } ≤ m.rank + 2 * (lat + 1) := by
  have hirqs : (iowrite32 lat m.card v off).irqs = m.card.irqs := iowrite32_irqs ..
  unfold Machine.rank Machine.ticksLeft
  dsimp only
  rw [hirqs]
  rcases iowrite32_continues lat m.card v off with hj | ⟨j, hj, ht⟩
  · rw [hj]
    omega
  · rw [hj]
    dsimp only
    omega

theorem effect_rank (i : Instr) (lat : Nat) (f : Frame) :
    (i.effect lat f).m.rank + 1 ≤ f.m.rank + i.price lat := by
  cases i with
  | iowrite32 v off =>
      have h := iowrite32_rank lat f.m v off
      simp only [Instr.effect, Instr.price, writePrice]
      omega
  | _ => exact Nat.le_refl _

/-- Every statement lowers the rank. -/
theorem exec_rank {t t' : Task} {s s' : Sys} (h : ExecCase t s t' s') :
    t'.rank + s'.m.rank < t.rank + s.m.rank := by
  -- a statement of price one that leaves the machine alone
  have hone : ∀ {st : Stmt} {code : List Stmt}, t.code = st :: code →
      st.price t.ev.env.latency = 1 →
      (code.map (Stmt.price t.ev.env.latency)).sum < t.rank := by
    intro st code hc hst
    unfold Task.rank
    rw [hc, List.map_cons, List.sum_cons, hst]
    omega
  have hcall : ∀ {st : Stmt} {code : List Stmt} {is : List Instr}, t.code = st :: code →
      st.price t.ev.env.latency = 9 * writePrice t.ev.env.latency + 1 → is.length ≤ 9 →
      ((is.map Stmt.instr ++ code).map (Stmt.price t.ev.env.latency)).sum < t.rank := by
    intro st code is hc hst hlen
    have hle := routine_price_le t.ev.env.latency hlen
    unfold Task.rank
    rw [hc, List.map_cons, List.sum_cons, hst, List.map_append, List.sum_append]
    omega
  cases h with
  | store hc hf => exact Nat.add_lt_add_right (hone hc rfl) _
  | load hc hf => exact Nat.add_lt_add_right (hone hc rfl) _
  | lock hc hfree => exact Nat.add_lt_add_right (hone hc rfl) _
  | writeKey hc => exact Nat.add_lt_add_right (hone hc rfl) _
  | copyIn hc => exact Nat.add_lt_add_right (hone hc rfl) _
  | transfer hc =>
      exact Nat.add_lt_add_right (hcall hc rfl (unmapped_length_le ..)) _
  | transferMapped hc => exact Nat.add_lt_add_right (hcall hc rfl (mapped_length_le ..)) _
  | @instr i code hc hgo =>
      have he := effect_rank i t.ev.env.latency ⟨s.m, t.buff⟩
      have ht : t.rank = i.price t.ev.env.latency
          + (code.map (Stmt.price t.ev.env.latency)).sum := by
        unfold Task.rank
        rw [hc]
        rfl
      show (code.map (Stmt.price t.ev.env.latency)).sum + _ < _
      dsimp only at he ⊢
      omega
  | copyOut hc hall => exact Nat.add_lt_add_right (hone hc rfl) _
  | @fault code hc hsome =>
      have h0 := hone hc rfl
      refine Nat.add_lt_add_right (Nat.lt_of_le_of_lt ?_ h0) _
      exact Nat.zero_le _
  | unlock hc => exact Nat.add_lt_add_right (hone hc rfl) _

theorem rank_update (p : Par n) (t : Fin n) (t' : Task) (s' : Sys) :
    (p.update t t' s').rank + (p.tasks t).rank + p.sys.m.rank = p.rank + t'.rank + s'.m.rank := by
  -- the other tasks contribute the same
  have hrest : ∀ p : Par n, ∑ i, (p.tasks i).rank
      = (p.tasks t).rank + ∑ i ∈ Finset.univ.erase t, (p.tasks i).rank :=
    fun p => (Finset.add_sum_erase _ _ (Finset.mem_univ t)).symm
  have hsame : ∑ i ∈ Finset.univ.erase t, ((p.update t t' s').tasks i).rank
      = ∑ i ∈ Finset.univ.erase t, (p.tasks i).rank := by
    refine Finset.sum_congr rfl fun i hi => ?_
    rw [Pool.update_tasks_ne p (Finset.ne_of_mem_erase hi)]
  unfold Par.rank
  rw [hrest p, hrest (p.update t t' s'), hsame, Pool.update_tasks_self, Pool.update_sys]
  omega

theorem tick_rank {m : Machine} (hjob : m.card.job.isSome) : (m.tick E).rank < m.rank := by
  obtain ⟨j, hj⟩ := Option.isSome_iff_exists.mp hjob
  by_cases ht : j.ticks = 0
  · obtain ⟨data, hc⟩ := complete_card E hj
    have htick : m.tick E = m.complete E := by simp [Machine.tick, hj, ht]
    have hirqs : (m.complete E).card.irqs ≤ m.card.irqs + 1 := by
      rw [hc]
      dsimp only [Device.retire]
      split <;> omega
    have hdone : (m.complete E).card.job = none := by rw [hc]; rfl
    rw [htick]
    unfold Machine.rank Machine.ticksLeft
    rw [hdone, hj]
    dsimp only
    omega
  · have htick : m.tick E = { m with
        card := { m.card with job := some { j with ticks := j.ticks - 1 } } } := by
      simp [Machine.tick, hj, ht]
    rw [htick]
    unfold Machine.rank Machine.ticksLeft
    rw [hj]
    dsimp only
    omega

/-- Every step that is not a new call lowers the rank. -/
theorem internal_rank {p p' : Par n} {l : Move n} (hl : l.Internal) (hs : p.step E l = some p') :
    p'.rank < p.rank := by
  cases move_cases hs with
  | fopen => exact absurd hl id
  | frelease => exact absurd hl id
  | ioctl => exact absurd hl id
  | signal => exact absurd hl id
  | @exec t t' s' hexec =>
      have hlt := exec_rank (exec_cases hexec)
      have hsum := rank_update p t t' s'
      omega
  | tick hjob => exact Nat.add_lt_add_right (tick_rank E hjob) _
  | irq hirq =>
      refine Nat.add_lt_add_right ?_ _
      show 2 * p.sys.m.ticksLeft + (p.sys.m.card.irqs - 1)
        < 2 * p.sys.m.ticksLeft + p.sys.m.card.irqs
      omega

/-! ## No deadlock -/

/-- The statements poll the two registers with a busy bit only. -/
def Polls (code : List Stmt) : Prop :=
  ∀ off, .instr (.whileBusy off) ∈ code → off = mmstatusOff ∨ off = dmaCmdOff

theorem polls_append_instrs {is : List Instr} {code : List Stmt}
    (his : ∀ off, .whileBusy off ∈ is → off = mmstatusOff ∨ off = dmaCmdOff) (h : Polls code) :
    Polls (is.map .instr ++ code) := by
  intro off hmem
  rcases List.mem_append.mp hmem with hm | hm
  · obtain ⟨i, hi, heq⟩ := List.mem_map.mp hm
    cases heq
    exact his off hi
  · exact h off hm

theorem unmapped_polls (decrypt : Bool) (cfg : CryptocardConfig) (env : Env) (length : UInt64)
    (off : Nat) (h : .whileBusy off ∈ (routines decrypt).unmapped cfg env length) :
    off = mmstatusOff ∨ off = dmaCmdOff := by
  unfold Routines.unmapped at h
  cases decrypt <;> (split at h <;> split at h) <;>
    simp [routines, encryptRoutines, decryptRoutines, encryptionMmioPoll, encryptionMmioInterrupt,
      decryptionMmioPoll, decryptionMmioInterrupt, mmioInterrupt, encryptionDmaPoll,
      decryptionDmaPoll, dmaPoll, encryptionDmaInterrupt, decryptionDmaInterrupt, dmaInterrupt] at h
  all_goals first | exact Or.inl h | exact Or.inr h

theorem mapped_polls (decrypt : Bool) (cfg : CryptocardConfig) (length : UInt64) (off : Nat)
    (h : .whileBusy off ∈ (routines decrypt).mapped cfg length) :
    off = mmstatusOff ∨ off = dmaCmdOff := by
  unfold Routines.mapped at h
  cases decrypt <;> split at h <;>
    simp [routines, encryptRoutines, decryptRoutines, encryptionMmapPolling, decryptionMmapPolling,
      mmapPolling, encryptionMmapInterrupt, decryptionMmapInterrupt, mmapInterrupt] at h
  all_goals exact Or.inl h

theorem polls_body (cmd : Cmd) : Polls cmd.body := by
  intro off h
  cases cmd with
  | setKey cckey => simp [Cmd.body] at h
  | setConfig cfg => simp [Cmd.body] at h
  | encrypt ccop =>
      simp only [Cmd.body, requestBody] at h
      split at h <;> simp [loads, drive] at h
  | decrypt ccop =>
      simp only [Cmd.body, requestBody] at h
      split at h <;> simp [loads, drive] at h
  | other c => simp [Cmd.body] at h

theorem polls : CodeInv Polls where
  body := polls_body
  tail := fun h off hmem => h off (List.mem_cons_of_mem _ hmem)
  unmapped := fun _ _ _ h => polls_append_instrs (unmapped_polls _ _ _ _)
    fun off hmem => h off (List.mem_cons_of_mem _ hmem)
  mapped := fun _ _ h => polls_append_instrs (mapped_polls _ _ _)
    fun off hmem => h off (List.mem_cons_of_mem _ hmem)

/-- A sleep nobody will end is not on the way to a result. -/
theorem upshot_asleep {env : Env} (hsig : env.signal = none) (is : List Instr) {f : Frame}
    (hj : f.m.card.job = none) (hi : f.m.card.irqs = 0) (hf : f.m.wqFlag = 0) :
    upshot E env (.waitEventInterruptible :: is) f = none := by
  have hticks : f.m.ticksLeft = 0 := by
    unfold Machine.ticksLeft
    rw [hj]
  rw [upshot_of_none E env _ hi, runAll, Instr.run, hsig, hticks, waitEvent,
    if_neg (not_not.mpr hf)]
  rfl

/-- The task with the lock can go on, or the card or an interrupt can. -/
theorem holder_progress {p : Par n} {m₀ : Machine} {t : Fin n} (h : p.Sound E (some t) m₀)
    (hp : Polls (p.tasks t).code) : ∃ l : Move n, l.Internal ∧ (p.step E l).isSome := by
  have hexec : ((p.tasks t).exec p.sys).isSome → ∃ l : Move n, l.Internal ∧ (p.step E l).isSome :=
    fun hsome => ⟨.exec t, trivial, by simpa [Par.step] using hsome⟩
  obtain ⟨-, decrypt, hreq, hd⟩ := h.held t rfl
  have hopen := h.isOpen t (drives_code_ne E hd)
  cases hd with
  | @loading reads hr hc hm =>
      refine hexec ?_
      cases reads with
      | nil => simp [Task.exec, hc, drive]
      | cons st reads =>
          have hmem : st ∈ loads := hr.subset (by simp)
          simp only [loads, List.mem_cons, List.not_mem_nil, or_false] at hmem
          rcases hmem with rfl | rfl | rfl | rfl <;> simpa [Task.exec, hc] using hopen
  | keyed hc hm => exact hexec (by simp [Task.exec, hc])
  | copied hc hm hbuff => exact hexec (by simp [Task.exec, hc])
  | leaving hc hm => exact hexec (by simp [Task.exec, hc])
  | @moving is mine hc hphase hout =>
      cases is with
      | nil =>
          refine hexec ?_
          simp only [Task.exec, hc, List.map_nil, List.nil_append]
          split <;> rfl
      | cons i is =>
          by_cases hjob : p.sys.m.card.job.isSome
          · exact ⟨.tick, trivial, by simp [Par.step, hjob]⟩
          by_cases hirq : p.sys.m.card.irqs = 0
          · -- nothing is under way, so it does not have to wait
            have hnone : p.sys.m.card.job = none := Option.not_isSome_iff_eq_none.mp hjob
            refine hexec ?_
            have hgo : i.blocked p.sys.m = false := by
              cases i with
              | whileBusy off =>
                  have hoff := hp off (by simp [hc])
                  have hfree : ¬(ioread32 p.sys.m.card off &&& 1 ≠ 0) := by
                    rw [busy_iff _ hoff]
                    exact hjob
                  simpa [Instr.blocked] using hfree
              | waitEventInterruptible =>
                  by_contra hb
                  have hflag : p.sys.m.wqFlag = 0 := by simpa [Instr.blocked] using hb
                  have hsome := unmapped_returns E (p.tasks t).ev.env decrypt (p.tasks t).cfg
                    (p.tasks t).ccop.length
                    (f := ⟨m₀.keyed (p.tasks t).ev.env.latency (p.tasks t).cfg,
                      copyFromUser (p.tasks t).ev.env (p.sys.user (p.tasks t).ev.pid)
                        (p.tasks t).ccop.addr (p.tasks t).ccop.length.toNat⟩)
                    (keyed_atRest h.rest _ _).irqs
                  have hres : ((p.tasks t).result E decrypt p.sys.user m₀).isSome := hsome
                  rw [← hout, upshot_asleep E hreq.noSignal is hnone hirq hflag] at hres
                  exact absurd hres (by simp)
              | _ => rfl
            simp [Task.exec, hc, hgo]
          · exact ⟨.irq, trivial, by simp [Par.step, hirq]⟩

/-- As long as a call is in progress, something can happen. -/
theorem no_deadlock {p : Par n} {holder : Option (Fin n)} {m₀ : Machine}
    (h : p.Sound E holder m₀) (hp : ∀ t, Polls (p.tasks t).code) {t : Fin n}
    (ht : (p.tasks t).code ≠ []) : ∃ l : Move n, l.Internal ∧ (p.step E l).isSome := by
  cases hh : holder with
  | some i =>
      subst hh
      exact holder_progress E h (hp i)
  | none =>
      subst hh
      -- the lock is free
      have hfree := (h.free rfl).1
      have hopen := h.isOpen t ht
      refine ⟨.exec t, trivial, ?_⟩
      simp only [Par.step, Option.isSome_map]
      cases h.outside t (by simp) with
      | configuring ws hc =>
          cases ws with
          | nil => exact absurd hc ht
          | cons w ws => simpa [Task.exec, hc] using hopen
      | waiting decrypt hreq hc => simp [Task.exec, hc, hfree]

/-- The scheduler has let everything go on that could, the task with the lock included, however many
others spin for it. -/
def Par.Served (p : Par n) : Prop := ∀ l : Move n, l.Internal → p.step E l = none

/--
**Every call returns.**

From any point of an undisturbed interleaving let the calls in progress go on, in any
order the scheduler likes. Their statements, the ticks of the card and its interrupts
are no more than the rank of that point. If the scheduler serves them until none of them is
possible any more, then every call has returned, the lock is free and the card is at rest.
-/
theorem calls_return {s₀ : Sys} (h₀ : s₀.Initial)
    (hdone : s₀.m.card.finished = s₀.m.card.started) (ls : List (Move n))
    (hls : ∀ l ∈ ls, l.Undisturbed) {p : Par n}
    (hrun : runs (Par.step E) (Par.start s₀) ls = some p) (more : List (Move n))
    (hmore : ∀ l ∈ more, l.Internal) {q : Par n} (hq : runs (Par.step E) p more = some q) :
    more.length ≤ p.rank
      ∧ (q.Served E →
        (∀ t, (q.tasks t).code = []) ∧ q.sys.ccSpinlock = false ∧ q.sys.m.AtRest) := by
  have hrest : s₀.m.AtRest := ⟨⟨h₀.job, h₀.irqs, h₀.flag⟩, hdone⟩
  have hinternal : ∀ l : Move n, l.Internal → l.Undisturbed := by
    intro l hl
    cases l with
    | call t e => exact absurd hl id
    | signal t => exact absurd hl id
    | _ => trivial
  have hall : runs (Par.step E) (Par.start s₀) (ls ++ more) = some q := by
    rw [runs_append, hrun]
    exact hq
  refine ⟨?_, fun hserved => ?_⟩
  · have hbound : more.length + q.rank ≤ p.rank := by
      have htrack : ∀ q, runs (Par.step E) p more = some q → (∀ l ∈ more, l.Internal) →
          more.length + q.rank ≤ p.rank := by
        refine runs_track (P := fun h (q : Par n) => (∀ l ∈ h, l.Internal) →
          h.length + q.rank ≤ p.rank) (s := p) (fun _ => by simp) ?_ more
        intro h q l q' _ hP hs hint
        have hle := hP fun x hx => hint x (List.mem_append_left _ hx)
        have hlt := internal_rank E (hint l (by simp)) hs
        rw [List.length_append, List.length_singleton]
        omega
      exact htrack q hq hmore
    omega
  · have hund : ∀ l ∈ ls ++ more, l.Undisturbed := fun l hl =>
      (List.mem_append.mp hl).elim (hls l) fun h => hinternal l (hmore l h)
    obtain ⟨holder, m₀, hsound⟩ := sound_runs E h₀.lock hrest hund hall
    have hidle : ∀ t, (q.tasks t).code = [] := by
      intro t
      by_contra hne
      obtain ⟨l, hl, hsome⟩ := no_deadlock E hsound (polls.runs hall) hne
      rw [hserved l hl] at hsome
      exact absurd hsome (by simp)
    refine ⟨hidle, ?_⟩
    cases hh : holder with
    | none =>
        obtain ⟨hlock, hm⟩ := hsound.free hh
        exact ⟨hlock, hm ▸ hsound.rest⟩
    | some t =>
        obtain ⟨-, decrypt, -, hd⟩ := hsound.held t hh
        exact absurd (hidle t) (drives_code_ne E hd)

/-- A request that has just got the lock. -/
def underWay : List (Move 1) :=
  [.call 0 ⟨1, 3, Env.calm, .fopen (some (30, 17))⟩,
    .call 0 ⟨1, 3, Env.calm, .ioctl (.encrypt ⟨4096, 1, 0⟩)⟩, .exec 0]

/-- The rest of it, up to its return. -/
def toItsReturn : List (Move 1) :=
  List.replicate 13 (.exec 0) ++ List.replicate 3 .tick ++ List.replicate 4 (.exec 0)

/-- It takes no more steps than its rank says, then nothing is left to do, the lock is free and the
card at rest. -/
theorem request_returns :
    ∃ p q, runs (Par.step genCipher) (Par.start (Sys.probed fun _ _ => 65)) underWay = some p
      ∧ runs (Par.step genCipher) p toItsReturn = some q ∧ toItsReturn.length ≤ p.rank
      ∧ (∀ t, (q.tasks t).code = []) ∧ q.sys.ccSpinlock = false ∧ q.sys.m.AtRest := by
  obtain ⟨p, hp⟩ : ∃ p, runs (Par.step genCipher) (Par.start (Sys.probed fun _ _ => 65)) underWay
      = some p := ⟨_, rfl⟩
  obtain ⟨q, hq⟩ : ∃ q, runs (Par.step genCipher) (Par.start (Sys.probed fun _ _ => 65))
      (underWay ++ toItsReturn) = some q := ⟨_, rfl⟩
  have hserved : ∀ l : Move 1, l.Internal → ((runs (Par.step genCipher)
      (Par.start (Sys.probed fun _ _ => 65)) (underWay ++ toItsReturn)).bind
        fun q => q.step genCipher l) = none := by
    intro l hl
    cases l with
    | call t e => exact absurd hl id
    | exec t => rw [Subsingleton.elim t 0]; rfl
    | signal t => exact absurd hl id
    | tick => rfl
    | irq => rfl
  rw [hq] at hserved
  rw [runs_append, hp] at hq
  obtain ⟨hle, hend⟩ := calls_return genCipher (Sys.probed_initial fun _ _ => 65) rfl underWay
    (by simp [underWay, Move.Undisturbed, Event.Releases, CcOp.Unlocks, Env.calm]) hp toItsReturn
    (by simp [toItsReturn, or_imp, forall_and, Move.Internal]) hq
  exact ⟨p, q, hp, hq, hle, hend hserved⟩

end LinuxDrivers.Card
