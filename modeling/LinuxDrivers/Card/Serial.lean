import LinuxDrivers.Card.Sound

/-!
# Interleaved calls are served one after the other

The interleaved driver implements the one of `Driver.lean`, which takes whole calls:
every run of it has the calls in some order in which, taken one at a time, they do the
same. The order is read off the run. A request takes effect with its copy-out, the
other calls when they are made, and each of these points lies between the call and
its return.

For this the calls on one file must not overlap. The lock does not cover `SET_KEY`
and `SET_CONFIG`, so a request on the same file could see half of one of them.
-/

namespace LinuxDrivers.Card

variable {n : Nat} (E : Cipher)

/-- The call that takes effect with a step. -/
def Par.commit (p : Par n) : Move n → Option Event
  | .call _ e =>
    match e.call with
    | .ioctl (.encrypt _) => none
    | .ioctl (.decrypt _) => none
    | _ => some e
  | .exec t =>
    match (p.tasks t).code with
    | .copyOut :: _ => some (p.tasks t).ev
    | _ => none
  | _ => none

/-- A call is made on a file no other call is using. -/
def Par.Alone (p : Par n) : Move n → Prop
  | .call _ e => p.unused e.fd
  | _ => True

/-! ## Writes still to come -/

/-- What the statements still to be executed will make of the file's configuration. -/
def pending (code : List Stmt) (file : CryptocardConfig) : CryptocardConfig :=
  code.foldl (fun file st => match st with | .store w => w.apply file | _ => file) file

theorem pending_store (w : Write) (code : List Stmt) (file : CryptocardConfig) :
    pending (.store w :: code) file = pending code (w.apply file) := rfl

theorem pending_of_not_store {code : List Stmt} (h : ∀ st ∈ code, ∀ w, st ≠ .store w)
    (file : CryptocardConfig) : pending code file = file := by
  induction code with
  | nil => rfl
  | cons st code ih =>
      have hrest := ih fun x hx => h x (List.mem_cons_of_mem _ hx)
      have hst := h st (List.mem_cons_self ..)
      unfold pending at hrest ⊢
      rw [List.foldl_cons]
      cases st with
      | store w => exact absurd rfl (hst w)
      | _ => exact hrest

theorem pending_requestBody (decrypt : Bool) (ccop : CcOp) (file : CryptocardConfig) :
    pending (requestBody decrypt ccop) file = file := by
  refine pending_of_not_store ?_ file
  unfold requestBody
  split <;> simp [loads, drive]

/-- The call takes effect when it is made, or not yet if it is a request. -/
theorem enter_commits {p : Par n} (t : Fin n) {e : Event} {cmd : Cmd} (hc : e.call = .ioctl cmd)
    {s : Sys} {file : CryptocardConfig} (hf : s.files e.fd = some file) :
    Commits (Sys.step E) (p.commit (.call t e)) s
      (s.setFile e.fd (some (pending cmd.body file))) := by
  have hself : s.setFile e.fd (some file) = s := by
    unfold Sys.setFile
    rw [← hf, Function.update_eq_self]
  have hstep : s.step E e = (cryptocardIoctl E e.env e.pid e.fd file cmd s).map Prod.snd := by
    simp only [Sys.step, hc, hf]
  simp only [Par.commit, hc]
  cases cmd with
  | setKey cckey => exact hstep
  | setConfig cfg =>
      refine hstep.trans ?_
      simp only [cryptocardIoctl, Cmd.body, Option.map_some]
      split <;> rfl
  | encrypt ccop =>
      rw [show (Cmd.encrypt ccop).body = requestBody false ccop from rfl, pending_requestBody,
        hself]
      rfl
  | decrypt ccop =>
      rw [show (Cmd.decrypt ccop).body = requestBody true ccop from rfl, pending_requestBody,
        hself]
      rfl
  | other c =>
      rw [show pending (Cmd.other c).body file = file from rfl, hself]
      exact hstep

/-! ## What a request has read -/

/-- A field of the configuration. -/
def Read.get : Read → CryptocardConfig → UInt8
  | .a, cfg => cfg.a
  | .b, cfg => cfg.b
  | .interrupt, cfg => cfg.interrupt
  | .dma, cfg => cfg.dma

/-- A request that has not taken effect has in its locals what it has read of the file. -/
def Task.Agrees (t : Task) (file : CryptocardConfig) : Prop :=
  .copyOut ∈ t.code → ∀ r, .load r ∉ t.code → r.get t.cfg = r.get file

theorem get_apply (r r' : Read) (file cfg : CryptocardConfig) :
    r.get (r'.apply file cfg) = if r = r' then r.get file else r.get cfg := by
  cases r <;> cases r' <;> rfl

/-- Statements other than reads leave the locals as they are. -/
theorem Task.Agrees.next {t t' : Task} {file : CryptocardConfig} (h : t.Agrees file)
    (hcfg : t'.cfg = t.cfg) (hcopy : .copyOut ∈ t'.code → .copyOut ∈ t.code)
    (hload : ∀ r, .load r ∈ t.code → .load r ∈ t'.code) : t'.Agrees file := by
  intro hmem r hr
  rw [hcfg]
  exact h (hcopy hmem) r fun h' => hr (hload r h')

theorem Task.Agrees.load {t : Task} {file : CryptocardConfig} (h : t.Agrees file) {r : Read}
    {code : List Stmt} (hc : t.code = .load r :: code) :
    Task.Agrees { t with code := code, cfg := r.apply file t.cfg } file := by
  intro hmem x hx
  dsimp only at hmem hx ⊢
  rw [get_apply]
  split
  · rfl
  · rename_i hne
    refine h (by rw [hc]; exact List.mem_cons_of_mem _ hmem) x fun h' => ?_
    rw [hc] at h'
    rcases List.mem_cons.mp h' with heq | h'
    · exact hne (Stmt.load.inj heq)
    · exact hx h'

/-- What a statement does to its file, to the writes still to come and to what has been read. -/
structure FileStep (t : Task) (s : Sys) (t' : Task) (s' : Sys) : Prop where
  ev : t'.ev = t.ev
  other : ∀ fd, fd ≠ t.ev.fd → s'.files fd = s.files fd
  pending : (s'.files t.ev.fd).map (pending t'.code) = (s.files t.ev.fd).map (pending t.code)
  opened : s'.deviceOpened = s.deviceOpened
  refs : s'.moduleRefs = s.moduleRefs
  agrees : ∀ file', s'.files t.ev.fd = some file' →
    (∀ file, s.files t.ev.fd = some file → t.Agrees file) → t'.Agrees file'

/-- A statement that leaves the files alone and reads none. -/
theorem FileStep.of_files {t t' : Task} {s s' : Sys} (hev : t'.ev = t.ev)
    (hfiles : s'.files = s.files) (ho : s'.deviceOpened = s.deviceOpened)
    (hr : s'.moduleRefs = s.moduleRefs)
    (hp : ∀ file, Card.pending t'.code file = Card.pending t.code file)
    (hcfg : t'.cfg = t.cfg) (hcopy : .copyOut ∈ t'.code → .copyOut ∈ t.code)
    (hload : ∀ r, .load r ∈ t.code → .load r ∈ t'.code) : FileStep t s t' s' where
  ev := hev
  other := fun _ _ => by rw [hfiles]
  pending := by rw [hfiles, funext hp]
  opened := ho
  refs := hr
  agrees := by
    intro file' hf h
    rw [hfiles] at hf
    exact (h file' hf).next hcfg hcopy hload

theorem pending_instrs (is : List Instr) (code : List Stmt) (file : CryptocardConfig) :
    pending (is.map .instr ++ code) file = pending code file := by
  unfold pending
  rw [List.foldl_append]
  congr 1
  induction is with
  | nil => rfl
  | cons i is ih => exact ih

theorem exec_fileStep {t t' : Task} {s s' : Sys}
    (hstores : ∀ w code, t.code = .store w :: code → .copyOut ∉ code)
    (hcopies : ∀ code, t.code = .copyOut :: code → t.ccop.Unlocks t.ev.env)
    (h : ExecCase t s t' s') : FileStep t s t' s' := by
  cases h with
  | @store w code file hc hf =>
      exact
        { ev := rfl
          other := fun fd hne => Function.update_of_ne hne ..
          pending := by simp [Sys.setFile, hf, hc, pending_store]
          opened := rfl
          refs := rfl
          agrees := fun _ _ _ hmem => absurd hmem (hstores w code hc) }
  | @load r code file hc hf =>
      exact
        { ev := rfl
          other := fun _ _ => rfl
          pending := by rw [hc]; rfl
          opened := rfl
          refs := rfl
          agrees := by
            intro file' hf' h
            rw [hf] at hf'
            cases hf'
            exact (h file hf).load hc }
  | lock hc =>
      exact .of_files rfl rfl rfl rfl (by simp [hc, pending]) rfl (by simp [hc]) (by simp [hc])
  | writeKey hc =>
      exact .of_files rfl rfl rfl rfl (by simp [hc, pending]) rfl (by simp [hc]) (by simp [hc])
  | copyIn hc =>
      exact .of_files rfl rfl rfl rfl (by simp [hc, pending]) rfl (by simp [hc]) (by simp [hc])
  | transfer hc =>
      refine .of_files rfl rfl rfl rfl (fun file => ?_) rfl (by simp [hc]) (by simp [hc])
      rw [hc]
      exact pending_instrs ..
  | transferMapped hc =>
      refine .of_files rfl rfl rfl rfl (fun file => ?_) rfl (by simp [hc]) (by simp [hc])
      rw [hc]
      exact pending_instrs ..
  | instr hc =>
      exact .of_files rfl rfl rfl rfl (by simp [hc, pending]) rfl (by simp [hc]) (by simp [hc])
  | copyOut hc =>
      exact .of_files rfl rfl rfl rfl (by simp [hc, pending]) rfl (by simp [hc]) (by simp [hc])
  | fault hc hsome => exact absurd (hcopies _ hc).2 hsome
  | unlock hc =>
      exact .of_files rfl rfl rfl rfl (by simp [hc, pending]) rfl (by simp [hc]) (by simp [hc])

/-! ## The files -/

/-- The files of the interleaved driver, against what they are once the calls in progress have
taken effect. -/
structure Matches (p : Par n) (files : Nat → Option CryptocardConfig) : Prop where
  /-- A file in use will be what it is after the writes still to come. -/
  busy : ∀ t, (p.tasks t).code ≠ [] →
    files (p.tasks t).ev.fd = (p.sys.files (p.tasks t).ev.fd).map (pending (p.tasks t).code)
  quiet : ∀ fd, p.unused fd → files fd = p.sys.files fd
  /-- No two calls use one file. -/
  alone : ∀ t t', (p.tasks t).code ≠ [] → (p.tasks t').code ≠ [] →
    (p.tasks t).ev.fd = (p.tasks t').ev.fd → t = t'
  agrees : ∀ t file, p.sys.files (p.tasks t).ev.fd = some file → (p.tasks t).Agrees file

/-- A task executes a statement. -/
theorem Matches.exec {p : Par n} {files : Nat → Option CryptocardConfig} (h : Matches p files)
    {t : Fin n} {t' : Task} {s' : Sys} (hne : (p.tasks t).code ≠ [])
    (hfs : FileStep (p.tasks t) p.sys t' s') : Matches (p.update t t' s') files := by
  -- on the task's own file
  have hown : files (p.tasks t).ev.fd = (s'.files (p.tasks t).ev.fd).map (pending t'.code) :=
    (h.busy t hne).trans hfs.pending.symm
  -- the other calls are on other files
  have hother : ∀ i, i ≠ t → (p.tasks i).code ≠ [] → (p.tasks i).ev.fd ≠ (p.tasks t).ev.fd :=
    fun i hi hnei heq => hi (h.alone i t hnei hne heq)
  refine ⟨?_, ?_, ?_, ?_⟩
  · intro i
    by_cases hi : i = t
    · subst hi
      rw [Pool.update_tasks_self, hfs.ev]
      exact fun _ => hown
    · rw [Pool.update_tasks_ne p hi, Pool.update_sys]
      intro hnei
      rw [hfs.other _ (hother i hi hnei)]
      exact h.busy i hnei
  · intro fd hunused
    rw [Pool.update_sys]
    by_cases hfd : fd = (p.tasks t).ev.fd
    · subst hfd
      -- the task has just returned
      have hnil : t'.code = [] := by
        by_contra hne'
        have := hunused t (by rwa [Pool.update_tasks_self])
        rw [Pool.update_tasks_self, hfs.ev] at this
        exact this rfl
      rw [hown, hnil]
      cases s'.files (p.tasks t).ev.fd <;> rfl
    · rw [hfs.other fd hfd]
      refine h.quiet fd fun i hnei hi => ?_
      have hit : i ≠ t := by
        rintro rfl
        exact hfd hi.symm
      have := hunused i (by rwa [Pool.update_tasks_ne p hit])
      rw [Pool.update_tasks_ne p hit] at this
      exact this hi
  · intro i j
    by_cases hi : i = t
    · by_cases hj : j = t
      · exact fun _ _ _ => hi.trans hj.symm
      · subst hi
        rw [Pool.update_tasks_self, Pool.update_tasks_ne p hj, hfs.ev]
        exact fun _ hnej heq => absurd heq.symm (hother j hj hnej)
    · by_cases hj : j = t
      · subst hj
        rw [Pool.update_tasks_self, Pool.update_tasks_ne p hi, hfs.ev]
        exact fun hnei _ heq => absurd heq (hother i hi hnei)
      · rw [Pool.update_tasks_ne p hi, Pool.update_tasks_ne p hj]
        exact h.alone i j
  · intro i file
    by_cases hi : i = t
    · subst hi
      rw [Pool.update_tasks_self, hfs.ev]
      exact fun hf => hfs.agrees file hf (h.agrees i)
    · rw [Pool.update_tasks_ne p hi, Pool.update_sys]
      intro hf hmem
      have hnei : (p.tasks i).code ≠ [] := List.ne_nil_of_mem hmem
      rw [hfs.other _ (hother i hi hnei)] at hf
      exact h.agrees i file hf hmem

/-- A file no call is using is opened or released. -/
theorem Matches.set {p : Par n} {files : Nat → Option CryptocardConfig} (h : Matches p files)
    {fd : Nat} (hunused : p.unused fd) {s' : Sys} {c : Option CryptocardConfig}
    (hs : s'.files = Function.update p.sys.files fd c) :
    Matches { p with sys := s' } (Function.update files fd c) where
  busy := by
    intro t hne
    have hfd := hunused t hne
    show Function.update files fd c _ = (s'.files _).map _
    rw [hs, Function.update_of_ne hfd, Function.update_of_ne hfd]
    exact h.busy t hne
  quiet := by
    intro x hx
    show Function.update files fd c x = s'.files x
    rw [hs]
    by_cases hfd : x = fd
    · rw [hfd, Function.update_self, Function.update_self]
    · rw [Function.update_of_ne hfd, Function.update_of_ne hfd]
      exact h.quiet x hx
  alone := h.alone
  agrees := by
    intro t file hf hmem
    have hfd := hunused t (List.ne_nil_of_mem hmem)
    have hf' : s'.files (p.tasks t).ev.fd = some file := hf
    rw [hs, Function.update_of_ne hfd] at hf'
    exact h.agrees t file hf' hmem

/-- A call enters on a file no other call is using. -/
theorem Matches.enter {p : Par n} {files : Nat → Option CryptocardConfig} (h : Matches p files)
    {t : Fin n} (hidle : (p.tasks t).code = []) {e : Event} (cmd : Cmd) (hunused : p.unused e.fd)
    {file : CryptocardConfig} (hf : p.sys.files e.fd = some file) :
    Matches (p.update t (.enter e cmd) p.sys)
      (Function.update files e.fd (some (pending cmd.body file))) where
  busy := by
    intro i
    by_cases hi : i = t
    · subst hi
      rw [Pool.update_tasks_self, Pool.update_sys]
      intro _
      show Function.update files e.fd _ e.fd = (p.sys.files e.fd).map _
      rw [Function.update_self, hf]
      rfl
    · rw [Pool.update_tasks_ne p hi, Pool.update_sys]
      intro hne
      rw [Function.update_of_ne (hunused i hne)]
      exact h.busy i hne
  quiet := by
    intro fd hfd
    rw [Pool.update_sys]
    by_cases heq : fd = e.fd
    · subst heq
      -- a call that has returned at once writes nothing
      have hnil : cmd.body = [] := by
        by_contra hne
        have := hfd t (by rwa [Pool.update_tasks_self])
        rw [Pool.update_tasks_self] at this
        exact this rfl
      rw [Function.update_self, hnil, hf]
      rfl
    · rw [Function.update_of_ne heq]
      refine h.quiet fd fun i hne hi => ?_
      have hit : i ≠ t := by
        rintro rfl
        exact hne hidle
      have := hfd i (by rwa [Pool.update_tasks_ne p hit])
      rw [Pool.update_tasks_ne p hit] at this
      exact this hi
  alone := by
    intro i j
    by_cases hi : i = t
    · by_cases hj : j = t
      · exact fun _ _ _ => hi.trans hj.symm
      · subst hi
        rw [Pool.update_tasks_self, Pool.update_tasks_ne p hj]
        exact fun _ hnej heq => absurd heq.symm (hunused j hnej)
    · by_cases hj : j = t
      · subst hj
        rw [Pool.update_tasks_self, Pool.update_tasks_ne p hi]
        exact fun hnei _ heq => absurd heq (hunused i hnei)
      · rw [Pool.update_tasks_ne p hi, Pool.update_tasks_ne p hj]
        exact h.alone i j
  agrees := by
    intro i x
    by_cases hi : i = t
    · subst hi
      rw [Pool.update_tasks_self]
      exact fun _ hmem r hr => absurd (body_loads hmem trivial r) hr
    · rw [Pool.update_tasks_ne p hi, Pool.update_sys]
      exact h.agrees i x

/-! ## The relation -/

/-- The interleaved driver `p` implements the driver state `s`. -/
structure Serial (p : Par n) (s : Sys) : Prop where
  sound : ∃ holder, p.Sound E holder s.m
  files : Matches p s.files
  user : s.user = p.sys.user
  lock : s.ccSpinlock = false
  opened : s.deviceOpened = p.sys.deviceOpened
  refs : s.moduleRefs = p.sys.moduleRefs

theorem serial_start {s : Sys} (hlock : s.ccSpinlock = false) (hrest : s.m.AtRest) :
    Serial E (Par.start (n := n) s) s where
  sound := ⟨none, sound_start E hlock hrest⟩
  files :=
    { busy := fun _ h => absurd rfl h
      quiet := fun _ _ => rfl
      alone := fun _ _ h => absurd rfl h
      agrees := fun _ _ _ h => absurd h (by simp [Par.start, Task.idle]) }
  user := rfl
  lock := hlock
  opened := rfl
  refs := rfl

/-- With no call in progress the two states are the same. -/
theorem Serial.eq_of_idle {p : Par n} {s : Sys} (h : Serial E p s)
    (hidle : ∀ t, (p.tasks t).code = []) : p.sys = s := by
  obtain ⟨holder, hsound⟩ := h.sound
  have hfiles : p.sys.files = s.files := by
    funext fd
    exact (h.files.quiet fd fun t hne => absurd (hidle t) hne).symm
  have hfree : p.sys.ccSpinlock = false ∧ p.sys.m = s.m := by
    cases hh : holder with
    | none => exact hsound.free hh
    | some t =>
        obtain ⟨-, decrypt, -, hd⟩ := hsound.held t hh
        exact absurd (hidle t) (drives_code_ne E hd)
  calc p.sys = ⟨p.sys.m, p.sys.ccSpinlock, p.sys.files, p.sys.user, p.sys.deviceOpened,
        p.sys.moduleRefs⟩ := rfl
    _ = ⟨s.m, s.ccSpinlock, s.files, s.user, s.deviceOpened, s.moduleRefs⟩ := by
        rw [hfree.2, hfree.1, hfiles, h.user, h.opened, h.refs, h.lock]
    _ = s := rfl

/-- The task that is about to copy out: its request takes effect in the driver state. -/
theorem commit_request {t : Task} {decrypt : Bool} (hreq : t.Requests decrypt) {s : Sys}
    (hlock : s.ccSpinlock = false) {file : CryptocardConfig} (hf : s.files t.ev.fd = some file)
    (hagree : ∀ r : Read, r.get t.cfg = r.get file) {f : Frame}
    (hres : t.result E decrypt s.user s.m = some f) :
    s.step E t.ev = some { s with
      m := f.m
      user := Function.update s.user t.ev.pid (copyToUser t.ev.env (s.user t.ev.pid)
        t.ccop.addr f.data t.ccop.length.toNat).2 } := by
  have ha : t.cfg.a = file.a := hagree .a
  have hb : t.cfg.b = file.b := hagree .b
  have hi : t.cfg.interrupt = file.interrupt := hagree .interrupt
  have hd : t.cfg.dma = file.dma := hagree .dma
  -- the routine and the key are those the file's configuration selects
  have hrun : runAll E t.ev.env ((routines decrypt).unmapped file t.ev.env t.ccop.length)
      ⟨s.m.keyed t.ev.env.latency file,
        copyFromUser t.ev.env (s.user t.ev.pid) t.ccop.addr t.ccop.length.toNat⟩ = some f := by
    rw [← hres]
    simp only [Task.result, Routines.unmapped, Machine.keyed, ha, hb, hi, hd]
  have hall : (copyToUser t.ev.env (s.user t.ev.pid) t.ccop.addr f.data
      t.ccop.length.toNat).1 = 0 := hreq.unlocks.2
  have hcrypt : cryptRequest E (routines decrypt) t.ev.env t.ev.pid file t.ccop s
      = some (0, { s with
          m := f.m
          user := Function.update s.user t.ev.pid (copyToUser t.ev.env (s.user t.ev.pid)
            t.ccop.addr f.data t.ccop.length.toNat).2 }) := by
    unfold cryptRequest
    rw [if_neg (by simp [hlock])]
    dsimp only
    rw [if_pos hreq.unlocks.1]
    unfold Machine.keyed at hrun
    rw [hrun]
    dsimp only
    rw [if_neg (not_not.mpr hall), hlock]
  have hcall := hreq.call
  simp only [Sys.step, hcall, hf]
  cases decrypt with
  | false => simp [cryptocardIoctl, hcrypt]
  | true => simp [cryptocardIoctl, hcrypt]

/-- What a sound task can have next. -/
theorem Par.Sound.next {p : Par n} {holder : Option (Fin n)} {m₀ : Machine}
    (h : p.Sound E holder m₀) (t : Fin n) :
    (∀ w code, (p.tasks t).code = .store w :: code → .copyOut ∉ code)
      ∧ ∀ code, (p.tasks t).code = .copyOut :: code →
        (p.tasks t).ccop.Unlocks (p.tasks t).ev.env := by
  by_cases hh : holder = some t
  · obtain ⟨-, decrypt, hreq, hd⟩ := h.held t hh
    refine ⟨fun w code hc => ?_, fun _ _ => hreq.unlocks⟩
    -- under the lock no write comes next
    cases hd with
    | @loading reads hr hc' hm =>
        rw [hc'] at hc
        cases reads with
        | nil => simp [drive] at hc
        | cons st reads =>
            have hmem : st ∈ loads := hr.subset (by simp)
            rw [(List.cons.inj hc).1] at hmem
            simp [loads] at hmem
    | keyed hc' _ => simp [hc'] at hc
    | copied hc' _ _ => simp [hc'] at hc
    | @moving is mine hc' _ _ =>
        rw [hc'] at hc
        cases is <;> simp at hc
    | leaving hc' _ => simp [hc'] at hc
  · cases h.outside t hh with
    | configuring ws hc' =>
        refine ⟨fun w code hc => ?_, fun code hc => ?_⟩
        · rw [hc'] at hc
          cases ws with
          | nil => exact absurd hc (by simp)
          | cons w' ws =>
              rw [← (List.cons.inj hc).2]
              simp
        · rw [hc'] at hc
          cases ws <;> simp at hc
    | waiting decrypt hreq hc' =>
        exact ⟨fun w code hc => by simp [hc'] at hc, fun _ _ => hreq.unlocks⟩

theorem serial_exec {p : Par n} {s : Sys} (h : Serial E p s) {t : Fin n} {t' : Task} {s' : Sys}
    (hexec : (p.tasks t).exec p.sys = some (t', s')) :
    ∃ b, Commits (Sys.step E) (p.commit (.exec t)) s b ∧ Serial E (p.update t t' s') b := by
  obtain ⟨holder, hsound⟩ := h.sound
  have hnext := hsound.next E t
  have hne := exec_code_ne hexec
  have hfs := exec_fileStep hnext.1 hnext.2 (exec_cases hexec)
  have hfiles := h.files.exec hne hfs
  -- a step that is no copy-out is invisible
  have hsilent : (∃ holder', (p.update t t' s').Sound E holder' s.m) ∧ s'.user = p.sys.user
      ∧ (∀ code, (p.tasks t).code ≠ .copyOut :: code) →
      ∃ b, Commits (Sys.step E) (p.commit (.exec t)) s b ∧ Serial E (p.update t t' s') b := by
    rintro ⟨hsound', huser, hno⟩
    refine ⟨s, ?_, ⟨hsound', hfiles, h.user.trans huser.symm, h.lock,
      h.opened.trans hfs.opened.symm, h.refs.trans hfs.refs.symm⟩⟩
    simp only [Par.commit]
    rfl
  by_cases hh : holder = some t
  · subst hh
    rcases sound_holder E hsound hexec with hsil | ⟨hsound', decrypt, hreq, hc, hres, hs'⟩
    · exact hsilent hsil
    · -- the request takes effect
      obtain ⟨file, hf⟩ := Option.isSome_iff_exists.mp (hsound.isOpen t hne)
      have hsf : s.files (p.tasks t).ev.fd = some file := by
        rw [h.files.busy t hne, hf, hc]
        rfl
      have hagree : ∀ r : Read, r.get (p.tasks t).cfg = r.get file := by
        intro r
        exact h.files.agrees t file hf (by simp [hc]) r (by simp [hc])
      have hstep := commit_request E hreq h.lock hsf hagree (by rw [h.user]; exact hres)
      refine ⟨_, by simp only [Par.commit, hc]; exact hstep, ?_⟩
      subst hs'
      exact ⟨⟨some t, hsound'⟩, hfiles, by rw [h.user]; rfl, h.lock, h.opened, h.refs⟩
  · exact hsilent (sound_outside E hsound hh hexec)

/-- Every undisturbed step of calls on files of their own commits one call of the driver, or
none. -/
theorem serial_step {p p' : Par n} {l : Move n} {s : Sys} (h : Serial E p s)
    (hl : l.Undisturbed ∧ p.Alone l) (hs : p.step E l = some p') :
    ∃ b, Commits (Sys.step E) (p.commit l) s b ∧ Serial E p' b := by
  obtain ⟨holder, hsound⟩ := h.sound
  cases move_cases hs with
  | @fopen t e mem hidle hc hf =>
      have hunused : p.unused e.fd := hl.2
      have hsf : s.files e.fd = none := (h.files.quiet e.fd hunused).trans hf
      refine ⟨(cryptocardFopen mem e.fd s).2, ?_, ?_⟩
      · simp only [Par.commit, hc, Commits, Sys.step, hsf]
      · have hsound' := sound_fopen E hsound mem e.fd
        cases mem with
        | none =>
            exact ⟨⟨holder, hsound'⟩, ⟨h.files.busy, h.files.quiet, h.files.alone, h.files.agrees⟩,
              h.user, h.lock, congrArg (· + 1) h.opened, congrArg (· + 1) h.refs⟩
        | some ab =>
            exact ⟨⟨holder, hsound'⟩, h.files.set hunused rfl, h.user, h.lock,
              congrArg (· + 1) h.opened, congrArg (· + 1) h.refs⟩
  | @frelease t e file hidle hc hf hunused =>
      have hsf : s.files e.fd = some file := (h.files.quiet e.fd hunused).trans hf
      refine ⟨(cryptocardFrelease e.fd s).2, ?_, ?_⟩
      · simp only [Par.commit, hc, Commits, Sys.step, hsf]
      · exact ⟨⟨holder, sound_frelease E hsound hunused⟩, h.files.set hunused rfl, h.user, h.lock,
          congrArg (· - 1) h.opened, congrArg (· - 1) h.refs⟩
  | @ioctl t e cmd file hidle hc hf =>
      have hunused : p.unused e.fd := hl.2
      have hsf : s.files e.fd = some file := (h.files.quiet e.fd hunused).trans hf
      refine ⟨_, enter_commits E t hc hsf, ?_⟩
      exact ⟨⟨holder, sound_ioctl E hsound hidle hc hl.1.1 hl.1.2 (by rw [hf]; rfl)⟩,
        h.files.enter hidle cmd hunused hf, h.user, h.lock, h.opened, h.refs⟩
  | exec hexec => exact serial_exec E h hexec
  | signal hc => exact absurd hl.1 id
  | tick hjob =>
      exact ⟨s, rfl, ⟨holder, sound_tick E hsound hjob⟩,
        ⟨h.files.busy, h.files.quiet, h.files.alone, h.files.agrees⟩, h.user, h.lock, h.opened,
        h.refs⟩
  | irq hirq =>
      exact ⟨s, rfl, ⟨holder, sound_irq E hsound hirq⟩,
        ⟨h.files.busy, h.files.quiet, h.files.alone, h.files.agrees⟩, h.user, h.lock, h.opened,
        h.refs⟩

/--
**Interleaved calls are served one after the other.**

Take any interleaving of calls, card ticks and interrupts in which no signal ends a
wait, every request is unmapped and has its result copied out, and the calls on one
file do not overlap. Then the driver of `Driver.lean` takes the calls one at a time,
in the order in which they take effect. The two have the same process memories at
every point, and the same state whenever no call is in progress.
-/
theorem interleaving_is_serial {s₀ : Sys} (h₀ : s₀.Initial)
    (hdone : s₀.m.card.finished = s₀.m.card.started) (ls : List (Move n))
    (hls : ∀ l ∈ ls, l.Undisturbed) (halone : Meets (Par.step E) Par.Alone (Par.start s₀) ls)
    {p : Par n} (hrun : runs (Par.step E) (Par.start s₀) ls = some p) :
    ∃ s, runs (Sys.step E) s₀ (commits (Par.step E) Par.commit (Par.start s₀) ls) = some s
      ∧ p.sys.user = s.user ∧ ((∀ t, (p.tasks t).code = []) → p.sys = s) := by
  have hrest : s₀.m.AtRest := ⟨⟨h₀.job, h₀.irqs, h₀.flag⟩, hdone⟩
  have hok : Meets (Par.step E) (fun p l => l.Undisturbed ∧ p.Alone l) (Par.start s₀) ls :=
    fun pre l hpre t ht => ⟨hls l (hpre.subset (by simp)), halone pre l hpre t ht⟩
  obtain ⟨s, hs, hserial⟩ := runs_simulate (R := Serial E) (serial_start E h₀.lock hrest)
    (fun _ _ _ _ hR hl hstep => serial_step E hR hl hstep) hok hrun
  exact ⟨s, hs, hserial.user.symm, hserial.eq_of_idle E⟩

instance (p : Par n) : DecidablePred p.Alone
  | .call _ e => inferInstanceAs (Decidable (p.unused e.fd))
  | .exec _ | .signal _ | .tick | .irq => isTrue trivial

/-- Task 0 encrypts a byte on file 3 while task 1 sets a key on file 4. -/
def overlapping : List (Move 2) :=
  [.call task₀ ⟨1, 3, Env.calm, .fopen (some (30, 17))⟩,
      .call task₁ ⟨2, 4, Env.calm, .fopen (some (0, 0))⟩,
      .call task₀ ⟨1, 3, Env.calm, .ioctl (.encrypt ⟨4096, 1, 0⟩)⟩] ++ Move.execs task₀ 2
    ++ [.call task₁ ⟨2, 4, Env.calm, .ioctl (.setKey ⟨5, 6⟩)⟩] ++ Move.execs task₁ 1
    ++ Move.execs task₀ 5 ++ Move.execs task₁ 1 ++ Move.execs task₀ 7
    ++ [.tick, .tick, .exec task₁, .tick] ++ Move.execs task₀ 4

/-- The two calls take effect one after the other, though neither waited for the other. -/
theorem overlapping_is_serial :
    ∃ p s, runs (Par.step genCipher) (Par.start (Sys.probed fun _ _ => 65)) overlapping = some p
      ∧ runs (Sys.step genCipher) (Sys.probed fun _ _ => 65)
          (commits (Par.step genCipher) Par.commit (Par.start (Sys.probed fun _ _ => 65))
            overlapping)
        = some s
      ∧ p.sys = s := by
  obtain ⟨s, hs, -, heq⟩ := interleaving_is_serial genCipher (Sys.probed_initial fun _ _ => 65) rfl
    overlapping
    (by simp [overlapping, Move.execs, List.replicate, Move.Undisturbed, Event.Releases,
      CcOp.Unlocks, Env.calm])
    (by decide) rfl
  exact ⟨_, s, rfl, hs, heq (by decide)⟩

end LinuxDrivers.Card
