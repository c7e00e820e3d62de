import LinuxDrivers.Card.Refine
import LinuxDrivers.Card.Sound

/-!
# Which key a request uses when the key is being set

`SET_KEY` writes the two key bytes one after the other, without the lock, and a
request reads them one after the other. So a request that overlaps with `SET_KEY` on
its own file can end up with one byte of each key. Here the calls on a file may overlap
in any way. What a request cannot do is use a byte that was never set on its file: the
file only ever holds such bytes, and a request has read both before it writes its key.
-/

namespace LinuxDrivers.Card

variable {n : Nat} (E : Cipher)

/-- The keys of the `SET_KEY` calls made on the file since it was opened, and first the one its
memory held then. -/
def keysSince (ls : List (Move n)) (fd : Nat) : List CcKey :=
  ls.foldl (fun keys l =>
    match l with
    | .call _ e =>
      if e.fd = fd then
        match e.call with
        | .fopen (some (a, b)) => [⟨a, b⟩]
        | .ioctl (.setKey cckey) => keys ++ [cckey]
        | _ => keys
      else keys
    | _ => keys) []

theorem keysSince_snoc (ls : List (Move n)) (l : Move n) (fd : Nat) :
    keysSince (ls ++ [l]) fd =
      match l with
      | .call _ e =>
        if e.fd = fd then
          match e.call with
          | .fopen (some (a, b)) => [⟨a, b⟩]
          | .ioctl (.setKey cckey) => keysSince ls fd ++ [cckey]
          | _ => keysSince ls fd
        else keysSince ls fd
      | _ => keysSince ls fd := by
  unfold keysSince
  rw [List.foldl_append]
  rfl

/-- The two bytes of a key. -/
inductive KeyByte where
  | a
  | b
  deriving DecidableEq

namespace KeyByte

def ofKey : KeyByte → CcKey → UInt8
  | .a, k => k.a
  | .b, k => k.b

def ofConfig : KeyByte → CryptocardConfig → UInt8
  | .a, cfg => cfg.a
  | .b, cfg => cfg.b

/-- The write that stores it in the file's configuration. -/
def write : KeyByte → UInt8 → Write
  | .a, v => .a v
  | .b, v => .b v

/-- The read that fetches it from there. -/
def read : KeyByte → Read
  | .a => .a
  | .b => .b

theorem ofConfig_write (y : KeyByte) (v : UInt8) (file : CryptocardConfig) :
    y.ofConfig ((y.write v).apply file) = v := by
  cases y <;> rfl

theorem ofConfig_apply {y : KeyByte} {w : Write} (h : ∀ v, w ≠ y.write v)
    (file : CryptocardConfig) : y.ofConfig (w.apply file) = y.ofConfig file := by
  cases w with
  | a v =>
      cases y with
      | a => exact absurd rfl (h v)
      | b => rfl
  | b v =>
      cases y with
      | a => rfl
      | b => exact absurd rfl (h v)
  | isConfigset =>
      unfold Write.apply
      cases y <;> (dsimp only; split <;> rfl)
  | _ => cases y <;> rfl

theorem ofConfig_load (y : KeyByte) (r : Read) (file cfg : CryptocardConfig) :
    y.ofConfig (r.apply file cfg) = if r = y.read then y.ofConfig file else y.ofConfig cfg := by
  cases y <;> cases r <;> rfl

end KeyByte

/-- The byte is one of a key in the list. -/
def WasSet (keys : List CcKey) (y : KeyByte) (v : UInt8) : Prop := ∃ k ∈ keys, y.ofKey k = v

/-- The move opens the file. -/
def Move.Opens : Move n → Nat → Prop
  | .call _ e, fd => e.fd = fd ∧ ∃ mem, e.call = .fopen mem
  | _, _ => False

/-- Everything but an open of the file keeps the keys set on it. -/
theorem wasSet_snoc {ls : List (Move n)} {l : Move n} {fd : Nat} {y : KeyByte} {v : UInt8}
    (hopen : ¬ l.Opens fd) (h : WasSet (keysSince ls fd) y v) :
    WasSet (keysSince (ls ++ [l]) fd) y v := by
  obtain ⟨k, hk, hv⟩ := h
  refine ⟨k, ?_, hv⟩
  rw [keysSince_snoc]
  split
  · rename_i t e
    split
    · rename_i hfd
      split
      · rename_i a b hc
        exact absurd ⟨hfd, _, hc⟩ hopen
      · exact List.mem_append_left _ hk
      · exact hk
    · exact hk
  · exact hk

/-! ## Where a key byte can be -/

/-- The key bytes a task is about to write or has read. -/
structure TaskKeys (keys : List CcKey) (y : KeyByte) (t : Task) : Prop where
  writes : ∀ v, .store (y.write v) ∈ t.code → WasSet keys y v
  reads : (∃ st ∈ t.code, st.OfRequest) → .load y.read ∉ t.code → WasSet keys y (y.ofConfig t.cfg)

theorem TaskKeys.of_returned {keys : List CcKey} {y : KeyByte} {t : Task} (h : t.code = []) :
    TaskKeys keys y t :=
  ⟨by simp [h], by simp [h]⟩

/-- Fewer writes to come, and the same reads. -/
theorem TaskKeys.next {keys : List CcKey} {y : KeyByte} {t t' : Task} (h : TaskKeys keys y t)
    (hcfg : t'.cfg = t.cfg) (hstore : ∀ w, .store w ∈ t'.code → .store w ∈ t.code)
    (hreq : (∃ st ∈ t'.code, st.OfRequest) → ∃ st ∈ t.code, st.OfRequest)
    (hload : ∀ r, .load r ∈ t.code → .load r ∈ t'.code) : TaskKeys keys y t' where
  writes := fun v hv => h.writes v (hstore _ hv)
  reads := by
    intro hmem hr
    rw [hcfg]
    exact h.reads (hreq hmem) fun h' => hr (hload _ h')

/-- The next statement is over, and it was not a read. -/
theorem TaskKeys.tail {keys : List CcKey} {y : KeyByte} {t t' : Task} (h : TaskKeys keys y t)
    {st : Stmt} (hc : t.code = st :: t'.code) (hst : ∀ r, st ≠ .load r) (hcfg : t'.cfg = t.cfg) :
    TaskKeys keys y t' := by
  refine h.next hcfg (fun w hw => ?_) (fun ⟨x, hx, hreq⟩ => ⟨x, ?_, hreq⟩) (fun r hr => ?_)
  · rw [hc]
    exact List.mem_cons_of_mem _ hw
  · rw [hc]
    exact List.mem_cons_of_mem _ hx
  · rw [hc] at hr
    exact (List.mem_cons.mp hr).resolve_left fun heq => hst r heq.symm

/-- The call of a routine. -/
theorem TaskKeys.call {keys : List CcKey} {y : KeyByte} {t t' : Task} (h : TaskKeys keys y t)
    {st : Stmt} {code : List Stmt} {is : List Instr} (hc : t.code = st :: code)
    (hc' : t'.code = is.map .instr ++ code) (hst : st.OfRequest) (hload : ∀ r, st ≠ .load r)
    (hcfg : t'.cfg = t.cfg) : TaskKeys keys y t' := by
  refine h.next hcfg (fun w hw => ?_) (fun _ => ⟨st, by simp [hc], hst⟩) (fun r hr => ?_)
  · rw [hc'] at hw
    rw [hc]
    refine List.mem_cons_of_mem _ ((List.mem_append.mp hw).resolve_left fun hi => ?_)
    obtain ⟨i, -, heq⟩ := List.mem_map.mp hi
    exact nomatch heq
  · rw [hc] at hr
    rw [hc']
    exact List.mem_append_right _ ((List.mem_cons.mp hr).resolve_left fun heq => hload r heq.symm)

/-- A statement moves key bytes between the file and the locals, and makes none up. -/
theorem exec_keys {keys : List CcKey} {y : KeyByte} {t t' : Task} {s s' : Sys}
    (ht : TaskKeys keys y t)
    (hfile : ∀ file, s.files t.ev.fd = some file → WasSet keys y (y.ofConfig file))
    (h : ExecCase t s t' s') :
    TaskKeys keys y t'
      ∧ ∀ file, s'.files t.ev.fd = some file → WasSet keys y (y.ofConfig file) := by
  cases h with
  | @store w code file hc hf =>
      refine ⟨ht.tail hc (by simp) rfl, ?_⟩
      intro file' hf'
      have heq : file' = w.apply file := by
        simpa [Sys.setFile, eq_comm] using hf'
      subst heq
      by_cases hw : ∃ v, w = y.write v
      · obtain ⟨v, rfl⟩ := hw
        rw [KeyByte.ofConfig_write]
        exact ht.writes v (by simp [hc])
      · rw [KeyByte.ofConfig_apply fun v hv => hw ⟨v, hv⟩]
        exact hfile file hf
  | @load r code file hc hf =>
      refine ⟨⟨fun v hv => ht.writes v (by rw [hc]; exact List.mem_cons_of_mem _ hv), ?_⟩, hfile⟩
      intro hmem hr
      dsimp only at hmem hr ⊢
      rw [KeyByte.ofConfig_load]
      split
      · exact hfile file hf
      · rename_i hne
        refine ht.reads ⟨.load r, by simp [hc], trivial⟩ fun h' => ?_
        rw [hc] at h'
        rcases List.mem_cons.mp h' with heq | h'
        · exact hne (Stmt.load.inj heq).symm
        · exact hr h'
  | lock hc => exact ⟨ht.tail hc (by simp) rfl, hfile⟩
  | writeKey hc => exact ⟨ht.tail hc (by simp) rfl, hfile⟩
  | copyIn hc => exact ⟨ht.tail hc (by simp) rfl, hfile⟩
  | transfer hc => exact ⟨ht.call hc rfl trivial (by simp) rfl, hfile⟩
  | transferMapped hc => exact ⟨ht.call hc rfl trivial (by simp) rfl, hfile⟩
  | instr hc => exact ⟨ht.tail hc (by simp) rfl, hfile⟩
  | copyOut hc => exact ⟨ht.tail hc (by simp) rfl, hfile⟩
  | fault hc => exact ⟨.of_returned rfl, hfile⟩
  | unlock hc => exact ⟨ht.tail hc (by simp) rfl, hfile⟩

/-- What a call starts with: the bytes of the key it sets, and no read made. -/
theorem enter_keys {keys : List CcKey} (y : KeyByte) {e : Event} {cmd : Cmd}
    (hkeys : ∀ k, cmd = .setKey k → k ∈ keys) : TaskKeys keys y (.enter e cmd) where
  writes := by
    intro v hv
    have hbody : .store (y.write v) ∈ cmd.body := hv
    cases cmd with
    | setKey k =>
        refine ⟨k, hkeys k rfl, ?_⟩
        cases y <;> simpa [Cmd.body, KeyByte.write, KeyByte.ofKey, eq_comm] using hbody
    | setConfig cfg =>
        simp only [Cmd.body, List.mem_cons, Stmt.store.injEq, List.not_mem_nil, or_false] at hbody
        exfalso
        split at hbody <;> cases y <;> simp [KeyByte.write] at hbody
    | encrypt ccop =>
        exfalso
        simp only [Cmd.body, requestBody] at hbody
        split at hbody <;> simp [loads, drive] at hbody
    | decrypt ccop =>
        exfalso
        simp only [Cmd.body, requestBody] at hbody
        split at hbody <;> simp [loads, drive] at hbody
    | other c => simp [Cmd.body] at hbody
  reads := fun ⟨_, hmem, hst⟩ hr => absurd (body_loads hmem hst _) hr

/-- Every key byte in a file's configuration, on its way there or read from there was set on the
file. -/
structure Par.KeysOk (ls : List (Move n)) (p : Par n) (y : KeyByte) : Prop where
  file : ∀ fd file, p.sys.files fd = some file →
    WasSet (keysSince ls fd) y (y.ofConfig file)
  task : ∀ t, TaskKeys (keysSince ls (p.tasks t).ev.fd) y (p.tasks t)

theorem TaskKeys.snoc {ls : List (Move n)} {l : Move n} {fd : Nat} {y : KeyByte} {t : Task}
    (hopen : ¬ l.Opens fd)
    (h : TaskKeys (keysSince ls fd) y t) : TaskKeys (keysSince (ls ++ [l]) fd) y t :=
  ⟨fun v hv => wasSet_snoc hopen (h.writes v hv), fun hm hr => wasSet_snoc hopen (h.reads hm hr)⟩

theorem keysOk_start (s : Sys) (hs : s.files = fun _ => none) (y : KeyByte) :
    (Par.start (n := n) s).KeysOk [] y where
  file := by
    intro fd file hf
    simp [Par.start, hs] at hf
  task := fun _ => .of_returned rfl

/-- A task moves on, and the files hold bytes that were set. -/
theorem Par.KeysOk.update {ls : List (Move n)} {p : Par n} {y : KeyByte} (h : p.KeysOk ls y)
    {l : Move n} (hl : ∀ fd, ¬ l.Opens fd) {t : Fin n} {t' : Task} {s' : Sys}
    (ht : TaskKeys (keysSince (ls ++ [l]) t'.ev.fd) y t')
    (hfile : ∀ fd file, s'.files fd = some file → WasSet (keysSince ls fd) y (y.ofConfig file)) :
    (p.update t t' s').KeysOk (ls ++ [l]) y := by
  refine ⟨fun fd file hf => wasSet_snoc (hl fd) (hfile fd file hf), ?_⟩
  exact Pool.forall_update (P := fun _ (t : Task) => TaskKeys (keysSince (ls ++ [l]) t.ev.fd) y t)
    ht (fun i _ => (h.task i).snoc (hl _)) s'

/-- No task moves, and no file is new or changed. -/
theorem Par.KeysOk.setSys {ls : List (Move n)} {p : Par n} {y : KeyByte} (h : p.KeysOk ls y)
    {l : Move n} (hl : ∀ fd, ¬ l.Opens fd) {s' : Sys}
    (hfile : ∀ fd file, s'.files fd = some file → p.sys.files fd = some file) :
    Par.KeysOk (ls ++ [l]) { p with sys := s' } y :=
  ⟨fun fd file hf => wasSet_snoc (hl fd) (h.file fd file (hfile fd file hf)),
    fun i => (h.task i).snoc (hl _)⟩

theorem keysOk_fopen {ls : List (Move n)} {p : Par n} {y : KeyByte} (h : p.KeysOk ls y)
    (hopen : p.IsOpen) {t : Fin n} {e : Event} {mem : Option (UInt8 × UInt8)}
    (hc : e.call = .fopen mem) (hf : p.sys.files e.fd = none) :
    Par.KeysOk (ls ++ [.call t e]) { p with sys := (cryptocardFopen mem e.fd p.sys).2 } y := by
  have hnot : ∀ {fd}, fd ≠ e.fd → ¬ (Move.call t e).Opens fd := fun hne ho => hne ho.1.symm
  refine ⟨fun fd file hfd => ?_, fun i => ?_⟩
  · by_cases heq : fd = e.fd
    · subst heq
      cases mem with
      | none => exact absurd (hf.symm.trans hfd) (by simp)
      | some ab =>
          have hfile : file = ⟨ab.1, ab.2, 0, 0, 0, 0⟩ := by
            simpa [cryptocardFopen, Sys.setFile, eq_comm] using hfd
          rw [keysSince_snoc, hfile]
          refine ⟨⟨ab.1, ab.2⟩, by simp [hc], ?_⟩
          cases y <;> rfl
    · have hfd' : p.sys.files fd = some file := by
        cases mem with
        | none => exact hfd
        | some ab => simpa [cryptocardFopen, Sys.setFile, heq] using hfd
      exact wasSet_snoc (hnot heq) (h.file fd file hfd')
  · -- a call in progress is on a file that was open already
    by_cases hi : (p.tasks i).code = []
    · exact .of_returned hi
    · refine (h.task i).snoc (hnot fun heq => ?_)
      have hsome := hopen i hi
      rw [heq, hf] at hsome
      exact absurd hsome (by simp)

theorem keysOk_frelease {ls : List (Move n)} {p : Par n} {y : KeyByte} (h : p.KeysOk ls y)
    {t : Fin n} {e : Event} (hc : e.call = .frelease) :
    Par.KeysOk (ls ++ [.call t e]) { p with sys := (cryptocardFrelease e.fd p.sys).2 } y := by
  refine h.setSys (fun fd ho => ?_) fun fd file hfd => ?_
  · obtain ⟨-, mem, hmem⟩ := ho
    exact absurd (hc.symm.trans hmem) (by simp)
  · by_cases heq : fd = e.fd
    · subst heq
      simp [cryptocardFrelease, Sys.setFile] at hfd
    · simpa [cryptocardFrelease, Sys.setFile, heq] using hfd

theorem keysOk_ioctl {ls : List (Move n)} {p : Par n} {y : KeyByte} (h : p.KeysOk ls y)
    {t : Fin n} {e : Event} {cmd : Cmd} (hc : e.call = .ioctl cmd) :
    (p.update t (.enter e cmd) p.sys).KeysOk (ls ++ [.call t e]) y := by
  refine h.update (fun fd ho => ?_) (enter_keys y fun k hk => ?_) h.file
  · obtain ⟨-, mem, hmem⟩ := ho
    exact absurd (hc.symm.trans hmem) (by simp)
  · subst hk
    rw [show (Task.enter e (Cmd.setKey k)).ev.fd = e.fd from rfl, keysSince_snoc]
    simp [hc]

theorem keysOk_exec {ls : List (Move n)} {p : Par n} {y : KeyByte} (h : p.KeysOk ls y) {t : Fin n}
    {t' : Task} {s' : Sys} (hexec : ExecCase (p.tasks t) p.sys t' s') :
    (p.update t t' s').KeysOk (ls ++ [.exec t]) y := by
  obtain ⟨htask, hfile⟩ := exec_keys (h.task t) (h.file _) hexec
  rw [← hexec.ev] at htask
  refine h.update (fun _ => id) (htask.snoc id) fun fd file hf => ?_
  by_cases hfd : fd = (p.tasks t).ev.fd
  · subst hfd
    exact hfile file hf
  · exact h.file fd file ((hexec.files_other hfd).symm.trans hf)

theorem keysOk_step {ls : List (Move n)} {p p' : Par n} {y : KeyByte} {l : Move n}
    (h : p.KeysOk ls y) (hopen : p.IsOpen) (hs : p.step E l = some p') :
    p'.KeysOk (ls ++ [l]) y := by
  cases move_cases hs with
  | fopen hidle hc hf => exact keysOk_fopen h hopen hc hf
  | frelease hidle hc hf hunused => exact keysOk_frelease h hc
  | ioctl hidle hc hf => exact keysOk_ioctl h hc
  | exec hexec => exact keysOk_exec h (exec_cases hexec)
  | @signal t code hc =>
      have htask : TaskKeys (keysSince ls (p.tasks t).ev.fd) y { p.tasks t with code := code } :=
        (h.task t).tail hc (by simp) rfl
      exact h.update (fun _ => id) (htask.snoc id) h.file
  | tick hjob => exact h.setSys (fun _ => id) fun _ _ hf => hf
  | irq hirq => exact h.setSys (fun _ => id) fun _ _ hf => hf

/-- The reads of the configuration come before everything but the lock. -/
def ReadsFirst (code : List Stmt) : Prop :=
  code.Pairwise fun st next => ∀ r, next = .load r → st = .spinLock ∨ ∃ r', st = .load r'

theorem ReadsFirst.call {st : Stmt} {code : List Stmt} (h : ReadsFirst (st :: code))
    (hlock : st ≠ .spinLock) (hload : ∀ r, st ≠ .load r) (is : List Instr) :
    ReadsFirst (is.map .instr ++ code) := by
  obtain ⟨hhead, hcode⟩ := List.pairwise_cons.mp h
  refine List.pairwise_append.mpr ⟨?_, hcode, fun _ _ next hnext r heq => ?_⟩
  · refine List.pairwise_map.mpr (List.pairwise_of_forall fun _ _ r heq => ?_)
    exact nomatch heq
  · rcases hhead next hnext r heq with heq' | ⟨r', heq'⟩
    · exact absurd heq' hlock
    · exact absurd heq' (hload r')

theorem readsFirst_body (cmd : Cmd) : ReadsFirst cmd.body := by
  cases cmd with
  | setKey cckey => simp [ReadsFirst, Cmd.body]
  | setConfig cfg => simp [ReadsFirst, Cmd.body]
  | encrypt ccop =>
      simp only [ReadsFirst, Cmd.body, requestBody]
      split <;> simp [loads, drive]
  | decrypt ccop =>
      simp only [ReadsFirst, Cmd.body, requestBody]
      split <;> simp [loads, drive]
  | other c => simp [ReadsFirst, Cmd.body]

theorem readsFirst : CodeInv ReadsFirst where
  body := readsFirst_body
  tail := List.Pairwise.of_cons
  unmapped := fun _ _ _ h => h.call (by simp) (by simp) _
  mapped := fun _ _ h => h.call (by simp) (by simp) _

theorem keysOk_runs {s₀ : Sys} (h₀ : s₀.files = fun _ => none) (ls : List (Move n)) {p : Par n}
    (hrun : runs (Par.step E) (Par.start s₀) ls = some p) (y : KeyByte) : p.KeysOk ls y := by
  have htrack : ∀ p, runs (Par.step E) (Par.start s₀) ls = some p → p.KeysOk ls y ∧ p.IsOpen :=
    runs_track (P := fun h (p : Par n) => p.KeysOk h y ∧ p.IsOpen)
      ⟨keysOk_start s₀ h₀ y, fun _ hne => absurd rfl hne⟩
      (fun _ _ _ _ _ ⟨hkeys, hopen⟩ hs => ⟨keysOk_step E hkeys hopen hs, isOpen_step E hopen hs⟩) ls
  exact (htrack p hrun).1

/-- A request that has made its reads has bytes that were set. -/
theorem config_was_set {s₀ : Sys} (h₀ : s₀.files = fun _ => none) {ls : List (Move n)} {p : Par n}
    (hrun : runs (Par.step E) (Par.start s₀) ls = some p) {t : Fin n}
    (hreq : ∃ st ∈ (p.tasks t).code, st.OfRequest) (hload : ∀ r, .load r ∉ (p.tasks t).code) :
    ∃ k₁ ∈ keysSince ls (p.tasks t).ev.fd, ∃ k₂ ∈ keysSince ls (p.tasks t).ev.fd,
      k₁.a = (p.tasks t).cfg.a ∧ k₂.b = (p.tasks t).cfg.b := by
  have hread : ∀ y : KeyByte, WasSet (keysSince ls (p.tasks t).ev.fd) y
      (y.ofConfig (p.tasks t).cfg) :=
    fun y => ((keysOk_runs E h₀ ls hrun y).task t).reads hreq (hload y.read)
  obtain ⟨k₁, hk₁, ha⟩ := hread .a
  obtain ⟨k₂, hk₂, hb⟩ := hread .b
  exact ⟨k₁, hk₁, k₂, hk₂, ha, hb⟩

/--
**The key a request writes was set on its file, byte by byte.**

In every interleaving, of any calls on any files, with signals, mapped requests and copies
that fail: when a request writes its key to the card, the two halves are halves of keys
set on the request's file since it was opened, or of the one the file's memory held before.
They need not be halves of one key.
-/
theorem request_key_was_set {s₀ : Sys} (h₀ : s₀.files = fun _ => none) (ls : List (Move n))
    {p : Par n} (hrun : runs (Par.step E) (Par.start s₀) ls = some p) {t : Fin n}
    {code : List Stmt} (hc : (p.tasks t).code = .writeKey :: code) :
    ∃ k₁ ∈ keysSince ls (p.tasks t).ev.fd, ∃ k₂ ∈ keysSince ls (p.tasks t).ev.fd,
      ∃ p', p.step E (.exec t) = some p'
        ∧ p'.sys.m.card.key = k₁.a.toUInt32 <<< 8 ||| k₂.b.toUInt32 := by
  have hfirst : ReadsFirst (.writeKey :: code) := hc ▸ readsFirst.runs hrun t
  have hload : ∀ r, .load r ∉ (p.tasks t).code := by
    intro r hmem
    rw [hc] at hmem
    rcases List.mem_cons.mp hmem with heq | hmem
    · exact nomatch heq
    · simpa using (List.pairwise_cons.mp hfirst).1 _ hmem r rfl
  obtain ⟨k₁, hk₁, k₂, hk₂, ha, hb⟩ :=
    config_was_set E h₀ hrun ⟨.writeKey, by simp [hc], trivial⟩ hload
  have hs : p.step E (.exec t) = some (p.update t { p.tasks t with code := code }
      { p.sys with m := p.sys.m.keyed (p.tasks t).ev.env.latency (p.tasks t).cfg }) := by
    simp only [Par.step, Task.exec, hc, Option.map_some]
  refine ⟨k₁, hk₁, k₂, hk₂, _, hs, ?_⟩
  rw [ha, hb]
  rfl

/-- Task 0 sets the key (30, 17) and later (5, 6), while task 1 encrypts a byte: it reads its `a`
before the second key is set and its `b` after, and is about to write the key. -/
def tearing : List (Move 2) :=
  [.call task₀ ⟨1, 3, Env.calm, .fopen (some (0, 0))⟩,
      .call task₀ ⟨1, 3, Env.calm, .ioctl (.setKey ⟨30, 17⟩)⟩] ++ Move.execs task₀ 3
    ++ [.call task₁ ⟨1, 3, Env.calm, .ioctl (.encrypt ⟨4096, 1, 0⟩)⟩] ++ Move.execs task₁ 2
    ++ [.call task₀ ⟨1, 3, Env.calm, .ioctl (.setKey ⟨5, 6⟩)⟩] ++ Move.execs task₀ 3
    ++ Move.execs task₁ 3

/-- The request writes (30, 6), which nobody has set. -/
theorem tearing_mixes_keys :
    ∃ p, runs (Par.step genCipher) (Par.start (Sys.probed fun _ _ => 65)) tearing = some p
      ∧ keysSince tearing (p.tasks 1).ev.fd = [⟨0, 0⟩, ⟨30, 17⟩, ⟨5, 6⟩]
      ∧ (p.step genCipher (.exec 1)).map (fun p' => p'.sys.m.card.key) = some (0x1e06 : UInt32)
      ∧ ∃ k₁ ∈ keysSince tearing (p.tasks 1).ev.fd, ∃ k₂ ∈ keysSince tearing (p.tasks 1).ev.fd,
        ∃ p', p.step genCipher (.exec 1) = some p'
          ∧ p'.sys.m.card.key = k₁.a.toUInt32 <<< 8 ||| k₂.b.toUInt32 := by
  have hfiles : (Sys.probed fun _ _ => 65).files = fun _ => none := rfl
  exact ⟨_, rfl, rfl, rfl, request_key_was_set genCipher hfiles tearing rfl rfl⟩

/-- The holder of the lock has finished its routine when only the copy out is left. -/
theorem drives_result {t : Task} {decrypt : Bool} {user : Nat → Mem UInt8} {m₀ m : Machine}
    (hd : t.Drives E decrypt user m₀ m) (hc : t.code = [.copyOut, .spinUnlock]) :
    t.result E decrypt user m₀ = some ⟨m, t.buff⟩ := by
  cases hd with
  | @loading reads _ hc' _ =>
      have := congrArg List.length (hc.symm.trans hc')
      simp [drive] at this
  | keyed hc' _ => simp [hc] at hc'
  | copied hc' _ _ => simp [hc] at hc'
  | @moving is mine hc' hphase hout =>
      cases is with
      | nil => rw [← hout, upshot_of_none E _ _ hphase.atRest.irqs]; rfl
      | cons i is => simp [hc] at hc'
  | leaving hc' _ => simp [hc] at hc'

/-- An undisturbed request that is about to copy out has transformed exactly the bytes it copied in,
under such a key pair. -/
theorem request_data_under_set_key {s₀ : Sys} (h₀ : s₀.Initial)
    (hdone : s₀.m.card.finished = s₀.m.card.started) (ls : List (Move n))
    (hls : ∀ l ∈ ls, l.Undisturbed) {p : Par n}
    (hrun : runs (Par.step E) (Par.start s₀) ls = some p) {t : Fin n}
    (hc : (p.tasks t).code = [.copyOut, .spinUnlock])
    (hlen : (p.tasks t).ccop.length.toNat < 2 ^ 32) :
    ∃ decrypt : Bool, ∃ k₁ ∈ keysSince ls (p.tasks t).ev.fd, ∃ k₂ ∈ keysSince ls (p.tasks t).ev.fd,
      (p.tasks t).ev.call
          = .ioctl (if decrypt then .decrypt (p.tasks t).ccop else .encrypt (p.tasks t).ccop)
      ∧ (p.tasks t).buff
          = (copyFromUser (p.tasks t).ev.env (p.sys.user (p.tasks t).ev.pid) (p.tasks t).ccop.addr
              (p.tasks t).ccop.length.toNat).map
            (if decrypt then ⇑(E k₁.a k₂.b).symm else ⇑(E k₁.a k₂.b)) := by
  have hrest : s₀.m.AtRest := ⟨⟨h₀.job, h₀.irqs, h₀.flag⟩, hdone⟩
  obtain ⟨holder, m₀, hsound⟩ := sound_runs E h₀.lock hrest hls hrun
  obtain ⟨k₁, hk₁, k₂, hk₂, ha, hb⟩ :=
    config_was_set E h₀.files hrun (t := t) ⟨.copyOut, by simp [hc], trivial⟩ (by simp [hc])
  have hholder : holder = some t := by
    by_contra hne
    cases hsound.outside t hne with
    | configuring ws hc' =>
        rw [hc] at hc'
        cases ws <;> simp at hc'
    | waiting _ _ hc' => simp [hc] at hc'
  obtain ⟨-, decrypt, hreq, hd⟩ := hsound.held t hholder
  refine ⟨decrypt, k₁, hk₁, k₂, hk₂, hreq.call, ?_⟩
  have hu : (p.tasks t).ccop.length.toUInt32.toNat = (p.tasks t).ccop.length.toNat := by
    rw [UInt64.toNat_toUInt32]
    exact Nat.mod_eq_of_lt hlen
  obtain ⟨m', hrun', -⟩ := unmapped_spec E hreq.noSignal decrypt (p.tasks t).cfg
    (p.tasks t).ccop.length
    (f := ⟨m₀.keyed (p.tasks t).ev.env.latency (p.tasks t).cfg,
      copyFromUser (p.tasks t).ev.env (p.sys.user (p.tasks t).ev.pid) (p.tasks t).ccop.addr
        (p.tasks t).ccop.length.toNat⟩)
    (keyed_atRest hsound.rest _ _).toQuiet (by rw [length_copyFromUser, hu])
  have hbuff := congrArg Frame.data (Option.some.inj ((drives_result E hd hc).symm.trans hrun'))
  have hkey : (m₀.keyed (p.tasks t).ev.env.latency (p.tasks t).cfg).card.key
      = (p.tasks t).cfg.a.toUInt32 <<< 8 ||| (p.tasks t).cfg.b.toUInt32 := rfl
  rw [hkey, crypt_word, ← ha, ← hb] at hbuff
  exact hbuff

end LinuxDrivers.Card
