import Mathlib.Tactic.IntervalCases
import LinuxDrivers.Cs614.Commands
import LinuxDrivers.Cs614.Threads

/-!
# The driver of Part 1, statement by statement

Part 1 has no mutex. A store changes `cs614_value` with one write, but a read looks at it
once for each of its five tests, and it is `volatile`: between two tests another thread may
have stored another number.

Exactly one thing goes wrong. A read one of whose tests succeeds answers the number that is
set at that moment, so these reads and all stores are a history of the driver that serves
one call at a time. But a store may take the number from in front of the read to behind it.
The read then falls through all its tests and returns `-EINVAL`, though every number there
was is a command. It takes a store of a smaller number to bring this about: where the
numbers only grow, no schedule does, and as soon as one is smaller than the one before,
some schedule does.
-/

namespace LinuxDrivers.Cs614.Part1

/-- The statement a thread is at. -/
inductive Pc where
  /-- In no call. -/
  | idle
  /-- `sscanf` in `sysfs_store` -/
  | sscanf
  /-- `if (length < sizeof(int))` in `demo_read` -/
  | length
  /-- `cs614_value == k` -/
  | test (k : Nat)
  /-- `return`, in both -/
  | ret
  deriving DecidableEq

structure Thread where
  /-- The call it is in, or was in last. -/
  call : Call
  pc : Pc
  /-- What the call returns. -/
  reply : Reply

def Thread.enter (th : Thread) (c : Call) : Thread :=
  match c with
  | .store .. => { th with call := c, pc := .sscanf }
  | .read _ => { th with call := c, pc := .length }

/-- What `demo_read` does if the test for `k` succeeds. -/
def branch (r : Read) (k : Nat) : Reply :=
  let about (f : Task → String) : Reply :=
    match r.task with
    | none => fail esrch
    | some t => put r.length (f t)
  match k with
  | 0 => put r.length (toString r.current.pid)
  | 1 => about (fun t => toString t.staticPrio)
  | 2 => about (fun t => t.comm)
  | 3 => about (fun t => toString t.parentPid)
  | _ => about (fun t => toString t.nvcsw)

/-- The next statement of a thread. Each test loads `cs614_value` again. -/
def Thread.exec (th : Thread) (value : Int) : Option (Thread × Int) :=
  match th.pc, th.call with
  | .sscanf, .store _ buf =>
    some ({ th with pc := .ret, reply := ⟨buf.length, none⟩ }, (Cs614.sscanf buf).getD value)
  | .length, .read r =>
    if r.length < 4 then some ({ th with pc := .ret, reply := fail einval }, value)
    else some ({ th with pc := .test 0 }, value)
  | .test k, .read r =>
    if value = k then some ({ th with pc := .ret, reply := branch r k }, value)
    else if k < 4 then some ({ th with pc := .test (k + 1) }, value)
    else some ({ th with pc := .ret, reply := fail einval }, value)
  | .ret, _ => some ({ th with pc := .idle }, value)
  | _, _ => none

/-! ## All threads together -/

/-- A thread makes a call when it is in none. -/
def program : Program Int Thread Call Unit where
  enter c th := if th.pc = .idle then some (th.enter c) else none
  exec _ th value := th.exec value

/-- All threads share `cs614_value`, and nothing else. -/
abbrev World (n : Nat) := Pool n Int Thread

abbrev Step (n : Nat) := Move n Call Unit

variable {n : Nat}

abbrev World.step : World n → Step n → Option (World n) := program.step

/-- As the module is loaded, with `threads` in no call. -/
def World.loaded (threads : Fin n → Thread) : World n := ⟨0, threads⟩

/-- The call whose reply is settled by the next statement. -/
def Thread.settles (t : Fin n) (th : Thread) (value : Int) : Option (Done n Call Reply) :=
  (th.exec value).bind fun r => if r.1.pc = .ret then some ⟨t, r.1.call, r.1.reply⟩ else none

def World.settles : World n → Step n → Option (Done n Call Reply) :=
  Pool.event fun t _ th value => th.settles t value

/-- A read fails the last of its tests. -/
def World.Misses (w : World n) : Step n → Prop
  | .call .. => False
  | .exec t _ => (w.tasks t).pc = .test 4 ∧ w.sys ≠ 4

instance (w : World n) : DecidablePred w.Misses
  | .call .. => inferInstanceAs (Decidable False)
  | .exec t _ => inferInstanceAs (Decidable ((w.tasks t).pc = .test 4 ∧ w.sys ≠ 4))

/-- The call that returns with the next statement. -/
def Thread.returned (t : Fin n) (th : Thread) : Option (Done n Call Reply) :=
  if th.pc = .ret then some ⟨t, th.call, th.reply⟩ else none

/-- The number a thread stores with its next statement. -/
def Thread.writes (th : Thread) : Option Int :=
  match th.pc, th.call with
  | .sscanf, .store _ buf => Cs614.sscanf buf
  | _, _ => none

def World.writes : World n → Step n → Option Int := Pool.event fun _ _ th _ => th.writes

/-- The calls that are settled in a run, in this order. -/
def settled (w : World n) (ms : List (Step n)) : List (Done n Call Reply) :=
  commits World.step World.settles w ms

/-- Those that have not fallen through. -/
def taken (w : World n) (ms : List (Step n)) : List (Done n Call Reply) :=
  commits World.step (fun w m => if w.Misses m then none else w.settles m) w ms

/-- The reads that have fallen through. -/
def missed (w : World n) (ms : List (Step n)) : List (Done n Call Reply) :=
  commits World.step (fun w m => if w.Misses m then w.settles m else none) w ms

/-- The calls that return in a run. -/
def finished (w : World n) (ms : List (Step n)) : List (Done n Call Reply) :=
  commits World.step (Pool.event fun t _ th _ => th.returned t) w ms

/-- The numbers stored in a run. -/
def written (w : World n) (ms : List (Step n)) : List Int := commits World.step World.writes w ms

/-! ## What a statement can do -/

/-- A statement of a thread, by what it does. -/
inductive ExecCase (th : Thread) (value : Int) : Thread → Int → Prop where
  | store {pid buf} (pc : th.pc = .sscanf) (call : th.call = .store pid buf) :
    ExecCase th value { th with pc := .ret, reply := ⟨buf.length, none⟩ }
      ((Cs614.sscanf buf).getD value)
  | short {r} (pc : th.pc = .length) (call : th.call = .read r) (short : r.length < 4) :
    ExecCase th value { th with pc := .ret, reply := fail einval } value
  | long {r} (pc : th.pc = .length) (call : th.call = .read r) (long : 4 ≤ r.length) :
    ExecCase th value { th with pc := .test 0 } value
  | found {r} {k : Nat} (pc : th.pc = .test k) (call : th.call = .read r) (eq : value = k) :
    ExecCase th value { th with pc := .ret, reply := branch r k } value
  | next {r} {k : Nat} (pc : th.pc = .test k) (call : th.call = .read r) (ne : value ≠ k)
    (more : k < 4) : ExecCase th value { th with pc := .test (k + 1) } value
  | missed {r} {k : Nat} (pc : th.pc = .test k) (call : th.call = .read r) (ne : value ≠ k)
    (last : 4 ≤ k) : ExecCase th value { th with pc := .ret, reply := fail einval } value
  | ret (pc : th.pc = .ret) : ExecCase th value { th with pc := .idle } value

theorem exec_cases {th th' : Thread} {value value' : Int} (h : th.exec value = some (th', value')) :
    ExecCase th value th' value' := by
  unfold Thread.exec at h
  split at h
  · rename_i pid buf hpc hcall
    cases h
    exact .store hpc hcall
  · rename_i r hpc hcall
    split at h <;> rename_i hlen <;> cases h
    · exact .short hpc hcall hlen
    · exact .long hpc hcall (Nat.le_of_not_lt hlen)
  · rename_i k r hpc hcall
    split at h
    · rename_i heq
      cases h
      exact .found hpc hcall heq
    · rename_i hne
      split at h <;> rename_i hk <;> cases h
      · exact .next hpc hcall hne hk
      · exact .missed hpc hcall hne (Nat.le_of_not_lt hk)
  · rename_i hpc
    cases h
    exact .ret hpc
  · exact absurd h (by simp)

theorem exec_next {th : Thread} {r : Read} {k : Nat} {value : Int} (hpc : th.pc = .test k)
    (hcall : th.call = .read r) (hne : value ≠ k) (hk : k < 4) :
    th.exec value = some ({ th with pc := .test (k + 1) }, value) := by
  simp [Thread.exec, hpc, hcall, hne, hk]

theorem exec_miss {th : Thread} {r : Read} {value : Int} (hpc : th.pc = .test 4)
    (hcall : th.call = .read r) (hne : value ≠ 4) :
    th.exec value = some ({ th with pc := .ret, reply := fail einval }, value) := by
  simp [Thread.exec, hpc, hcall, hne]

/-- The places a thread can be at: a test is one of five, and made by a read that is long enough. -/
def Thread.Sound (th : Thread) : Prop :=
  ∀ k, th.pc = .test k → k ≤ 4 ∧ ∃ r, th.call = .read r ∧ 4 ≤ r.length

theorem sound_of_pc {th : Thread} (h : ∀ k, th.pc ≠ .test k) : th.Sound :=
  fun k hk => absurd hk (h k)

theorem enter_sound (th : Thread) (c : Call) : (th.enter c).Sound :=
  sound_of_pc fun k => by cases c <;> exact fun h => nomatch h

theorem exec_sound {th th' : Thread} {value value' : Int} (h : th.Sound)
    (hexec : th.exec value = some (th', value')) : th'.Sound := by
  cases exec_cases hexec with
  | long hpc hcall hlen =>
      intro k hk
      obtain rfl : 0 = k := Pc.test.inj hk
      exact ⟨Nat.zero_le 4, _, hcall, hlen⟩
  | next hpc hcall hne hmore =>
      intro k hk
      obtain rfl := Pc.test.inj hk
      exact ⟨hmore, (h _ hpc).2⟩
  | _ => exact sound_of_pc fun k hk => nomatch hk

theorem sound_step {w w' : World n} (h : ∀ t, (w.tasks t).Sound) {m : Step n}
    (hs : w.step m = some w') : ∀ t, (w'.tasks t).Sound := by
  refine Program.forall_step (I := Thread.Sound) (fun c th th' henter => ?_)
    (fun _ _ _ _ _ hth hexec => exec_sound hth hexec) h hs
  obtain ⟨-, ⟨⟩⟩ := Option.ite_none_right_eq_some.mp henter
  exact enter_sound th c

/-! ## Reads that are answered -/

theorem demoRead_of_test {r : Read} (hlen : 4 ≤ r.length) {k : Nat} (hk : k ≤ 4) :
    demoRead r k = branch r k := by
  unfold demoRead serve branch
  rw [if_neg (Nat.not_lt.mpr hlen)]
  interval_cases k <;> rfl

theorem demoRead_short {r : Read} (hlen : r.length < 4) (value : Int) :
    demoRead r value = fail einval := if_pos hlen

/-- The serial driver has the same number. -/
structure Follows (w : World n) (value : Int) : Prop where
  value : value = w.sys
  sound : ∀ t, (w.tasks t).Sound

theorem settles_eq {t : Fin n} {th th' : Thread} {value value' : Int}
    (hexec : th.exec value = some (th', value')) :
    th.settles t value = if th'.pc = .ret then some ⟨t, th'.call, th'.reply⟩ else none := by
  simp only [Thread.settles, hexec, Option.bind_some]

/-- A statement settles nothing, or a call that the serial driver takes, or lets a read fall
through. -/
theorem exec_takes {w : World n} (h : ∀ t, (w.tasks t).Sound) {t : Fin n} {th : Thread}
    {value : Int} (hexec : (w.tasks t).exec w.sys = some (th, value)) :
    Commits machine.take
      (if w.Misses (.exec t ()) then none else (w.tasks t).settles t w.sys) w.sys value := by
  rw [settles_eq hexec]
  -- all but the last test cannot be missed
  have hreach : ∀ {k : Nat}, (w.tasks t).pc = .test k → k ≠ 4 ∨ w.sys = 4 →
      ¬w.Misses (.exec t ()) := by
    rintro k hpc hk ⟨hpc', hne⟩
    rcases hk with hk | hk
    · exact hk (Pc.test.inj (hpc.symm.trans hpc'))
    · exact hne hk
  have hother : (∀ k, (w.tasks t).pc ≠ .test k) → ¬w.Misses (.exec t ()) :=
    fun hpc hm => hpc 4 hm.1
  cases exec_cases hexec with
  | store hpc hcall =>
      rw [if_neg (hother (by simp [hpc])), if_pos rfl]
      exact machine.commits_take hcall rfl rfl
  | short hpc hcall hlen =>
      rw [if_neg (hother (by simp [hpc])), if_pos rfl]
      exact machine.commits_take hcall (demoRead_short hlen _) rfl
  | long hpc hcall hlen =>
      rw [if_neg (hother (by simp [hpc])), if_neg (by simp)]
      rfl
  | @found r k hpc hcall heq =>
      obtain ⟨hk, r', hcall', hlen⟩ := h t k hpc
      obtain rfl := Call.read.inj (hcall.symm.trans hcall')
      have hsame : k ≠ 4 ∨ w.sys = 4 := by omega
      rw [if_neg (hreach hpc hsame), if_pos rfl]
      refine machine.commits_take hcall ?_ rfl
      rw [heq]
      exact demoRead_of_test hlen hk
  | next hpc hcall hne hmore =>
      rw [if_neg (hreach hpc (Or.inl (Nat.ne_of_lt hmore))), if_neg (by simp)]
      rfl
  | missed hpc hcall hne hlast =>
      obtain ⟨hk, -⟩ := h t _ hpc
      obtain rfl := Nat.le_antisymm hk hlast
      rw [if_pos ⟨hpc, hne⟩]
      rfl
  | ret hpc =>
      rw [if_neg (hother (by simp [hpc])), if_neg (by simp)]
      rfl

theorem follows_step {w w' : World n} {value : Int} (h : Follows w value) {m : Step n}
    (hs : w.step m = some w') :
    ∃ value', Commits machine.take (if w.Misses m then none else w.settles m) value value'
      ∧ Follows w' value' := by
  obtain ⟨rfl, hsound⟩ := h
  refine ⟨w'.sys, ?_, rfl, sound_step hsound hs⟩
  cases Program.step_cases hs with
  | call henter => rfl
  | exec hexec => exact exec_takes hsound hexec

theorem follows_loaded {threads : Fin n → Thread} (hidle : ∀ t, (threads t).pc = .idle) :
    Follows (World.loaded threads) 0 where
  value := rfl
  sound t := sound_of_pc fun _ hk => nomatch (hidle t).symm.trans hk

/-! ## Calls are settled once, and return -/

/-- The call of a thread that is settled and has not returned. -/
def Thread.pending (t : Fin n) (th : Thread) : List (Done n Call Reply) :=
  if th.pc = .ret then [⟨t, th.call, th.reply⟩] else []

theorem pending_idle (t : Fin n) {th : Thread} (hidle : th.pc = .idle) : th.pending t = [] :=
  if_neg (by rw [hidle]; exact fun h => nomatch h)

theorem enter_pending (t : Fin n) {c : Call} {th th' : Thread}
    (h : program.enter c th = some th') : th'.pending t = th.pending t := by
  obtain ⟨hidle, ⟨⟩⟩ := Option.ite_none_right_eq_some.mp h
  rw [pending_idle t hidle]
  cases c <;> rfl

theorem exec_account (t : Fin n) {th th' : Thread} {value value' : Int}
    (hexec : th.exec value = some (th', value')) :
    th.pending t ++ (th.settles t value).toList = (th.returned t).toList ++ th'.pending t := by
  rw [settles_eq hexec]
  cases exec_cases hexec <;> simp [Thread.pending, Thread.returned, *]

theorem task_of_settles {t : Fin n} {th : Thread} {value : Int} {d : Done n Call Reply}
    (h : d ∈ th.settles t value) : d.task = t := by
  obtain ⟨r, -, hr⟩ := Option.bind_eq_some_iff.mp h
  split at hr
  · exact congrArg Done.task (Option.some.inj hr).symm
  · exact absurd hr (by simp)

theorem task_of_returned {t : Fin n} {th : Thread} {d : Done n Call Reply}
    (h : d ∈ th.returned t) : d.task = t := by
  unfold Thread.returned at h
  split at h
  · exact congrArg Done.task (Option.some.inj h).symm
  · exact absurd h (by simp)

theorem settled_eq_finished {w₀ w : World n} (hidle : ∀ t, (w₀.tasks t).pc = .idle)
    (ms : List (Step n)) (hrun : runs World.step w₀ ms = some w) (t : Fin n) :
    ofTask t (settled w₀ ms) = ofTask t (finished w₀ ms) ++ (w.tasks t).pending t :=
  Program.account Thread.pending (fun _ _ _ _ _ => task_of_settles)
    (fun _ _ _ _ _ => task_of_returned) (fun t _ _ _ => enter_pending t)
    (fun t _ _ _ _ _ => exec_account t) (fun t => pending_idle t (hidle t)) ms hrun t

theorem settles_of_misses {w : World n} (hsound : ∀ t, (w.tasks t).Sound) {m : Step n}
    (hmiss : w.Misses m) {d : Done n Call Reply} (hd : d ∈ w.settles m) :
    ∃ r, d.call = .read r ∧ 4 ≤ r.length ∧ d.reply = fail einval := by
  cases m with
  | call t c => exact hmiss.elim
  | exec t =>
      obtain ⟨hpc, hne⟩ := hmiss
      obtain ⟨-, r, hcall, hlen⟩ := hsound t 4 hpc
      have hd' : d ∈ (w.tasks t).settles t w.sys := hd
      rw [settles_eq (exec_miss hpc hcall hne), if_pos rfl] at hd'
      obtain rfl := Option.some.inj hd'
      exact ⟨r, hcall, hlen, rfl⟩

theorem missed_read {threads : Fin n → Thread} (hidle : ∀ t, (threads t).pc = .idle)
    (ms : List (Step n)) : ∀ w, runs World.step (World.loaded threads) ms = some w →
      (∀ t, (w.tasks t).Sound) ∧ ∀ d ∈ missed (World.loaded threads) ms,
        ∃ r, d.call = .read r ∧ 4 ≤ r.length ∧ d.reply = fail einval := by
  refine runs_track (P := fun ms (w : World n) => (∀ t, (w.tasks t).Sound)
    ∧ ∀ d ∈ missed (World.loaded threads) ms, ∃ r, d.call = .read r ∧ 4 ≤ r.length
      ∧ d.reply = fail einval) ⟨(follows_loaded hidle).sound, fun d hd => nomatch hd⟩ ?_ ms
  rintro ms w m w' hrun ⟨hsound, ih⟩ hs
  refine ⟨sound_step hsound hs, fun d hd => ?_⟩
  rw [missed, commits_append _ [m] ms hrun, commits_singleton _ hs] at hd
  rcases List.mem_append.mp hd with hd | hd
  · exact ih d hd
  · split at hd
    · rename_i hmiss
      exact settles_of_misses hsound hmiss (Option.mem_toList.mp hd)
    · exact nomatch hd

/--
**Without the mutex, only reads that fall through are not atomic.**

Take any interleaving of the statements of any number of threads. The calls are settled one
by one: each is one that is taken, or a read that is long enough and returns `-EINVAL` after
its five tests. The calls taken, in this order, are a history of the driver that serves one
call at a time, with the replies the threads get, and it ends with the same number. Each
thread returns from its calls as they are settled, all but the last one at most.
-/
theorem answered_calls_linearize {threads : Fin n → Thread} (hidle : ∀ t, (threads t).pc = .idle)
    (ms : List (Step n)) {w : World n}
    (hrun : runs World.step (World.loaded threads) ms = some w) :
    (settled (World.loaded threads) ms).Perm
        (taken (World.loaded threads) ms ++ missed (World.loaded threads) ms)
      ∧ machine.outputs ((taken (World.loaded threads) ms).map Done.call)
        = (taken (World.loaded threads) ms).map Done.reply
      ∧ machine.after ((taken (World.loaded threads) ms).map Done.call) = w.sys
      ∧ (∀ d ∈ missed (World.loaded threads) ms,
        ∃ r, d.call = .read r ∧ 4 ≤ r.length ∧ d.reply = fail einval)
      ∧ ∀ t, ∃ last, ofTask t (settled (World.loaded threads) ms)
        = ofTask t (finished (World.loaded threads) ms) ++ last ∧ last.length ≤ 1 := by
  have hsim := machine.linearizes (R := Follows) (follows_loaded hidle)
    (fun _ _ _ _ h hs => follows_step h hs) hrun
  obtain ⟨hout, hfollows⟩ := hsim
  have hloaded : ∀ t, ((World.loaded threads).tasks t).pc = .idle := hidle
  have hreturn := settled_eq_finished hloaded ms hrun
  refine ⟨commits_partition .., hout, hfollows.value, (missed_read hidle ms w hrun).2,
    fun t => ⟨_, hreturn t, ?_⟩⟩
  unfold Thread.pending
  split <;> simp

def atRest : Fin 2 → Thread := fun _ => ⟨.store 0 [], .idle, ⟨0, none⟩⟩

/-- The next `k` statements of a thread. -/
def execs (t : Fin 2) (k : Nat) : List (Step 2) := List.replicate k (.exec t ())

/-- A read makes two tests while the number is 3, and three after it is 1. -/
def storeBetween : List (Step 2) :=
  Move.call writer (.store 7 [51]) :: execs writer 2 ++ Move.call reader (.read (shellRead 7 8 0))
    :: execs reader 3 ++ Move.call writer (.store 7 [49]) :: execs writer 2 ++ execs reader 4

theorem answered_calls_linearize_storeBetween :
    ∃ w, runs World.step (World.loaded atRest) storeBetween = some w
      ∧ missed (World.loaded atRest) storeBetween
        = [⟨reader, .read (shellRead 7 8 0), ⟨-22, none⟩⟩]
      ∧ machine.outputs ((taken (World.loaded atRest) storeBetween).map Done.call)
        = [⟨1, none⟩, ⟨1, none⟩]
      ∧ machine.after ((taken (World.loaded atRest) storeBetween).map Done.call) = w.sys := by
  have hsome : (runs World.step (World.loaded atRest) storeBetween).isSome := by rfl
  have hmissed : missed (World.loaded atRest) storeBetween
      = [⟨reader, .read (shellRead 7 8 0), ⟨-22, none⟩⟩] := by rfl
  have htaken : (taken (World.loaded atRest) storeBetween).map Done.reply
      = [⟨1, none⟩, ⟨1, none⟩] := by rfl
  obtain ⟨w, hrun⟩ := Option.isSome_iff_exists.mp hsome
  have hidle : ∀ t, (atRest t).pc = .idle := fun _ => rfl
  obtain ⟨-, hout, hafter, -⟩ := answered_calls_linearize hidle storeBetween hrun
  exact ⟨w, hrun, hmissed, hout.trans htaken, hafter⟩

/-! ## Numbers that only grow -/

theorem step_value {w w' : World n} {m : Step n} (hs : w.step m = some w') :
    w'.sys = (w.writes m).getD w.sys := by
  cases Program.step_cases hs with
  | call henter => rfl
  | exec hexec =>
      have hcases := exec_cases hexec
      show _ = ((w.tasks _).writes).getD w.sys
      cases hcases <;> simp [Thread.writes, *]

/-- No read has passed the number. -/
def World.InFront (w : World n) : Prop := ∀ t k, (w.tasks t).pc = .test k → k ≤ w.sys

theorem inFront_step {w w' : World n} {m : Step n} (hs : w.step m = some w') (h : w.InFront)
    (hzero : 0 ≤ w.sys) (hgrow : w.sys ≤ w'.sys) : w'.InFront := by
  -- a thread that does not move has been passed by nothing
  have hstay : ∀ (value : Int), w.sys ≤ value → ∀ u, ∀ k : Nat, (w.tasks u).pc = .test k →
      k ≤ value :=
    fun _ hle u k hu => (h u k hu).trans hle
  cases Program.step_cases hs with
  | @call t c th henter =>
      obtain ⟨-, ⟨⟩⟩ := Option.ite_none_right_eq_some.mp henter
      refine Pool.forall_update (P := fun _ (th : Thread) => ∀ k, th.pc = .test k → k ≤ w.sys)
        (fun k hk => ?_) (fun u _ => h u) w.sys
      cases c <;> exact nomatch hk
  | @exec t x th value hexec =>
      refine Pool.forall_update (P := fun _ (th : Thread) => ∀ k, th.pc = .test k → k ≤ value)
        (fun k hk => ?_) (fun u _ => hstay value hgrow u) value
      cases exec_cases hexec with
      | long hpc hcall hlen =>
          obtain rfl : 0 = k := Pc.test.inj hk
          exact hzero
      | next hpc hcall hne hmore =>
          obtain rfl := Pc.test.inj hk
          have hle := h t _ hpc
          push_cast
          omega
      | _ => exact nomatch hk

theorem not_misses {w : World n} (h : w.InFront) (hle : w.sys ≤ 4) (m : Step n) : ¬w.Misses m := by
  cases m with
  | call t c => exact id
  | exec t =>
      rintro ⟨hpc, hne⟩
      have hge : ((4 : Nat) : Int) ≤ w.sys := h t 4 hpc
      omega

theorem written_cons {w w' : World n} {m : Step n} (hs : w.step m = some w') (ms : List (Step n)) :
    written w (m :: ms) = (w.writes m).toList ++ written w' ms := by
  rw [written, commits, hs]
  rfl

theorem missed_cons {w w' : World n} {m : Step n} (hs : w.step m = some w') (hm : ¬w.Misses m)
    (ms : List (Step n)) : missed w (m :: ms) = missed w' ms := by
  rw [missed, commits, hs]
  dsimp only
  rw [if_neg hm]
  rfl

/-- Where no number is smaller than the one before, no read falls through. -/
theorem missed_eq_nil (ms : List (Step n)) : ∀ {w w' : World n}, runs World.step w ms = some w' →
    w.InFront → 0 ≤ w.sys → w.sys ≤ 4 → (∀ v ∈ written w ms, v ≤ 4) →
    (w.sys :: written w ms).IsChain (· ≤ ·) → missed w ms = [] := by
  induction ms with
  | nil => intros; rfl
  | cons m ms ih =>
      intro w w' hrun hfront hzero hle hbound hchain
      obtain ⟨w₁, hs, hrest⟩ := Option.bind_eq_some_iff.mp hrun
      rw [missed_cons hs (not_misses hfront hle m)]
      rw [written_cons hs] at hbound hchain
      have hvalue := step_value hs
      -- the step stores a number, which is in front of the others, or none
      cases hm : w.writes m with
      | none =>
          rw [hm] at hbound hchain hvalue
          have hsame : w₁.sys = w.sys := hvalue
          exact ih hrest (inFront_step hs hfront hzero hsame.ge) (by rwa [hsame]) (by rwa [hsame])
            hbound (by rwa [hsame])
      | some v =>
          rw [hm] at hbound hchain hvalue
          obtain rfl : w₁.sys = v := hvalue
          obtain ⟨hgrow, hchain'⟩ := List.isChain_cons_cons.mp hchain
          exact ih hrest (inFront_step hs hfront hzero hgrow) (hzero.trans hgrow)
            (hbound _ List.mem_cons_self) (fun v hv => hbound v (List.mem_cons_of_mem _ hv)) hchain'

/-! ## A number that is smaller than the one before -/

/-- A run, and the numbers it stores. -/
structure Path (w : World n) (ms : List (Step n)) (w' : World n) (vs : List Int) : Prop where
  run : runs World.step w ms = some w'
  written : written w ms = vs

theorem Path.trans {w w₁ w₂ : World n} {ms ms' : List (Step n)} {vs vs' : List Int}
    (h : Path w ms w₁ vs) (h' : Path w₁ ms' w₂ vs') : Path w (ms ++ ms') w₂ (vs ++ vs') where
  run := by
    rw [runs_append, h.run]
    exact h'.run
  written := by
    rw [Part1.written, commits_append _ ms' ms h.run]
    exact congrArg₂ (· ++ ·) h.written h'.written

theorem path_call {w : World n} {t : Fin n} (hidle : (w.tasks t).pc = .idle) (c : Call) :
    Path w [.call t c] (w.update t ((w.tasks t).enter c) w.sys) [] := by
  have hs : w.step (.call t c) = some (w.update t ((w.tasks t).enter c) w.sys) :=
    Program.step_of_enter (if_pos hidle)
  exact ⟨(runs_singleton ..).trans hs, commits_singleton _ hs⟩

theorem path_exec {w : World n} {t : Fin n} {th th' : Thread} (hth : w.tasks t = th) {value : Int}
    (hexec : th.exec w.sys = some (th', value)) :
    Path w [.exec t ()] (w.update t th' value) th.writes.toList := by
  subst hth
  have hs : w.step (.exec t ()) = some (w.update t th' value) := Program.step_of_exec hexec
  exact ⟨(runs_singleton ..).trans hs, commits_singleton _ hs⟩

/-- A number below ten as text. -/
def digit (v : Int) : List UInt8 := [UInt8.ofNat (48 + v.toNat)]

theorem sscanf_digit {v : Int} (h0 : 0 ≤ v) (h4 : v ≤ 4) : Cs614.sscanf (digit v) = some v := by
  interval_cases v <;> decide

/-- A thread that is in no call stores a number. -/
theorem store_path (w : World n) {t : Fin n} (hidle : (w.tasks t).pc = .idle) {v : Int}
    (h0 : 0 ≤ v) (h4 : v ≤ 4) :
    ∃ ms w', Path w ms w' [v] ∧ w'.sys = v ∧ (w'.tasks t).pc = .idle
      ∧ ∀ u, u ≠ t → w'.tasks u = w.tasks u := by
  have hcall := path_call hidle (.store 0 (digit v))
  set w₁ := w.update t ((w.tasks t).enter (.store 0 (digit v))) w.sys
  have hth₁ : w₁.tasks t = ⟨.store 0 (digit v), .sscanf, (w.tasks t).reply⟩ :=
    Pool.update_tasks_self ..
  have hstore : Path w₁ [.exec t ()]
      (w₁.update t ⟨.store 0 (digit v), .ret, ⟨(digit v).length, none⟩⟩ v) [v] := by
    have hexec := path_exec hth₁ rfl
    simp only [Thread.writes, sscanf_digit h0 h4] at hexec
    exact hexec
  set w₂ := w₁.update t ⟨.store 0 (digit v), .ret, ⟨(digit v).length, none⟩⟩ v
  have hth₂ : w₂.tasks t = ⟨.store 0 (digit v), .ret, ⟨(digit v).length, none⟩⟩ :=
    Pool.update_tasks_self ..
  refine ⟨_, _, (hcall.trans hstore).trans (path_exec hth₂ rfl), rfl, ?_, fun u hu => ?_⟩
  · rw [Pool.update_tasks_self]
  · rw [Pool.update_tasks_ne w₂ hu, Pool.update_tasks_ne w₁ hu, Pool.update_tasks_ne w hu]

theorem stores_path {t : Fin n} (vs : List Int) : ∀ (w : World n), (w.tasks t).pc = .idle →
    (∀ v ∈ vs, 0 ≤ v ∧ v ≤ 4) → ∃ ms w', Path w ms w' vs := by
  induction vs with
  | nil => exact fun w _ _ => ⟨[], w, rfl, rfl⟩
  | cons v vs ih =>
      intro w hidle hvs
      obtain ⟨h0, h4⟩ := hvs v List.mem_cons_self
      obtain ⟨ms, w₁, hpath, -, hidle₁, -⟩ := store_path w hidle h0 h4
      obtain ⟨ms', w', hpath'⟩ := ih w₁ hidle₁ fun v hv => hvs v (List.mem_cons_of_mem _ hv)
      exact ⟨_, _, hpath.trans hpath'⟩

theorem writes_of_test {th : Thread} {k : Nat} (hpc : th.pc = .test k) : th.writes = none := by
  simp only [Thread.writes, hpc]

/-- A run of statements of one read, up to its test for `k`. -/
structure Reading (u : Fin n) (r : Read) (k : Nat) (w : World n) (ms : List (Step n))
    (w' : World n) : Prop extends Path w ms w' [] where
  value : w'.sys = w.sys
  pc : (w'.tasks u).pc = .test k
  call : (w'.tasks u).call = .read r
  others : ∀ t, t ≠ u → w'.tasks t = w.tasks t

theorem Reading.trans {u : Fin n} {r : Read} {j k : Nat} {w w₁ w₂ : World n}
    {ms ms' : List (Step n)} (h : Reading u r j w ms w₁) (h' : Reading u r k w₁ ms' w₂) :
    Reading u r k w (ms ++ ms') w₂ where
  toPath := h.toPath.trans h'.toPath
  value := h'.value.trans h.value
  pc := h'.pc
  call := h'.call
  others t ht := (h'.others t ht).trans (h.others t ht)

/-- A read that is long enough comes to its first test. -/
theorem reading_first (w : World n) {u : Fin n} (hidle : (w.tasks u).pc = .idle) {r : Read}
    (hlen : 4 ≤ r.length) : ∃ ms w', Reading u r 0 w ms w' := by
  have hcall := path_call hidle (.read r)
  set w₁ := w.update u ((w.tasks u).enter (.read r)) w.sys
  have hth₁ : w₁.tasks u = ⟨.read r, .length, (w.tasks u).reply⟩ := Pool.update_tasks_self ..
  have hlong := path_exec hth₁ (if_neg (Nat.not_lt.mpr hlen))
  refine ⟨_, _, hcall.trans hlong, rfl, ?_, ?_, fun t ht => ?_⟩
  · rw [Pool.update_tasks_self]
  · rw [Pool.update_tasks_self]
  · rw [Pool.update_tasks_ne w₁ ht, Pool.update_tasks_ne w ht]

theorem reading_next {w : World n} {u : Fin n} {r : Read} {k : Nat} (hpc : (w.tasks u).pc = .test k)
    (hcall : (w.tasks u).call = .read r) (hne : w.sys ≠ k) (hk : k < 4) :
    ∃ ms w', Reading u r (k + 1) w ms w' := by
  have hpath := path_exec rfl (exec_next hpc hcall hne hk)
  rw [writes_of_test hpc] at hpath
  refine ⟨_, _, hpath, rfl, ?_, ?_, fun t ht => Pool.update_tasks_ne w ht ..⟩
  · rw [Pool.update_tasks_self]
  · rw [Pool.update_tasks_self]
    exact hcall

/-- A read goes on while its tests fail. -/
theorem reading_tests {u : Fin n} {r : Read} {w : World n} {j k : Nat} (hjk : j ≤ k) (hk : k ≤ 4)
    (hpc : (w.tasks u).pc = .test j) (hcall : (w.tasks u).call = .read r)
    (hne : ∀ i : Nat, j ≤ i → i < k → w.sys ≠ i) : ∃ ms w', Reading u r k w ms w' := by
  induction k, hjk using Nat.le_induction with
  | base => exact ⟨[], w, ⟨rfl, rfl⟩, rfl, hpc, hcall, fun _ _ => rfl⟩
  | succ k hjk ih =>
      obtain ⟨ms, w₁, h⟩ := ih (Nat.le_of_lt hk) fun i hi hik => hne i hi (Nat.lt_succ_of_lt hik)
      have hnext : w₁.sys ≠ k := by
        rw [h.value]
        exact hne k hjk (Nat.lt_succ_self k)
      obtain ⟨ms', w', h'⟩ := reading_next h.pc h.call hnext hk
      exact ⟨_, w', h.trans h'⟩

theorem missed_append {w w₁ : World n} {ms : List (Step n)} (hrun : runs World.step w ms = some w₁)
    (ms' : List (Step n)) : missed w (ms ++ ms') = missed w ms ++ missed w₁ ms' :=
  commits_append _ ms' ms hrun

/-- The read tests up to the smaller number, then comes the store, and the read tests on. -/
theorem miss_path (w : World n) {t u : Fin n} (htu : t ≠ u) (ht : (w.tasks t).pc = .idle)
    (hu : (w.tasks u).pc = .idle) {v : Int} (h0 : 0 ≤ v) (hlt : v < w.sys) (h4 : w.sys ≤ 4) :
    ∃ ms w', Path w ms w' [v] ∧ (w'.tasks t).pc = .idle ∧ missed w ms ≠ [] := by
  obtain ⟨v, rfl⟩ := Int.eq_ofNat_of_zero_le h0
  have hlong : 4 ≤ (shellRead 0 8 0).length := by decide
  obtain ⟨ms₁, w₁, hfirst⟩ := reading_first w hu hlong
  -- up to the smaller number the larger one fails every test
  obtain ⟨ms₂, w₂, hbelow⟩ := reading_tests (Nat.zero_le (v + 1)) (by omega) hfirst.pc hfirst.call
    (fun i _ hi => by rw [hfirst.value]; omega)
  have hread := hfirst.trans hbelow
  have ht₂ : (w₂.tasks t).pc = .idle := by
    rw [hread.others t htu]
    exact ht
  obtain ⟨ms₃, w₃, hstore, hvalue₃, ht₃, hothers₃⟩ := store_path w₂ ht₂ h0 (by omega)
  have hu₃ : w₃.tasks u = w₂.tasks u := hothers₃ u htu.symm
  -- and from there on the smaller one does
  have hv : v + 1 ≤ 4 := by omega
  obtain ⟨ms₄, w₄, habove⟩ := reading_tests hv (Nat.le_refl 4) (by rw [hu₃]; exact hread.pc)
    (by rw [hu₃]; exact hread.call) (fun i hi _ => by rw [hvalue₃]; omega)
  have hne : w₄.sys ≠ 4 := by
    rw [habove.value, hvalue₃]
    omega
  have hexec := exec_miss habove.pc habove.call hne
  have hmiss := path_exec rfl hexec
  rw [writes_of_test habove.pc] at hmiss
  have hbefore := (hread.toPath.trans hstore).trans habove.toPath
  refine ⟨_, _, hbefore.trans hmiss, ?_, ?_⟩
  · rw [Pool.update_tasks_ne w₄ htu, habove.others t htu]
    exact ht₃
  · rw [missed_append hbefore.run, missed, missed, commits_singleton _ (Program.step_of_exec hexec),
      if_pos ⟨habove.pc, hne⟩]
    have hsettles : w₄.settles (.exec u ()) = some ⟨u, _, _⟩ :=
      (settles_eq hexec).trans (if_pos rfl)
    rw [hsettles]
    simp

/-- Where some number is smaller than the one before, a read can be made to fall through. -/
theorem exists_missed {t u : Fin n} (htu : t ≠ u) (vs : List Int) : ∀ (w : World n),
    (w.tasks t).pc = .idle → (w.tasks u).pc = .idle → w.sys ≤ 4 →
    (∀ v ∈ vs, 0 ≤ v ∧ v ≤ 4) → ¬(w.sys :: vs).IsChain (· ≤ ·) →
    ∃ ms w', Path w ms w' vs ∧ missed w ms ≠ [] := by
  induction vs with
  | nil => exact fun w _ _ _ _ hchain => absurd (List.isChain_singleton _) hchain
  | cons v vs ih =>
      intro w ht hu h4 hvs hchain
      obtain ⟨hv0, hv4⟩ := hvs v List.mem_cons_self
      have hrest : ∀ v ∈ vs, 0 ≤ v ∧ v ≤ 4 := fun v hv => hvs v (List.mem_cons_of_mem _ hv)
      rcases lt_or_ge v w.sys with hlt | hge
      · obtain ⟨ms, w₁, hpath, ht₁, hmiss⟩ := miss_path w htu ht hu hv0 hlt h4
        obtain ⟨ms', w', hpath'⟩ := stores_path vs w₁ ht₁ hrest
        refine ⟨_, w', hpath.trans hpath', ?_⟩
        rw [missed_append hpath.run]
        exact List.append_ne_nil_of_left_ne_nil hmiss _
      · -- the number that is too small comes later
        obtain ⟨ms, w₁, hpath, hvalue, ht₁, hothers⟩ := store_path w ht hv0 hv4
        have hchain₁ : ¬(w₁.sys :: vs).IsChain (· ≤ ·) := by
          rw [hvalue]
          exact fun h => hchain (List.isChain_cons_cons.mpr ⟨hge, h⟩)
        obtain ⟨ms', w', hpath', hmiss⟩ := ih w₁ ht₁ (by rw [hothers u htu.symm]; exact hu)
          (by rwa [hvalue]) hrest hchain₁
        refine ⟨_, w', hpath.trans hpath', ?_⟩
        rw [missed_append hpath.run]
        exact List.append_ne_nil_of_right_ne_nil _ hmiss

/--
**When a read can fail though every number is a command.**

Let the numbers stored be commands all of them. There is a schedule of stores of these
numbers, in this order, in which some read falls through its tests if and only if one of
the numbers is smaller than the one before; the first follows the 0 the module is loaded with.
-/
theorem read_falls_through_iff {threads : Fin n → Thread} (hidle : ∀ t, (threads t).pc = .idle)
    {t u : Fin n} (htu : t ≠ u) {vs : List Int} (hvs : ∀ v ∈ vs, 0 ≤ v ∧ v ≤ 4) :
    (∃ ms w, runs World.step (World.loaded threads) ms = some w
      ∧ written (World.loaded threads) ms = vs ∧ missed (World.loaded threads) ms ≠ [])
    ↔ ¬(0 :: vs).IsChain (· ≤ ·) := by
  have hfour : (World.loaded threads).sys ≤ 4 := show (0 : Int) ≤ 4 by decide
  constructor
  · rintro ⟨ms, w, hrun, rfl, hmiss⟩ hchain
    refine hmiss (missed_eq_nil ms hrun (fun x k hk => ?_) (Int.le_refl 0) hfour
      (fun v hv => (hvs v hv).2) hchain)
    exact nomatch (hidle x).symm.trans hk
  · intro hchain
    obtain ⟨ms, w, hpath, hmiss⟩ := exists_missed htu vs (World.loaded threads) (hidle t) (hidle u)
      hfour hvs hchain
    exact ⟨ms, w, hpath.run, hpath.written, hmiss⟩

/-- After a 3 a 1 is enough. -/
theorem read_falls_through_threeOne : ∃ ms w, runs World.step (World.loaded atRest) ms = some w
    ∧ written (World.loaded atRest) ms = [3, 1] ∧ missed (World.loaded atRest) ms ≠ [] :=
  (read_falls_through_iff (fun _ => rfl) (by decide : writer ≠ reader) (by decide)).mpr (by decide)

end LinuxDrivers.Cs614.Part1
