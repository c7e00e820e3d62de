import LinuxDrivers.Cs614.Commands

/-!
# Foreign and invented commands

What a process is answered should depend on what that process did and on nothing
else. The driver misses this in two places, both about texts and reads that do not
come from the happy path: a store that does not parse copies the global, which is
anybody's number, into the caller's node, and a read without a node takes its
command from the stack.

`Isolated` is the demand on one call, `OwnCommands` the condition on one call, and
along a history they come to the same (`along_isolated_iff`). Under the condition
the driver, as one process sees it, *is* a private register that no other process
can reach (`dispatches_eq_register`), which is the two-history statement in its
strongest form.
-/

namespace LinuxDrivers.Cs614

/-! ## The commands of a driver -/

/-- The numbers a part's `demo_read` knows as commands: its answer, and when that answer is
not an error. -/
structure CommandSet where
  answer : Int → Read → Reply
  serves : Int → Option Task → Nat → Bool
  error_iff : ∀ v r, (answer v r).ret < 0 ↔ serves v r.task r.length = false

namespace CommandSet

/-- `demo_read` -/
def demoRead (C : CommandSet) (r : Read) (s : Registry) : Reply := C.answer (s.command r) r

def machine (C : CommandSet) : Mealy Registry Call Reply := registry C.demoRead

end CommandSet

/-- Commands 0 to 4; all but the first need the task to be found. -/
def Part2.serves (value : Int) (task : Option Task) (length : Nat) : Bool :=
  4 ≤ length && (value == 0 || (1 ≤ value && value ≤ 4 && task.isSome))

/-- Commands 0 to 7. -/
def Part3.serves (value : Int) (_task : Option Task) (length : Nat) : Bool :=
  4 ≤ length && (0 ≤ value && value ≤ 7)

theorem fail_einval_ret_neg : (fail einval).ret < 0 := by decide

theorem fail_esrch_ret_neg : (fail esrch).ret < 0 := by decide

/-- When the part of the chain that all drivers share ends in an error. -/
theorem serve_ret_neg_iff (value : Int) (task : Option Task) (r : Read) (more : Reply) :
    (serve value task r more).ret < 0 ↔
      r.length < 4 ∨ (1 ≤ value ∧ value ≤ 4 ∧ task = none) ∨
        (¬(0 ≤ value ∧ value ≤ 4) ∧ more.ret < 0) := by
  rcases Nat.lt_or_ge r.length 4 with hl | hl
  · simp [serve, hl, fail_einval_ret_neg]
  rcases Decidable.em (0 ≤ value ∧ value ≤ 4) with hv | hv
  · have hcases : value = 0 ∨ value = 1 ∨ value = 2 ∨ value = 3 ∨ value = 4 := by omega
    have hlen : ¬r.length < 4 := by omega
    rcases hcases with rfl | rfl | rfl | rfl | rfl <;> cases task <;>
      simp [serve, hlen, put, fail_esrch_ret_neg]
  · have hne : value ≠ 0 ∧ value ≠ 1 ∧ value ≠ 2 ∧ value ≠ 3 ∧ value ≠ 4 := by omega
    have hlen : ¬r.length < 4 := by omega
    obtain ⟨h0, h1, h2, h3, h4⟩ := hne
    simp only [serve, if_neg hlen, if_neg h0, if_neg h1, if_neg h2, if_neg h3, if_neg h4, hv]
    constructor
    · intro hm; exact Or.inr (Or.inr ⟨id, hm⟩)
    · rintro (hl' | ⟨ha, hb, -⟩ | ⟨-, hm⟩)
      · omega
      · omega
      · exact hm

theorem Part2.answer_error_iff (v : Int) (r : Read) :
    (Part2.answer v r).ret < 0 ↔ Part2.serves v r.task r.length = false := by
  rw [Part2.answer, serve_ret_neg_iff]
  cases ht : r.task <;> simp [Part2.serves, fail_einval_ret_neg] <;> omega

theorem Part3.answer_error_iff (v : Int) (r : Read) :
    (Part3.answer v r).ret < 0 ↔ Part3.serves v r.task r.length = false := by
  rw [Part3.answer, serve_ret_neg_iff]
  have hmore : (if v = 5 then put r.length (toString (countThreads r.current))
      else if v = 6 then put r.length (toString (countFiles r.current))
      else if v = 7 then put r.length (toString (maxStack r.current r.tid).2)
      else fail einval).ret < 0 ↔ ¬(v = 5 ∨ v = 6 ∨ v = 7) := by
    split_ifs <;> simp_all [put, fail_einval_ret_neg]
  rw [hmore]
  simp [Part3.serves]
  omega

def Part2.commands : CommandSet := ⟨Part2.answer, Part2.serves, Part2.answer_error_iff⟩

def Part3.commands : CommandSet := ⟨Part3.answer, Part3.serves, Part3.answer_error_iff⟩

/-- These machines are the two drivers. -/
example : Part2.commands.machine = Part2.machine ∧ Part3.commands.machine = Part3.machine :=
  ⟨rfl, rfl⟩

/-! ## The demand and the condition -/

/-- `p` has not stored a number so far. -/
def NeverStored (p : Nat) (pre : List Call) : Prop := ∀ c ∈ pre, c.wrote (· == p) = none

theorem neverStored_iff {p : Nat} {pre : List Call} : NeverStored p pre ↔ latestOwn p pre = none :=
  latest_eq_none_iff.symm

/-- A process that stored a number keeps anybody's latest number from being none. -/
theorem latestAny_of_latestOwn {p : Nat} {h : List Call} {v : Int} (hv : latestOwn p h = some v) :
    ∃ w, latestAny h = some w := by
  obtain ⟨c, hc, hw⟩ := mem_of_latest hv
  apply Option.ne_none_iff_exists'.mp
  intro hnone
  have hc' := latest_eq_none_iff.mp hnone c hc
  cases c with
  | read r => simp [Call.wrote] at hw
  | store q buf => simp_all [Call.wrote]

namespace CommandSet

variable (C : CommandSet)

/-- What is asked of a call. A store that does not parse leaves its process's command as it
was. A read is dispatched on a number its process wrote earlier, and is refused when there
is none. -/
def Isolated (pre : List Call) : Call → Prop
  | .store p buf =>
      sscanf buf = none →
        (C.machine.after (pre ++ [.store p buf])).search p = (C.machine.after pre).search p
  | .read r =>
      (¬NeverStored r.current.pid pre →
        ∃ c ∈ pre, c.wrote (· == r.current.pid) = some ((C.machine.after pre).command r)) ∧
      (NeverStored r.current.pid pre → (C.machine.out (C.machine.after pre) (.read r)).ret < 0)

/-- The condition on a call. A store that does not parse comes from a process whose own latest
number is also anybody's latest. A read by a process without a number finds none of the
driver's commands on its stack. -/
def OwnCommands (pre : List Call) : Call → Prop
  | .store p buf => sscanf buf = none → ∃ v, latestOwn p pre = some v ∧ latestAny pre = some v
  | .read r => NeverStored r.current.pid pre → C.serves r.value1 r.task r.length = false

theorem ownText_of_ownCommands {h : List Call} (hall : Along C.OwnCommands h) :
    Along OwnText h := by
  intro pre c hpre
  have hc := hall pre c hpre
  cases c with
  | store p buf => exact hc
  | read r => trivial

theorem machine_out_read (s : Registry) (r : Read) :
    C.machine.out s (.read r) = C.answer (s.command r) r := rfl

/-- A store that does not parse puts the global's number in front of its process's own. -/
theorem isolated_store_iff {pre : List Call} (hall : Along OwnText pre) (p : Nat)
    (buf : List UInt8) : C.Isolated pre (.store p buf) ↔ C.OwnCommands pre (.store p buf) := by
  unfold Isolated OwnCommands
  refine imp_congr_right fun hb => ?_
  rw [machine, registry_after_store, search_store, if_pos rfl, search_eq_latest _ p pre hall,
    registry_value, hb]
  constructor
  · intro heq
    obtain ⟨w, hw⟩ := latestAny_of_latestOwn heq.symm
    refine ⟨w, ?_, hw⟩
    rw [← heq, hw]
    rfl
  · rintro ⟨v, hown, hany⟩
    rw [hown, hany]
    rfl

theorem isolated_read_iff {pre : List Call} (hall : Along OwnText pre) (r : Read) :
    C.Isolated pre (.read r) ↔ C.OwnCommands pre (.read r) := by
  unfold Isolated OwnCommands
  rcases hown : latestOwn r.current.pid pre with _ | v
  · have hnever : NeverStored r.current.pid pre := neverStored_iff.mpr hown
    have hcmd := command_of_no_latestOwn C.demoRead hall hown
    simp only [hnever, not_true_eq_false, false_implies, true_and, true_implies,
      machine_out_read, C.error_iff]
    rw [machine, hcmd]
  · have hstored : ¬NeverStored r.current.pid pre := by
      rw [neverStored_iff, hown]
      simp
    have hcmd := command_of_latestOwn C.demoRead hall hown
    simp only [hstored, not_false_eq_true, true_implies, false_implies, and_true, iff_true]
    rw [machine, hcmd]
    exact mem_of_latest hown

/-- **The demand holds along a history exactly when the condition does.** -/
theorem along_isolated_iff (h : List Call) : Along C.Isolated h ↔ Along C.OwnCommands h := by
  apply along_congr
  intro pre c _ hown
  have hall := C.ownText_of_ownCommands hown
  cases c with
  | store p buf => exact C.isolated_store_iff hall p buf
  | read r => exact C.isolated_read_iff hall r

end CommandSet

/-! ## Two histories -/

/-- A call as its own process makes it: without what the stack happens to hold. -/
inductive Own where
  | store (buf : List UInt8)
  | read (task : Option Task) (length : Nat)
  deriving DecidableEq

/-- What `p` itself does in a call. -/
def Call.own (p : Nat) : Call → Option Own
  | .store q buf => if q = p then some (.store buf) else none
  | .read r => if r.current.pid = p then some (.read r.task r.length) else none

/-- The calls `p` makes in a history. -/
def ownCalls (p : Nat) (h : List Call) : List Own := h.filterMap (Call.own p)

namespace CommandSet

variable (C : CommandSet)

/-- The command a read carries out, if it carries one out. -/
def dispatch (value : Int) (task : Option Task) (length : Nat) : Option Int :=
  if C.serves value task length then some value else none

/-- The driver with the commands `p` is dispatched on as its outputs. -/
def watch (p : Nat) : Mealy Registry Call (Option (Option Int)) where
  init := Registry.empty
  next := C.machine.next
  out := fun s c =>
    match c with
    | .store _ _ => none
    | .read r =>
        if r.current.pid = p then some (C.dispatch (s.command r) r.task r.length) else none

/-- What the driver is for, to one process: a register with the number it stored last. -/
def register : Mealy (Option Int) Own (Option (Option Int)) where
  init := none
  next := fun s c =>
    match c with
    | .store buf => (sscanf buf).or s
    | .read _ _ => s
  out := fun s c =>
    match c with
    | .store _ => none
    | .read task length => some (s.bind fun v => C.dispatch v task length)

/-- The commands `p` is dispatched on in a history, read by read. -/
def dispatches (p : Nat) (h : List Call) : List (Option Int) := ((C.watch p).outputs h).reduceOption

/-- The same, of the register. -/
def registerDispatches (h : List Own) : List (Option Int) := (C.register.outputs h).reduceOption

theorem watch_after (p : Nat) (h : List Call) : (C.watch p).after h = C.machine.after h := rfl

theorem dispatches_snoc (p : Nat) (h : List Call) (c : Call) :
    C.dispatches p (h ++ [c]) =
      C.dispatches p h ++ ((C.watch p).out (C.machine.after h) c).toList := by
  rw [dispatches, Mealy.outputs_snoc, List.reduceOption_append, List.reduceOption_singleton,
    watch_after]
  rfl

theorem registerDispatches_snoc (h : List Own) (c : Own) :
    C.registerDispatches (h ++ [c]) =
      C.registerDispatches h ++ (C.register.out (C.register.after h) c).toList := by
  rw [registerDispatches, Mealy.outputs_snoc, List.reduceOption_append,
    List.reduceOption_singleton]
  rfl

theorem ownCalls_snoc (p : Nat) (h : List Call) (c : Call) :
    ownCalls p (h ++ [c]) = ownCalls p h ++ (c.own p).toList := by
  cases hc : c.own p <;> simp [ownCalls, List.filterMap_append, hc]

/-- The register holds what the history says the process stored last. -/
theorem register_after (p : Nat) (h : List Call) :
    C.register.after (ownCalls p h) = latestOwn p h := by
  induction h using List.reverseRecOn with
  | nil => rfl
  | append_singleton h c ih =>
      rw [ownCalls_snoc]
      cases c with
      | read r =>
          rw [latestOwn_read, ← ih]
          rcases Decidable.em (r.current.pid = p) with hp | hp
          · simp [Call.own, hp, register]
          · simp [Call.own, hp]
      | store q buf =>
          rw [latestOwn_store, ← ih]
          rcases Decidable.em (q = p) with hp | hp
          · simp [Call.own, hp, register]
          · simp [Call.own, hp]

/-- **To each process the driver is a private register**, along every history that meets the
condition. -/
theorem dispatches_eq_register (p : Nat) (h : List Call) :
    Along C.OwnCommands h → C.dispatches p h = C.registerDispatches (ownCalls p h) := by
  intro hall
  refine along_induction hall rfl ?_
  intro h c hpre hc ih
  have htext := C.ownText_of_ownCommands hpre
  rw [dispatches_snoc, ownCalls_snoc, ih]
  cases c with
  | store q buf =>
      rcases Decidable.em (q = p) with hp | hp
      · simp [Call.own, hp, watch, registerDispatches_snoc, register]
      · simp [Call.own, hp, watch]
  | read r =>
      rcases Decidable.em (r.current.pid = p) with rfl | hp
      · -- both dispatch on the latest number, or refuse for want of one
        have hout : C.dispatch ((C.machine.after h).command r) r.task r.length =
            (latestOwn r.current.pid h).bind fun v => C.dispatch v r.task r.length := by
          rcases hown : latestOwn r.current.pid h with _ | v
          · have hno := hc (neverStored_iff.mpr hown)
            rw [machine, command_of_no_latestOwn C.demoRead htext hown]
            simp [dispatch, hno]
          · rw [machine, command_of_latestOwn C.demoRead htext hown]
            rfl
        simp only [Call.own, if_true, Option.toList_some, registerDispatches_snoc, register_after]
        simp [watch, register, hout]
      · simp [Call.own, hp, watch]

end CommandSet

/-- **Where a process's commands are its own.** Along a history, every call meets the demand
exactly when every call meets the condition; and of two histories that meet it and agree
on what `p` does, `p` cannot tell which one it is in. -/
theorem commands_own_iff (h : List Call) :
    (Along Part2.commands.Isolated h ↔ Along Part2.commands.OwnCommands h) ∧
    (Along Part3.commands.Isolated h ↔ Along Part3.commands.OwnCommands h) ∧
    ∀ p h', ownCalls p h' = ownCalls p h →
      (Along Part2.commands.OwnCommands h → Along Part2.commands.OwnCommands h' →
        Part2.commands.dispatches p h' = Part2.commands.dispatches p h) ∧
      (Along Part3.commands.OwnCommands h → Along Part3.commands.OwnCommands h' →
        Part3.commands.dispatches p h' = Part3.commands.dispatches p h) := by
  have two : ∀ (C : CommandSet) (p : Nat) (h' : List Call), ownCalls p h' = ownCalls p h →
      Along C.OwnCommands h → Along C.OwnCommands h' → C.dispatches p h' = C.dispatches p h := by
    intro C p h' hown hh hh'
    rw [C.dispatches_eq_register p h hh, C.dispatches_eq_register p h' hh', hown]
  exact ⟨Part2.commands.along_isolated_iff h, Part3.commands.along_isolated_iff h,
    fun p h' hown => ⟨two Part2.commands p h' hown, two Part3.commands p h' hown⟩⟩

/-- Process 1 stores `0`, process 2 stores `3`, process 1 stores `abc`. -/
def badText : List Call := [.store 1 [48], .store 2 [51], .store 1 [97, 98, 99]]

/-- The next read of process 1 is answered command 3, which only process 2 ever wrote. -/
theorem foreign_command_after_bad_text :
    (Part2.machine.after badText).command (shellRead 1 8 0) = 3 ∧
    (Part3.machine.after badText).command (shellRead 1 8 0) = 3 ∧
    (∀ c ∈ badText, c.wrote (· == 1) ≠ some 3) ∧
    ¬Along Part2.commands.Isolated (badText ++ [.read (shellRead 1 8 0)]) ∧
    ¬Along Part3.commands.Isolated (badText ++ [.read (shellRead 1 8 0)]) := by
  have hcmd : (Part2.machine.after badText).command (shellRead 1 8 0) = 3 := by decide
  have hforeign : ∀ c ∈ badText, c.wrote (· == 1) ≠ some 3 := by decide
  have hstored : ¬NeverStored (shellRead 1 8 0).current.pid badText := by
    unfold NeverStored
    decide
  refine ⟨hcmd, hcmd, hforeign, fun hall => ?_, fun hall => ?_⟩
  all_goals
    obtain ⟨c, hc, hw⟩ := (along_snoc.mp hall).2.1 hstored
    exact hforeign c hc (hw.trans (congrArg some hcmd))

end LinuxDrivers.Cs614
