import LinuxDrivers.Cs614.Driver

/-!
# Whose command does a read answer?

The registry of Parts 2 and 3 is meant to give every process a command register of
its own: `demo_read` answers the number the caller stored last. The list of nodes
is that register as long as every node holds a number its own process wrote, and
`search_eq_latest` says so. The one way a node can hold something else is a store
whose text does not parse: it is filled from the global, which is whatever anybody
stored last. `OwnText` is the condition under which that does no harm, and
everything here is a consequence of the one run lemma about it.

Two stories come out of it. With parseable texts the registry works, for any number
of processes and any interleaving. With arbitrary texts it leaks commands from one
process to another, exactly where `OwnText` fails, and a process that never stored
anything reads its command off the stack.

The key of the registry is `current->pid`, which is the id of a *thread*. The last
section is about what that means for the threads of one process.
-/

namespace LinuxDrivers.Cs614

/-! ## What a history writes -/

/-- The number a call stores, if it is a store by one of `who` and its text parses. -/
def Call.wrote (who : Nat → Bool) : Call → Option Int
  | .store pid buf => if who pid then sscanf buf else none
  | .read _ => none

/-- A store whose text does not start with a number does not parse. -/
def Call.Parses : Call → Prop
  | .store _ buf => (sscanf buf).isSome
  | .read _ => True

instance : DecidablePred Call.Parses := fun c =>
  match c with
  | .store _ buf => inferInstanceAs (Decidable ((sscanf buf).isSome = true))
  | .read _ => inferInstanceAs (Decidable True)

/-- The number `p` itself stored last. -/
def latestOwn (p : Nat) (h : List Call) : Option Int := latest (Call.wrote (· == p)) h

/-- The number anybody stored last. -/
def latestAny (h : List Call) : Option Int := latest (Call.wrote (fun _ => true)) h

theorem latest_wrote_store (who : Nat → Bool) (h : List Call) (pid : Nat) (buf : List UInt8) :
    latest (Call.wrote who) (h ++ [.store pid buf]) =
      if who pid then (sscanf buf).or (latest (Call.wrote who) h)
      else latest (Call.wrote who) h := by
  rw [latest_snoc, Call.wrote]
  split <;> rfl

@[simp] theorem latest_wrote_read (who : Nat → Bool) (h : List Call) (r : Read) :
    latest (Call.wrote who) (h ++ [.read r]) = latest (Call.wrote who) h := by
  simp [latest_snoc, Call.wrote]

@[simp] theorem latestOwn_read (p : Nat) (h : List Call) (r : Read) :
    latestOwn p (h ++ [.read r]) = latestOwn p h :=
  latest_wrote_read _ h r

@[simp] theorem latestAny_read (h : List Call) (r : Read) :
    latestAny (h ++ [.read r]) = latestAny h :=
  latest_wrote_read _ h r

theorem latestOwn_store (p q : Nat) (h : List Call) (buf : List UInt8) :
    latestOwn p (h ++ [.store q buf]) =
      if q = p then (sscanf buf).or (latestOwn p h) else latestOwn p h := by
  rw [latestOwn, latest_wrote_store]
  simp only [beq_iff_eq, latestOwn]

theorem latestAny_store (p : Nat) (h : List Call) (buf : List UInt8) :
    latestAny (h ++ [.store p buf]) = (sscanf buf).or (latestAny h) := by
  rw [latestAny, latest_wrote_store]
  rfl

/-- A process that stored something, all texts being numbers, has a latest number. -/
theorem exists_latestOwn {h : List Call} {p : Nat} {buf : List UInt8}
    (hparse : ∀ c ∈ h, c.Parses) (hmem : .store p buf ∈ h) : ∃ v, latestOwn p h = some v := by
  obtain ⟨v, hv⟩ := Option.isSome_iff_exists.mp (hparse _ hmem)
  apply Option.ne_none_iff_exists'.mp
  intro hnone
  have := latest_eq_none_iff.mp hnone _ hmem
  simp [Call.wrote, hv] at this

/-! ## The registry after a history -/

/-- The drivers of Parts 2 and 3 differ in `demo_read` only. -/
def registry (demoRead : Read → Registry → Reply) : Mealy Registry Call Reply :=
  driver Registry.empty Registry.store demoRead

theorem part2_machine : Part2.machine = registry Part2.demoRead := rfl

theorem part3_machine : Part3.machine = registry Part3.demoRead := rfl

@[simp] theorem store_value (p : Nat) (buf : List UInt8) (s : Registry) :
    (s.store p buf).value = (sscanf buf).getD s.value := rfl

theorem search_store (p q : Nat) (buf : List UInt8) (s : Registry) :
    (s.store p buf).search q = if p = q then some ((sscanf buf).getD s.value) else s.search q := by
  rcases Decidable.em (p = q) with rfl | hne
  · simp [Registry.search, Registry.store]
  · have hq : (q == p) = false := by simpa using fun e => hne e.symm
    simp [Registry.search, Registry.store, List.lookup, hne, hq]

section
variable (demoRead : Read → Registry → Reply)

theorem registry_after_store (h : List Call) (p : Nat) (buf : List UInt8) :
    (registry demoRead).after (h ++ [.store p buf])
        = ((registry demoRead).after h).store p buf := by
  simp [registry]

theorem registry_after_read (h : List Call) (r : Read) :
    (registry demoRead).after (h ++ [.read r]) = (registry demoRead).after h := by
  simp [registry]

/-- The global holds the number anybody stored last, and zero before that. -/
theorem registry_value (h : List Call) :
    ((registry demoRead).after h).value = (latestAny h).getD 0 := by
  induction h using List.reverseRecOn with
  | nil => rfl
  | append_singleton h c ih =>
      cases c with
      | read r => rw [registry_after_read, latestAny_read, ih]
      | store p buf =>
          rw [registry_after_store, store_value, ih, latestAny_store]
          cases sscanf buf <;> rfl

/-- A store whose text does not parse is harmless when the number it takes from the global
is the one its process stored last. -/
def OwnText (pre : List Call) : Call → Prop
  | .store p buf => sscanf buf = none → ∃ v, latestOwn p pre = some v ∧ latestAny pre = some v
  | .read _ => True

/-- **The first node of a process holds the number it stored last**, as long as no store
has put a foreign number there. -/
theorem search_eq_latest (p : Nat) (h : List Call) :
    Along OwnText h → ((registry demoRead).after h).search p = latestOwn p h := by
  intro hall
  refine along_induction hall rfl ?_
  intro h c _ hc ih
  cases c with
  | read r => rw [registry_after_read, latestOwn_read, ih]
  | store q buf =>
      rw [registry_after_store, search_store, ih, registry_value, latestOwn_store]
      rcases Decidable.em (q = p) with rfl | hne
      · rw [if_pos rfl, if_pos rfl]
        cases hb : sscanf buf with
        | some v => rfl
        | none =>
            -- the node is filled from the global: `OwnText` says whose number that is
            obtain ⟨v, hown, hany⟩ := hc hb
            rw [hany, hown]
            rfl
      · rw [if_neg hne, if_neg hne]

end

theorem along_ownText_of_parses {h : List Call} (hparse : ∀ c ∈ h, c.Parses) : Along OwnText h := by
  intro pre c hpre
  cases c with
  | read r => trivial
  | store p buf =>
      intro hnone
      have hmem : Call.store p buf ∈ h := hpre.subset (by simp)
      have hsome : (sscanf buf).isSome := hparse _ hmem
      simp [hnone] at hsome

/-- A reader that stored a number is dispatched on its latest one. -/
theorem command_of_latestOwn (demoRead : Read → Registry → Reply) {h : List Call} {r : Read}
    {v : Int} (hall : Along OwnText h) (hv : latestOwn r.current.pid h = some v) :
    ((registry demoRead).after h).command r = v := by
  rw [Registry.command, search_eq_latest demoRead _ h hall, hv]
  rfl

/-- A reader that stored no number is dispatched on what its stack holds. -/
theorem command_of_no_latestOwn (demoRead : Read → Registry → Reply) {h : List Call} {r : Read}
    (hall : Along OwnText h) (hnone : latestOwn r.current.pid h = none) :
    ((registry demoRead).after h).command r = r.value1 := by
  rw [Registry.command, search_eq_latest demoRead _ h hall, hnone]
  rfl

/-- **Every process has its own command register.** In a history of parseable stores, a read
by a process that has stored is dispatched on the number that process stored last. -/
theorem read_dispatched_on_own_latest_store {h pre : List Call} {r : Read} {buf : List UInt8}
    (hparse : ∀ c ∈ h, c.Parses) (hread : pre ++ [.read r] <+: h)
    (hstored : .store r.current.pid buf ∈ pre) :
    ∃ v, latestOwn r.current.pid pre = some v ∧
      (Part2.machine.after pre).command r = v ∧
      Part2.machine.out (Part2.machine.after pre) (.read r) = Part2.answer v r ∧
      (Part3.machine.after pre).command r = v ∧
      Part3.machine.out (Part3.machine.after pre) (.read r) = Part3.answer v r := by
  have hpre : pre <+: h := (List.prefix_append _ _).trans hread
  have hparse' : ∀ c ∈ pre, c.Parses := fun c hc => hparse c (hpre.subset hc)
  obtain ⟨v, hv⟩ := exists_latestOwn hparse' hstored
  have hall := along_ownText_of_parses hparse'
  have h2 : (Part2.machine.after pre).command r = v := by
    rw [part2_machine]
    exact command_of_latestOwn Part2.demoRead hall hv
  have h3 : (Part3.machine.after pre).command r = v := by
    rw [part3_machine]
    exact command_of_latestOwn Part3.demoRead hall hv
  refine ⟨v, hv, h2, ?_, h3, ?_⟩
  · rw [← h2]
    rfl
  · rw [← h3]
    rfl

/-- A single-threaded task for the examples. -/
def shell (pid : Nat) : Task := ⟨pid, 120, "sh", 1, 0, [], some [true, true, true], 33⟩

/-- Its read of `length` bytes, with `junk` where `demo_read` has not assigned yet. -/
def shellRead (pid length : Nat) (junk : Int) : Read :=
  ⟨shell pid, some (shell pid), length, junk, 0⟩

/-- Process 1 stores `3`, process 2 stores `0`, and process 1 is still answered command 3. -/
theorem read_after_foreign_store :
    ∃ v, latestOwn 1 [.store 1 [51], .store 2 [48]] = some v ∧
      (Part2.machine.after [.store 1 [51], .store 2 [48]]).command (shellRead 1 8 0) = v ∧
      Part2.machine.out (Part2.machine.after [.store 1 [51], .store 2 [48]])
        (.read (shellRead 1 8 0)) = Part2.answer v (shellRead 1 8 0) ∧
      (Part3.machine.after [.store 1 [51], .store 2 [48]]).command (shellRead 1 8 0) = v ∧
      Part3.machine.out (Part3.machine.after [.store 1 [51], .store 2 [48]])
        (.read (shellRead 1 8 0)) = Part3.answer v (shellRead 1 8 0) :=
  read_dispatched_on_own_latest_store
    (h := [.store 1 [51], .store 2 [48], .read (shellRead 1 8 0)]) (r := shellRead 1 8 0)
    (by decide) (List.prefix_refl _) (List.mem_cons_self)

/-! ## The threads of a process -/

section
variable (tgid : Nat → Nat)

/-- The number any thread of the group `g` stored last. -/
def latestInGroup (g : Nat) (h : List Call) : Option Int :=
  latest (Call.wrote (fun tid => tgid tid == g)) h

/-- A read by a thread of a process that has stored is dispatched on the number any of its
threads stored last. -/
def GroupCommand (pre : List Call) : Call → Prop
  | .store _ _ => True
  | .read r => ∀ v, latestInGroup tgid (tgid r.current.pid) pre = some v →
      (Part3.machine.after pre).command r = v

/-- The reading thread's own latest number is its process's latest, or it has none and
finds that number on its stack. -/
def OwnIsLatest (pre : List Call) : Call → Prop
  | .store _ _ => True
  | .read r => ∀ v, latestInGroup tgid (tgid r.current.pid) pre = some v →
      latestOwn r.current.pid pre = some v ∨ (latestOwn r.current.pid pre = none ∧ r.value1 = v)

/-- **A process shares its command among its threads only where the reading thread wrote it
itself**: nodes are keyed by `current->pid`, the id of the thread. -/
theorem group_command_iff {h : List Call} (hparse : ∀ c ∈ h, c.Parses) :
    Along (GroupCommand tgid) h ↔ Along (OwnIsLatest tgid) h := by
  have hall := along_ownText_of_parses hparse
  have hstep : ∀ pre c, pre ++ [c] <+: h → (GroupCommand tgid pre c ↔ OwnIsLatest tgid pre c) := by
    intro pre c hpre
    have hpre' : Along OwnText pre := hall.of_prefix ((List.prefix_append _ _).trans hpre)
    cases c with
    | store p buf => exact Iff.rfl
    | read r =>
        refine forall_congr' fun v => imp_congr_right fun _ => ?_
        rw [part3_machine]
        rcases hown : latestOwn r.current.pid pre with _ | w
        · rw [command_of_no_latestOwn Part3.demoRead hpre' hown]
          simp
        · rw [command_of_latestOwn Part3.demoRead hpre' hown]
          simp
  constructor
  · intro hg pre c hpre
    exact (hstep pre c hpre).mp (hg pre c hpre)
  · intro ho pre c hpre
    exact (hstep pre c hpre).mpr (ho pre c hpre)

end

/-- Threads 10 and 11 of process 10: the first stores `3`, the second stores `0`. -/
def twoThreads : List Call := [.store 10 [51], .store 11 [48]]

/-- Thread 10 is still answered command 3, although its process stored `0` last. -/
theorem stale_command_of_other_thread :
    latestInGroup (fun _ => 10) 10 twoThreads = some 0 ∧
    (Part3.machine.after twoThreads).command (shellRead 10 8 0) = 3 ∧
    ¬Along (GroupCommand (fun _ => 10)) (twoThreads ++ [.read (shellRead 10 8 0)]) := by
  have hlast : latestInGroup (fun _ => 10) 10 twoThreads = some 0 := by decide
  have hcmd : (Part3.machine.after twoThreads).command (shellRead 10 8 0) = 3 := by decide
  refine ⟨hlast, hcmd, fun hall => ?_⟩
  have hzero := (along_snoc.mp hall).2 0 hlast
  rw [hcmd] at hzero
  exact absurd hzero (by decide)

/-- Thread 11 is answered command 0: its own number is the one its process stored last. -/
theorem own_command_of_last_thread :
    Along (GroupCommand (fun _ => 10)) (twoThreads ++ [.read (shellRead 11 8 5)]) ∧
    (Part3.machine.after twoThreads).command (shellRead 11 8 5) = 0 := by
  have hown : Along (OwnIsLatest (fun _ => 10)) (twoThreads ++ [.read (shellRead 11 8 5)]) := by
    refine along_snoc.mpr ⟨?_, fun v hv => Or.inl ?_⟩
    · exact along_snoc.mpr ⟨along_snoc.mpr ⟨along_nil _, trivial⟩, trivial⟩
    · rw [← hv]
      decide
  have hall := (group_command_iff (fun _ => 10) (by decide)).mpr hown
  exact ⟨hall, (along_snoc.mp hall).2 0 (by decide)⟩

end LinuxDrivers.Cs614
