import LinuxDrivers.Cs614.Threads

/-!
# The mutex makes the calls atomic

Whatever the threads do at the same time, the driver of `Driver.lean` does one call after
the other: there is an order of the calls in which it gives the same replies and ends with
the same list. It is the order in which the stores link their nodes in and the reads end
their searches. Each call takes its place in that order while it is being executed.

One thread at most is between `mutex_lock` and `mutex_unlock`, and `Busy` says for each
statement in between what holds there. The others are not looked at: what holds of them
does not depend on anything shared.
-/

namespace LinuxDrivers.Cs614

/-! ## In the section -/

/-- The thread holds the mutex. -/
def Pc.inside : Pc → Bool
  | .idle | .storeLock | .storeReturn | .readLock | .readReturn => false
  | _ => true

/-- The global has been parsed into and the node is not linked in yet. -/
def Pc.parsed : Pc → Bool
  | .kmalloc | .setPid | .setValue | .setNext | .setHead => true
  | _ => false

/-- A store that is building its node: the global is as the registry will have it, and the list
does not know of the node. -/
structure Building (g : Globals) (a : Registry) (th : Thread) (pid : Nat) (buf : List UInt8) :
    Prop where
  call : th.call = .store pid buf
  value : g.value = (sscanf buf).getD a.value
  list : Linked (unlinked g.heap th.newNode) g.head a.head

/-- A read in its search, with the nodes from `p` on still to be looked at. -/
structure Searching (g : Globals) (a : Registry) (th : Thread) (r : Read) (p : Nat) : Prop where
  call : th.call = .read r
  unassigned : th.value1 = r.value1
  rest : ∃ l, Linked g.heap p l ∧ a.search r.current.pid = l.lookup r.current.pid

/-- What holds at each statement, when the calls that have taken effect have led to `a`. -/
inductive Busy (g : Globals) (a : Registry) (th : Thread) : Prop where
  | outside (hpc : th.pc.inside = false)
  | sscanf {pid : Nat} {buf : List UInt8} (hpc : th.pc = .sscanf) (call : th.call = .store pid buf)
  | kmalloc {pid : Nat} {buf : List UInt8} (hpc : th.pc = .kmalloc)
      (call : th.call = .store pid buf) (value : g.value = (Cs614.sscanf buf).getD a.value)
  | setPid {pid : Nat} {buf : List UInt8} (hpc : th.pc = .setPid) (h : Building g a th pid buf)
  | setValue {pid : Nat} {buf : List UInt8} {node : Node} (hpc : th.pc = .setValue)
      (h : Building g a th pid buf) (hne : th.newNode ≠ 0) (hnode : g.heap th.newNode = some node)
      (hpid : node.pid = pid)
  | setNext {pid : Nat} {buf : List UInt8} {node : Node} (hpc : th.pc = .setNext)
      (h : Building g a th pid buf) (hne : th.newNode ≠ 0) (hnode : g.heap th.newNode = some node)
      (hentry : node.entry = (pid, g.value))
  | setHead {pid : Nat} {buf : List UInt8} {node : Node} (hpc : th.pc = .setHead)
      (h : Building g a th pid buf) (hne : th.newNode ≠ 0) (hnode : g.heap th.newNode = some node)
      (hentry : node.entry = (pid, g.value)) (hnext : node.next = g.head)
  | storeUnlock (hpc : th.pc = .storeUnlock)
  | loadHead {r : Read} (hpc : th.pc = .loadHead) (call : th.call = .read r)
      (unassigned : th.value1 = r.value1)
  | test {r : Read} (hpc : th.pc = .test) (h : Searching g a th r th.temp)
  | compare {r : Read} (hpc : th.pc = .compare) (h : Searching g a th r th.temp) (hne : th.temp ≠ 0)
  | assign {r : Read} {node : Node} (hpc : th.pc = .assign) (call : th.call = .read r)
      (hnode : g.heap th.temp = some node) (found : a.search r.current.pid = some node.value)
  | advance {r : Read} {node : Node} (hpc : th.pc = .advance) (hnode : g.heap th.temp = some node)
      (h : Searching g a th r node.next)
  | readUnlock {r : Read} (hpc : th.pc = .readUnlock) (call : th.call = .read r)
      (found : th.value1 = a.command r)

/-- A thread waiting for the mutex is in the call it waits for. -/
structure Thread.Entered (th : Thread) : Prop where
  store : th.pc = .storeLock → ∃ pid buf, th.call = .store pid buf
  read : th.pc = .readLock → ∃ r, th.call = .read r ∧ th.value1 = r.value1

variable {n : Nat}

/-- The world is where the calls that have taken effect, and led to `a`, have brought it. -/
structure Follows (w : World n) (a : Registry) : Prop where
  excl : Exclusive w.sys.mutex fun t => (w.tasks t).pc.inside = true
  list : Linked w.sys.heap w.sys.head a.head
  value : (∀ t, (w.tasks t).pc.parsed = false) → w.sys.value = a.value
  busy : ∀ t, Busy w.sys a (w.tasks t)
  entered : ∀ t, (w.tasks t).Entered

theorem inside_of_parsed {pc : Pc} (h : pc.parsed = true) : pc.inside = true := by
  cases pc <;> first | rfl | exact absurd h (by decide)

/-- With everybody else outside only the thread that moves has to be looked at. -/
theorem follows_of_alone {w : World n} {t : Fin n} (hw : ∀ u, (w.tasks u).Entered)
    (hothers : ∀ u, u ≠ t → (w.tasks u).pc.inside = false) {th : Thread} {g : Globals}
    {a : Registry} (hmutex : th.pc.inside = true → g.mutex = true)
    (hlist : Linked g.heap g.head a.head) (hvalue : th.pc.parsed = false → g.value = a.value)
    (hbusy : Busy g a th) (hth : th.Entered) : Follows (w.update t th g) a := by
  have honly : ∀ u, ((w.update t th g).tasks u).pc.inside = true → u = t :=
    Pool.forall_update (P := fun u (th : Thread) => th.pc.inside = true → u = t) (fun _ => rfl)
      (fun u hut hu => absurd hu (by simp [hothers u hut])) g
  refine ⟨⟨fun u v hu hv => (honly u hu).trans (honly v hv).symm, fun u hu => ?_⟩, hlist,
    fun hall => ?_, Pool.forall_update hbusy (fun u hut => .outside (hothers u hut)) g,
    Pool.forall_update hth (fun u _ => hw u) g⟩
  · obtain rfl := honly u hu
    rw [Pool.update_tasks_self] at hu
    exact hmutex hu
  · have ht := hall t
    rw [Pool.update_tasks_self] at ht
    exact hvalue ht

/-- A thread that stays outside concerns nobody. -/
theorem Follows.outside {w : World n} {a : Registry} (h : Follows w a) {t : Fin n} {th : Thread}
    (hold : (w.tasks t).pc.inside = false) (hnew : th.pc.inside = false) (hth : th.Entered) :
    Follows (w.update t th w.sys) a := by
  have hout : ∀ {pc : Pc}, pc.inside = false → pc.parsed = false := by
    intro pc hpc
    by_contra hp
    rw [inside_of_parsed (by simpa using hp)] at hpc
    exact absurd hpc (by simp)
  have hin : ∀ u, ((w.update t th w.sys).tasks u).pc.inside = true →
      (w.tasks u).pc.inside = true :=
    Pool.forall_update
      (P := fun u (th : Thread) => th.pc.inside = true → (w.tasks u).pc.inside = true)
      (fun hu => absurd hu (by simp [hnew])) (fun _ _ => id) w.sys
  refine ⟨h.excl.mono hin, h.list, fun hall => h.value fun u => ?_,
    Pool.forall_update (.outside hnew) (fun u _ => h.busy u) w.sys,
    Pool.forall_update hth (fun u _ => h.entered u) w.sys⟩
  rcases eq_or_ne u t with rfl | hut
  · exact hout hold
  · have hu := hall u
    rwa [Pool.update_tasks_ne w hut] at hu

/-- While one thread is inside the others are not. -/
theorem Follows.others {w : World n} {a : Registry} (h : Follows w a) {t : Fin n}
    (hin : (w.tasks t).pc.inside = true) : ∀ u, u ≠ t → (w.tasks u).pc.inside = false := by
  intro u hut
  by_contra hu
  exact hut (h.excl.one u t (by simpa using hu) hin)

/-- While one thread has not parsed, nobody has. -/
theorem Follows.value_of_inside {w : World n} {a : Registry} (h : Follows w a) {t : Fin n}
    (hin : (w.tasks t).pc.inside = true) (hparsed : (w.tasks t).pc.parsed = false) :
    w.sys.value = a.value := by
  refine h.value fun u => ?_
  by_cases hut : u = t
  · subst hut
    exact hparsed
  · by_contra hp
    have hu := inside_of_parsed (by simpa using hp : (w.tasks u).pc.parsed = true)
    rw [h.others hin u hut] at hu
    exact absurd hu (by simp)

/-- The mutex is taken. -/
theorem Follows.lock {w : World n} {a : Registry} (h : Follows w a) (hfree : w.sys.mutex = false)
    {t : Fin n} {th : Thread} (hbusy : Busy { w.sys with mutex := true } a th) (hth : th.Entered) :
    Follows (w.update t th { w.sys with mutex := true }) a := by
  have hnone : ∀ u, (w.tasks u).pc.inside = false := by
    intro u
    by_contra hu
    exact h.excl.none_of_free hfree u (by simpa using hu)
  refine follows_of_alone h.entered (fun u _ => hnone u) (fun _ => rfl) h.list (fun _ => ?_)
    hbusy hth
  refine h.value fun u => ?_
  by_contra hp
  have hu := inside_of_parsed (by simpa using hp : (w.tasks u).pc.parsed = true)
  rw [hnone u] at hu
  exact absurd hu (by simp)

/-! ## One step -/

variable (part : Part)

theorem machine_store (a : Registry) (pid : Nat) (buf : List UInt8) :
    part.machine.out a (.store pid buf) = ⟨buf.length, none⟩
      ∧ part.machine.next a (.store pid buf) = a.store pid buf := by
  cases part <;> exact ⟨rfl, rfl⟩

theorem machine_read (a : Registry) (r : Read) :
    part.machine.out a (.read r) = part.answer (a.command r) r
      ∧ part.machine.next a (.read r) = a := by
  cases part <;> exact ⟨rfl, rfl⟩

theorem follows_call {w : World n} {a : Registry} (h : Follows w a) {t : Fin n} {c : Call}
    {th : Thread} (henter : program.enter c (w.tasks t) = some th) :
    Follows (w.update t th w.sys) a := by
  obtain ⟨hidle, ⟨⟩⟩ := Option.ite_none_right_eq_some.mp henter
  cases c with
  | store pid buf =>
      exact h.outside (by rw [hidle]; rfl) rfl ⟨fun _ => ⟨pid, buf, rfl⟩, (nomatch ·)⟩
  | read r => exact h.outside (by rw [hidle]; rfl) rfl ⟨(nomatch ·), fun _ => ⟨r, rfl, rfl⟩⟩

theorem set_eq_some {g g' : Globals} {p : Nat} {f : Node → Node} (h : g.set p f = some g') :
    ∃ node, p ≠ 0 ∧ g.heap p = some node
      ∧ g' = { g with heap := Function.update g.heap p (some (f node)) } := by
  unfold Globals.set at h
  split at h
  · exact absurd h (by simp)
  · rename_i hp
    obtain ⟨node, hnode, rfl⟩ := Option.map_eq_some_iff.mp h
    exact ⟨node, hp, hnode, rfl⟩

/-- The list is not touched by a write to the node that is being built. -/
theorem Building.write {g : Globals} {a : Registry} {th : Thread} {pid : Nat} {buf : List UInt8}
    (h : Building g a th pid buf) (pc : Pc) (node : Node) :
    Building { g with heap := Function.update g.heap th.newNode (some node) } a { th with pc := pc }
      pid buf := ⟨h.call, h.value, h.list.write _⟩

/-- The thread inside, with what it knows. -/
structure Inside (g : Globals) (a : Registry) (th : Thread) : Prop where
  mutex : th.pc.inside = true → g.mutex = true
  list : Linked g.heap g.head a.head
  value : th.pc.parsed = false → g.value = a.value
  busy : Busy g a th

section

variable {g g' : Globals} {a : Registry} {th th' : Thread} {fresh : Nat} {garbage : Node}

theorem exec_sscanf {pid : Nat} {buf : List UInt8} (h : Inside g a th) (hpc : th.pc = .sscanf)
    (call : th.call = .store pid buf) (hexec : th.exec fresh garbage g = some (th', g')) :
    Inside g' a th' := by
  simp only [Thread.exec, hpc, call, Option.some.injEq, Prod.mk.injEq] at hexec
  obtain ⟨rfl, rfl⟩ := hexec
  have hvalue := h.value (by rw [hpc]; rfl)
  refine ⟨fun _ => h.mutex (by rw [hpc]; rfl), h.list,
    fun hp => absurd hp (by simp [Pc.parsed]), ?_⟩
  exact .kmalloc rfl rfl (by rw [← hvalue]; rfl)

theorem exec_kmalloc {pid : Nat} {buf : List UInt8} (h : Inside g a th) (hpc : th.pc = .kmalloc)
    (call : th.call = .store pid buf) (value : g.value = (sscanf buf).getD a.value)
    (hexec : th.exec fresh garbage g = some (th', g')) : Inside g' a th' := by
  have hmutex := h.mutex (by rw [hpc]; rfl)
  simp only [Thread.exec, hpc] at hexec
  split at hexec
  · obtain ⟨rfl, rfl⟩ := Prod.mk.inj (Option.some.inj hexec)
    exact ⟨fun _ => hmutex, h.list, fun hp => absurd hp (by simp [Pc.parsed]),
      .setPid rfl ⟨call, value, h.list.unlinked (Or.inl rfl)⟩⟩
  · split at hexec
    · exact absurd hexec (by simp)
    · rename_i hused
      obtain ⟨rfl, rfl⟩ := Prod.mk.inj (Option.some.inj hexec)
      have hnone : g.heap fresh = none := Option.not_isSome_iff_eq_none.mp hused
      have hlist : Linked (unlinked (Function.update g.heap fresh (some garbage)) fresh)
          g.head a.head :=
        (h.list.unlinked (Or.inr hnone)).write _
      exact ⟨fun _ => hmutex, hlist.of_unlinked, fun hp => absurd hp (by simp [Pc.parsed]),
        .setPid rfl ⟨call, value, hlist⟩⟩

/-- Writing a field of the new node. -/
theorem exec_set {pid : Nat} {buf : List UInt8} (h : Inside g a th) (hb : Building g a th pid buf)
    (hin : th.pc.inside = true) {pc : Pc} (hpc : pc.parsed = true) {f : Node → Node}
    (hexec : (g.set th.newNode f).map (fun g => ({ th with pc := pc }, g)) = some (th', g')) :
    ∃ node, th.newNode ≠ 0 ∧ g.heap th.newNode = some node ∧ th' = { th with pc := pc }
      ∧ g' = { g with heap := Function.update g.heap th.newNode (some (f node)) }
      ∧ Building g' a th' pid buf ∧ g'.heap th'.newNode = some (f node)
      ∧ (Busy g' a th' → Inside g' a th') := by
  obtain ⟨g₁, hset, heq⟩ := Option.map_eq_some_iff.mp hexec
  obtain ⟨rfl, rfl⟩ := Prod.mk.inj heq
  obtain ⟨node, hne, hnode, rfl⟩ := set_eq_some hset
  have hb' := hb.write pc (f node)
  refine ⟨node, hne, hnode, rfl, rfl, hb', Function.update_self .., fun hbusy => ?_⟩
  refine ⟨fun _ => h.mutex hin, hb'.list.of_unlinked, fun hp => ?_, hbusy⟩
  rw [hpc] at hp
  exact absurd hp (by simp)

theorem exec_setHead {pid : Nat} {buf : List UInt8} {node : Node} (h : Inside g a th)
    (hpc : th.pc = .setHead) (hb : Building g a th pid buf) (hne : th.newNode ≠ 0)
    (hnode : g.heap th.newNode = some node) (hentry : node.entry = (pid, g.value))
    (hnext : node.next = g.head) (hexec : th.exec fresh garbage g = some (th', g')) :
    Inside g' (a.store pid buf) th' := by
  simp only [Thread.exec, hpc, Option.some.injEq, Prod.mk.injEq] at hexec
  obtain ⟨rfl, rfl⟩ := hexec
  have hlist : Linked (unlinked g.heap th.newNode) node.next a.head := by
    rw [hnext]
    exact hb.list
  have hpush : Linked g.heap th.newNode (node.entry :: a.head) := hlist.push hne hnode
  refine ⟨fun _ => h.mutex (by rw [hpc]; rfl), ?_, fun _ => hb.value, .storeUnlock rfl⟩
  rw [hentry, hb.value] at hpush
  exact hpush

theorem exec_test {r : Read} (h : Inside g a th) (hpc : th.pc = .test)
    (hsearch : Searching g a th r th.temp) (hexec : th.exec fresh garbage g = some (th', g')) :
    Inside g' a th' := by
  have hmutex := h.mutex (by rw [hpc]; rfl)
  have hvalue := h.value (by rw [hpc]; rfl)
  simp only [Thread.exec, hpc, Option.some.injEq, Prod.mk.injEq] at hexec
  obtain ⟨rfl, rfl⟩ := hexec
  refine ⟨fun _ => hmutex, h.list, fun _ => hvalue, ?_⟩
  by_cases hnull : th.temp = 0
  · refine .readUnlock (by rw [if_pos hnull]) hsearch.call ?_
    obtain ⟨l, hl, hlookup⟩ := hsearch.rest
    rw [hnull] at hl
    obtain rfl := hl.eq_nil
    show th.value1 = (a.search r.current.pid).getD r.value1
    rw [hlookup, hsearch.unassigned]
    rfl
  · exact .compare (by rw [if_neg hnull]) ⟨hsearch.call, hsearch.unassigned, hsearch.rest⟩ hnull

theorem exec_compare {r : Read} (h : Inside g a th) (hpc : th.pc = .compare)
    (hsearch : Searching g a th r th.temp) (hne : th.temp ≠ 0)
    (hexec : th.exec fresh garbage g = some (th', g')) : Inside g' a th' := by
  have hmutex := h.mutex (by rw [hpc]; rfl)
  have hvalue := h.value (by rw [hpc]; rfl)
  simp only [Thread.exec, hpc] at hexec
  obtain ⟨node, hnode, heq⟩ := Option.map_eq_some_iff.mp hexec
  obtain ⟨rfl, rfl⟩ := Prod.mk.inj heq
  obtain ⟨l, hl, hlookup⟩ := hsearch.rest
  obtain ⟨node', l', hnode', rfl, hrest⟩ := hl.uncons hne
  obtain rfl := Option.some.inj (hnode.symm.trans hnode')
  have hpid : th.call.pid = r.current.pid := by rw [hsearch.call]; rfl
  rw [Node.entry, List.lookup_cons] at hlookup
  refine ⟨fun _ => hmutex, h.list, fun _ => hvalue, ?_⟩
  by_cases hsame : node.pid = th.call.pid
  · refine .assign (by rw [if_pos hsame]) hsearch.call hnode ?_
    rw [hlookup, hsame, hpid]
    simp
  · refine .advance (by rw [if_neg hsame]) hnode ⟨hsearch.call, hsearch.unassigned, l', hrest, ?_⟩
    rw [hpid] at hsame
    rw [hlookup, beq_eq_false_iff_ne.mpr (fun heq => hsame heq.symm)]

/-- Only setting the head and leaving a read commit a call. -/
theorem commit_eq_none (t : Fin n) (hset : th.pc ≠ .setHead) (hread : th.pc ≠ .readUnlock) :
    th.commit part t = none := by
  unfold Thread.commit
  split
  · exact absurd ‹_› hset
  · exact absurd ‹_› hread
  · rfl

/-- The statements in the section that commit nothing. -/
theorem exec_quiet (h : Inside g a th) (hin : th.pc.inside = true) (hset : th.pc ≠ .setHead)
    (hread : th.pc ≠ .readUnlock) (hexec : th.exec fresh garbage g = some (th', g')) :
    Inside g' a th' := by
  have hmutex := h.mutex hin
  cases h.busy with
  | outside hpc =>
      rw [hpc] at hin
      exact absurd hin (by simp)
  | sscanf hpc call => exact exec_sscanf h hpc call hexec
  | kmalloc hpc call value => exact exec_kmalloc h hpc call value hexec
  | setPid hpc hb =>
      simp only [Thread.exec, hpc] at hexec
      obtain ⟨node, hne, -, rfl, rfl, hb', hnode', hinside⟩ := exec_set h hb hin rfl hexec
      exact hinside (.setValue rfl hb' hne hnode' (by rw [hb.call]; rfl))
  | setValue hpc hb hne hnode hpid =>
      simp only [Thread.exec, hpc] at hexec
      obtain ⟨node, -, hnode₁, rfl, rfl, hb', hnode', hinside⟩ := exec_set h hb hin rfl hexec
      obtain rfl := Option.some.inj (hnode.symm.trans hnode₁)
      exact hinside (.setNext rfl hb' hne hnode' (by rw [← hpid]; rfl))
  | setNext hpc hb hne hnode hentry =>
      simp only [Thread.exec, hpc] at hexec
      obtain ⟨node, -, hnode₁, rfl, rfl, hb', hnode', hinside⟩ := exec_set h hb hin rfl hexec
      obtain rfl := Option.some.inj (hnode.symm.trans hnode₁)
      exact hinside (.setHead rfl hb' hne hnode' hentry rfl)
  | setHead hpc => exact absurd hpc hset
  | storeUnlock hpc =>
      have hvalue := h.value (by rw [hpc]; rfl)
      simp only [Thread.exec, hpc, Option.some.injEq, Prod.mk.injEq] at hexec
      obtain ⟨rfl, rfl⟩ := hexec
      exact ⟨fun hin => absurd hin (by simp [Pc.inside]), h.list, fun _ => hvalue, .outside rfl⟩
  | loadHead hpc call unassigned =>
      have hvalue := h.value (by rw [hpc]; rfl)
      simp only [Thread.exec, hpc, Option.some.injEq, Prod.mk.injEq] at hexec
      obtain ⟨rfl, rfl⟩ := hexec
      exact ⟨fun _ => hmutex, h.list, fun _ => hvalue, .test rfl ⟨call, unassigned, _, h.list, rfl⟩⟩
  | test hpc hsearch => exact exec_test h hpc hsearch hexec
  | compare hpc hsearch hne => exact exec_compare h hpc hsearch hne hexec
  | assign hpc call hnode found =>
      have hvalue := h.value (by rw [hpc]; rfl)
      simp only [Thread.exec, hpc, hnode, Option.map_some, Option.some.injEq,
        Prod.mk.injEq] at hexec
      obtain ⟨rfl, rfl⟩ := hexec
      refine ⟨fun _ => hmutex, h.list, fun _ => hvalue, .readUnlock rfl call ?_⟩
      unfold Registry.command
      rw [found]
      rfl
  | advance hpc hnode hsearch =>
      have hvalue := h.value (by rw [hpc]; rfl)
      simp only [Thread.exec, hpc, hnode, Option.map_some, Option.some.injEq,
        Prod.mk.injEq] at hexec
      obtain ⟨rfl, rfl⟩ := hexec
      exact ⟨fun _ => hmutex, h.list, fun _ => hvalue,
        .test rfl ⟨hsearch.call, hsearch.unassigned, hsearch.rest⟩⟩
  | readUnlock hpc => exact absurd hpc hread

/-- Every statement in the section. -/
theorem exec_inside (t : Fin n) (h : Inside g a th) (hin : th.pc.inside = true)
    (hexec : th.exec fresh garbage g = some (th', g')) :
    ∃ a', Commits part.machine.take (th.commit part t) a a' ∧ Inside g' a' th' := by
  cases h.busy with
  | outside hpc =>
      rw [hpc] at hin
      exact absurd hin (by simp)
  | setHead hpc hb hne hnode hentry hnext =>
      refine ⟨_, ?_, exec_setHead h hpc hb hne hnode hentry hnext hexec⟩
      obtain ⟨hout, hnext'⟩ := machine_store part a _ _
      simp only [Thread.commit, hpc]
      refine part.machine.commits_take hb.call ?_ hnext'
      rw [hout]
      simp only [Thread.done, Thread.reply, hb.call]
  | readUnlock hpc call found =>
      have hvalue := h.value (by rw [hpc]; rfl)
      refine ⟨a, ?_, ?_⟩
      · obtain ⟨hout, hnext⟩ := machine_read part a _
        simp only [Thread.commit, hpc]
        refine part.machine.commits_take call ?_ hnext
        rw [hout]
        simp only [Thread.done, Thread.reply, call, found]
      · simp only [Thread.exec, hpc, Option.some.injEq, Prod.mk.injEq] at hexec
        obtain ⟨rfl, rfl⟩ := hexec
        exact ⟨fun hin => absurd hin (by simp [Pc.inside]), h.list, fun _ => hvalue, .outside rfl⟩
  | _ =>
      have hset : th.pc ≠ .setHead := by simp [*]
      have hread : th.pc ≠ .readUnlock := by simp [*]
      rw [commit_eq_none part t hset hread]
      exact ⟨a, rfl, exec_quiet h hin hset hread hexec⟩

end

/-- No statement leads back to the mutex. -/
theorem exec_entered {g g' : Globals} {th th' : Thread} {fresh : Nat} {garbage : Node}
    (hexec : th.exec fresh garbage g = some (th', g')) : th'.Entered := by
  have hpc : th'.pc ≠ .storeLock ∧ th'.pc ≠ .readLock := by
    unfold Thread.exec at hexec
    split at hexec <;> grind [Option.map_eq_some_iff]
  exact ⟨fun h => absurd h hpc.1, fun h => absurd h hpc.2⟩

theorem follows_exec {w : World n} {a : Registry} (h : Follows w a) {t : Fin n} {fresh : Nat}
    {garbage : Node} {th' : Thread} {g' : Globals}
    (hexec : (w.tasks t).exec fresh garbage w.sys = some (th', g')) :
    ∃ a', Commits part.machine.take ((w.tasks t).commit part t) a a'
      ∧ Follows (w.update t th' g') a' := by
  by_cases hin : (w.tasks t).pc.inside = true
  · have hinside : Inside w.sys a (w.tasks t) :=
      ⟨fun _ => h.excl.held t hin, h.list, h.value_of_inside hin, h.busy t⟩
    obtain ⟨a', hcommit, h'⟩ := exec_inside part t hinside hin hexec
    exact ⟨a', hcommit, follows_of_alone h.entered (h.others hin) h'.mutex h'.list h'.value h'.busy
      (exec_entered hexec)⟩
  · -- outside a thread can enter, if the mutex is free, or return
    have hout : (w.tasks t).pc.inside = false := by simpa using hin
    refine ⟨a, ?_, ?_⟩
    · unfold Thread.commit
      split <;> first | rfl | exact absurd hout (by simp [*, Pc.inside])
    · have hth := exec_entered hexec
      cases hpc : (w.tasks t).pc with
      | idle => exact absurd hexec (by simp [Thread.exec, hpc])
      | storeLock =>
          obtain ⟨pid, buf, hcall⟩ := (h.entered t).store hpc
          simp only [Thread.exec, hpc] at hexec
          split at hexec
          · exact absurd hexec (by simp)
          · rename_i hfree
            obtain ⟨rfl, rfl⟩ := Prod.mk.inj (Option.some.inj hexec)
            exact h.lock (by simpa using hfree) (.sscanf rfl hcall) hth
      | storeReturn =>
          simp only [Thread.exec, hpc, Option.some.injEq, Prod.mk.injEq] at hexec
          obtain ⟨rfl, rfl⟩ := hexec
          exact h.outside hout rfl hth
      | readLock =>
          obtain ⟨r, hcall, hvalue⟩ := (h.entered t).read hpc
          simp only [Thread.exec, hpc] at hexec
          split at hexec
          · exact absurd hexec (by simp)
          · rename_i hfree
            obtain ⟨rfl, rfl⟩ := Prod.mk.inj (Option.some.inj hexec)
            exact h.lock (by simpa using hfree) (.loadHead rfl hcall hvalue) hth
      | readReturn =>
          simp only [Thread.exec, hpc, Option.some.injEq, Prod.mk.injEq] at hexec
          obtain ⟨rfl, rfl⟩ := hexec
          exact h.outside hout rfl hth
      | _ => exact absurd hout (by simp [hpc, Pc.inside])

/-! ## Every run -/

theorem follows_step {w w' : World n} {a : Registry} (h : Follows w a) {m : Step n}
    (hs : w.step m = some w') :
    ∃ a', Commits part.machine.take (Pool.event (fun t _ th _ => th.commit part t) w m) a a'
      ∧ Follows w' a' := by
  cases Program.step_cases hs with
  | call henter => exact ⟨a, rfl, follows_call h henter⟩
  | exec hexec => exact follows_exec part h hexec

theorem follows_loaded {heap : Nat → Option Node} {threads : Fin n → Thread}
    (hidle : ∀ t, (threads t).pc = .idle) : Follows (World.loaded heap threads) Registry.empty where
  excl := .empty fun t ht => by
    rw [show ((World.loaded heap threads).tasks t).pc = .idle from hidle t] at ht
    exact absurd ht (by simp [Pc.inside])
  list := .nil
  value _ := rfl
  busy t := by
    have hpc : ((World.loaded heap threads).tasks t).pc = .idle := hidle t
    exact .outside (by rw [hpc]; rfl)
  entered t := by
    have hpc : ((World.loaded heap threads).tasks t).pc = .idle := hidle t
    exact ⟨fun h => absurd (hpc.symm.trans h) (by simp),
      fun h => absurd (hpc.symm.trans h) (by simp)⟩

/-- The call of a thread that has taken effect and not returned yet. -/
def Thread.pending (t : Fin n) (th : Thread) : List (Done n Call Reply) :=
  match th.pc with
  | .storeUnlock | .storeReturn | .readReturn => [th.done part t]
  | _ => []

/-- A call takes effect once, and returns what it had when it took effect. -/
theorem exec_account (t : Fin n) {g g' : Globals} {th th' : Thread} {fresh : Nat} {garbage : Node}
    (hexec : th.exec fresh garbage g = some (th', g')) :
    th.pending part t ++ (th.commit part t).toList
      = (th.returned part t).toList ++ th'.pending part t := by
  -- one goal for each statement; the one after it decides what is pending
  unfold Thread.exec at hexec
  split at hexec <;> rename_i hpc <;>
    simp only [Thread.pending, Thread.commit, Thread.returned, hpc] <;>
    grind [Option.map_eq_some_iff, Thread.done, Thread.reply]

theorem pending_idle (t : Fin n) {th : Thread} (hidle : th.pc = .idle) :
    th.pending part t = [] := by
  simp [Thread.pending, hidle]

theorem enter_pending (t : Fin n) {c : Call} {th th' : Thread}
    (h : program.enter c th = some th') : th'.pending part t = th.pending part t := by
  obtain ⟨hidle, ⟨⟩⟩ := Option.ite_none_right_eq_some.mp h
  rw [pending_idle part t hidle]
  cases c <;> rfl

theorem task_of_commit {t : Fin n} {th : Thread} {d : Done n Call Reply}
    (h : d ∈ th.commit part t) : d.task = t := by
  unfold Thread.commit at h
  split at h <;> simp only [Option.mem_def, Option.some.injEq, reduceCtorEq] at h <;>
    subst h <;> rfl

theorem task_of_returned {t : Fin n} {th : Thread} {d : Done n Call Reply}
    (h : d ∈ th.returned part t) : d.task = t := by
  unfold Thread.returned at h
  split at h <;> simp only [Option.mem_def, Option.some.injEq, reduceCtorEq] at h <;>
    subst h <;> rfl

theorem taken_eq_finished {w₀ w : World n} (hidle : ∀ t, (w₀.tasks t).pc = .idle)
    (ms : List (Step n)) (hrun : runs World.step w₀ ms = some w) (t : Fin n) :
    ofTask t (taken part w₀ ms) = ofTask t (finished part w₀ ms) ++ (w.tasks t).pending part t :=
  Program.account (Thread.pending part) (fun _ _ _ _ _ => task_of_commit part)
    (fun _ _ _ _ _ => task_of_returned part) (fun t _ _ _ => enter_pending part t)
    (fun t _ _ _ _ _ => exec_account part t) (fun t => pending_idle part t (hidle t)) ms hrun t

/--
**The mutex makes the calls atomic.**

Take any interleaving of the statements of any number of threads. The calls that have
taken effect, in the order in which they did, are a history of the driver that serves one
call at a time: it gives exactly the replies the threads get, and the nodes in memory hold
its list. Each thread has returned from its calls in that order, the last one apart that
may still be on its way out. When no thread is in a call, all have returned and the two
drivers are in the same state.
-/
theorem calls_linearize {heap : Nat → Option Node} {threads : Fin n → Thread}
    (hidle : ∀ t, (threads t).pc = .idle) (ms : List (Step n)) {w : World n}
    (hrun : runs World.step (World.loaded heap threads) ms = some w) :
    part.machine.outputs ((taken part (World.loaded heap threads) ms).map Done.call)
        = (taken part (World.loaded heap threads) ms).map Done.reply
      ∧ Linked w.sys.heap w.sys.head
        (part.machine.after ((taken part (World.loaded heap threads) ms).map Done.call)).head
      ∧ (∀ t, ∃ last, ofTask t (taken part (World.loaded heap threads) ms)
          = ofTask t (finished part (World.loaded heap threads) ms) ++ last ∧ last.length ≤ 1)
      ∧ ((∀ t, (w.tasks t).pc = .idle) → w.sys.value
          = (part.machine.after ((taken part (World.loaded heap threads) ms).map Done.call)).value
        ∧ ∀ t, ofTask t (taken part (World.loaded heap threads) ms)
          = ofTask t (finished part (World.loaded heap threads) ms)) := by
  have hloaded : ∀ t, ((World.loaded heap threads).tasks t).pc = .idle := hidle
  have hinit : part.machine.init = Registry.empty := by cases part <;> rfl
  have hsim := part.machine.linearizes (R := Follows) (by rw [hinit]; exact follows_loaded hidle)
    (fun _ _ _ _ h hs => follows_step part h hs) hrun
  have haccount := taken_eq_finished part hloaded ms hrun
  obtain ⟨hout, hfollows⟩ := hsim
  refine ⟨hout, hfollows.list, fun t => ⟨_, haccount t, ?_⟩, fun hall => ⟨?_, fun t => ?_⟩⟩
  · unfold Thread.pending
    split <;> simp
  · exact hfollows.value fun t => by rw [hall t]; rfl
  · rw [haccount t, pending_idle part t (hall t), List.append_nil]

/-- Reads with 99 where the local is not assigned. -/
def readCall : Read where
  current := ⟨7, 120, "sh", 1, 0, [], none, 0⟩
  task := none
  length := 8
  value1 := 99
  tid := 0

/-- The next `k` statements of a thread, `kmalloc` not among them. -/
def execs (t : Fin 2) (k : Nat) : List (Step 2) := List.replicate k (.exec t (0, ⟨0, 0, 0⟩))

/-- A store of "3" is at its `kmalloc` when the read of the same process is made. -/
def storeThenRead : List (Step 2) :=
  Move.call writer (.store 7 [51]) :: execs writer 2 ++ Move.call reader (.read readCall)
    :: Move.exec writer (4096, ⟨5, 5, 5⟩) :: execs writer 5 ++ execs reader 7 ++ execs writer 1

def atRest : Fin 2 → Thread := fun _ => ⟨.store 0 [], .idle, 0, 0, 0⟩

/-- The read waits for the mutex and finds the node: the serial driver gives the replies of the
run's log, and the list it ends with is the one in memory. -/
theorem calls_linearize_storeThenRead :
    ∃ w, runs World.step (World.loaded (fun _ => none) atRest) storeThenRead = some w
      ∧ taken .three (World.loaded (fun _ => none) atRest) storeThenRead
        = [⟨writer, .store 7 [51], ⟨1, none⟩⟩, ⟨reader, .read readCall, ⟨8, some "1"⟩⟩]
      ∧ Part3.machine.outputs
          ((taken .three (World.loaded (fun _ => none) atRest) storeThenRead).map Done.call)
        = [⟨1, none⟩, ⟨8, some "1"⟩]
      ∧ Linked w.sys.heap w.sys.head [(7, 3)] := by
  have hsome : (runs World.step (World.loaded (fun _ => none) atRest) storeThenRead).isSome :=
    rfl
  have htaken : taken .three (World.loaded (fun _ => none) atRest) storeThenRead
      = [⟨writer, .store 7 [51], ⟨1, none⟩⟩, ⟨reader, .read readCall, ⟨8, some "1"⟩⟩] := by rfl
  obtain ⟨w, hrun⟩ := Option.isSome_iff_exists.mp hsome
  have hidle : ∀ t, (atRest t).pc = .idle := fun _ => rfl
  obtain ⟨hout, hlist, -⟩ := calls_linearize .three hidle storeThenRead hrun
  rw [htaken] at hout hlist
  exact ⟨w, hrun, htaken, by rw [htaken]; exact hout, hlist⟩

end LinuxDrivers.Cs614
