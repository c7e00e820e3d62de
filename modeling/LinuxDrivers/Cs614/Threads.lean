import LinuxDrivers.Cs614.Driver
import LinuxDrivers.Lib.Chain
import LinuxDrivers.Lib.Exclusive
import LinuxDrivers.Lib.Pool

/-!
# The drivers of Parts 2 and 3, statement by statement

`Driver.lean` takes `sysfs_store` and `demo_read` as one step each, and keeps the
`(pid, value)` nodes in a list. The source has neither: the calls of several threads run
at the same time, and the nodes are allocated one by one and linked by pointers. Here a
thread executes one statement after the other. What the mutex is for shows: a new node has
garbage in it until its three fields are written, and `sscanf` has changed the global well
before the node is there.

`kmalloc` may fail. The source does not look, and the next statement writes through a null
pointer; the thread then makes no further step, with the mutex held.
-/

namespace LinuxDrivers.Cs614

/-- `struct node`; `next` is an address, or 0 for `NULL`. -/
structure Node where
  pid : Nat
  value : Int
  next : Nat

def Node.entry (n : Node) : Nat × Int := (n.pid, n.value)

/-- The nodes from address `p` on hold `l`. -/
abbrev Linked (heap : Nat → Option Node) : Nat → List (Nat × Int) → Prop :=
  Chain Node.entry Node.next heap

/-- What the threads share: `cs614_mutex`, `cs614_value`, `head` and the nodes. -/
structure Globals where
  mutex : Bool
  value : Int
  head : Nat
  heap : Nat → Option Node

/-- The statement a thread is at. -/
inductive Pc where
  /-- In no call. -/
  | idle
  /-- `mutex_lock` in `sysfs_store` -/
  | storeLock
  | sscanf
  | kmalloc
  | setPid
  | setValue
  | setNext
  | setHead
  | storeUnlock
  | storeReturn
  /-- `mutex_lock` in `demo_read` -/
  | readLock
  /-- `temp = head` -/
  | loadHead
  /-- `while (temp != NULL)` -/
  | test
  /-- `if (temp->pid == current->pid)` -/
  | compare
  /-- `cs614_value1 = temp->cs614_value; break` -/
  | assign
  /-- `temp = temp->next` -/
  | advance
  | readUnlock
  | readReturn
  deriving DecidableEq

structure Thread where
  /-- The call it is in, or was in last. -/
  call : Call
  pc : Pc
  newNode : Nat
  temp : Nat
  value1 : Int

/-- The text given to `sysfs_store`. -/
def Call.text : Call → List UInt8
  | .store _ buf => buf
  | .read _ => []

/-- A thread enters a call; the locals hold what the stack does. -/
def Thread.enter (th : Thread) (c : Call) : Thread :=
  match c with
  | .store .. => { th with call := c, pc := .storeLock }
  | .read r => { th with call := c, pc := .readLock, value1 := r.value1 }

/-- Write a field of the node at `p`. -/
def Globals.set (g : Globals) (p : Nat) (f : Node → Node) : Option Globals :=
  if p = 0 then none
  else (g.heap p).map fun n => { g with heap := Function.update g.heap p (some (f n)) }

/-- The next statement of a thread. Only `kmalloc` looks at `fresh`, the address it returns, and at
`garbage`, what is in the memory there. -/
def Thread.exec (fresh : Nat) (garbage : Node) (th : Thread) (g : Globals) :
    Option (Thread × Globals) :=
  match th.pc with
  | .idle => none
  | .storeLock =>
    if g.mutex then none else some ({ th with pc := .sscanf }, { g with mutex := true })
  | .sscanf =>
    some ({ th with pc := .kmalloc }, { g with value := (Cs614.sscanf th.call.text).getD g.value })
  | .kmalloc =>
    if fresh = 0 then some ({ th with pc := .setPid, newNode := 0 }, g)
    else if (g.heap fresh).isSome then none
    else some ({ th with pc := .setPid, newNode := fresh },
      { g with heap := Function.update g.heap fresh (some garbage) })
  | .setPid =>
    (g.set th.newNode fun n => { n with pid := th.call.pid }).map fun g =>
      ({ th with pc := .setValue }, g)
  | .setValue =>
    (g.set th.newNode fun n => { n with value := g.value }).map fun g =>
      ({ th with pc := .setNext }, g)
  | .setNext =>
    (g.set th.newNode fun n => { n with next := g.head }).map fun g =>
      ({ th with pc := .setHead }, g)
  | .setHead => some ({ th with pc := .storeUnlock }, { g with head := th.newNode })
  | .storeUnlock => some ({ th with pc := .storeReturn }, { g with mutex := false })
  | .storeReturn => some ({ th with pc := .idle }, g)
  | .readLock =>
    if g.mutex then none else some ({ th with pc := .loadHead }, { g with mutex := true })
  | .loadHead => some ({ th with pc := .test, temp := g.head }, g)
  | .test => some ({ th with pc := if th.temp = 0 then .readUnlock else .compare }, g)
  | .compare =>
    (g.heap th.temp).map fun n =>
      ({ th with pc := if n.pid = th.call.pid then .assign else .advance }, g)
  | .assign => (g.heap th.temp).map fun n => ({ th with pc := .readUnlock, value1 := n.value }, g)
  | .advance => (g.heap th.temp).map fun n => ({ th with pc := .test, temp := n.next }, g)
  | .readUnlock => some ({ th with pc := .readReturn }, { g with mutex := false })
  | .readReturn => some ({ th with pc := .idle }, g)

/-! ## All threads together -/

/-- A thread makes a call when it is in none. -/
def program : Program Globals Thread Call (Nat × Node) where
  enter c th := if th.pc = .idle then some (th.enter c) else none
  exec x th g := th.exec x.1 x.2 g

abbrev World (n : Nat) := Pool n Globals Thread

/-- A call, or a statement with the address and the garbage for `kmalloc`. -/
abbrev Step (n : Nat) := Move n Call (Nat × Node)

variable {n : Nat}

abbrev World.step : World n → Step n → Option (World n) := program.step

/-- As the module is loaded, with `threads` in no call. -/
def World.loaded (heap : Nat → Option Node) (threads : Fin n → Thread) : World n :=
  ⟨⟨false, 0, 0, heap⟩, threads⟩

/-! ## Calls that are over, and calls that have taken effect -/

/-- The two drivers. -/
inductive Part where
  | two
  | three

/-- What `demo_read` does once it has its command. -/
def Part.answer : Part → Int → Read → Reply
  | .two => Part2.answer
  | .three => Part3.answer

def Part.machine : Part → Mealy Registry Call Reply
  | .two => Part2.machine
  | .three => Part3.machine

/-- What the call returns. -/
def Thread.reply (part : Part) (th : Thread) : Reply :=
  match th.call with
  | .store _ buf => ⟨buf.length, none⟩
  | .read r => part.answer th.value1 r

def Thread.done (part : Part) (t : Fin n) (th : Thread) : Done n Call Reply :=
  ⟨t, th.call, th.reply part⟩

/-- The call that takes effect with the next statement: a store when its node is linked in, a read
when its search is over. -/
def Thread.commit (part : Part) (t : Fin n) (th : Thread) : Option (Done n Call Reply) :=
  match th.pc with
  | .setHead | .readUnlock => some (th.done part t)
  | _ => none

/-- The call that returns with the next statement. -/
def Thread.returned (part : Part) (t : Fin n) (th : Thread) : Option (Done n Call Reply) :=
  match th.pc with
  | .storeReturn | .readReturn => some (th.done part t)
  | _ => none

/-- The calls that take effect in a run, in the order in which they do. -/
def taken (part : Part) (w : World n) (ms : List (Step n)) : List (Done n Call Reply) :=
  commits World.step (Pool.event fun t _ th _ => th.commit part t) w ms

/-- The calls that return in a run. -/
def finished (part : Part) (w : World n) (ms : List (Step n)) : List (Done n Call Reply) :=
  commits World.step (Pool.event fun t _ th _ => th.returned part t) w ms

/-- Two threads, for small runs. -/
def writer : Fin 2 := ⟨0, Nat.two_pos⟩

@[inherit_doc writer]
def reader : Fin 2 := ⟨1, Nat.one_lt_two⟩

end LinuxDrivers.Cs614
