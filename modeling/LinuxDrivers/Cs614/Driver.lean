import LinuxDrivers.Lib.History

/-!
# The process-information drivers of Assignment 1

Three versions of one character device. A process writes a command number into
the sysfs file `cs614_value`; a later `read` of `/dev/cs614_device` answers the
command about the calling task. Part 1 keeps the number in one global. Parts 2
and 3 keep a list of `(pid, value)` nodes, pushed at the front by every store and
searched by the reader's pid; Part 3 has three more commands.

Two things are worth knowing when reading the definitions against the source.
`sscanf` writes into the *global* `cs614_value`, also in Parts 2 and 3, and leaves
it alone when the text does not start with a number; the node is then filled from
the global. And the local `cs614_value1` of `demo_read` is assigned inside the
search only, so a reader without a node goes on with whatever the stack holds:
that value is a field of the call.

Both functions of Parts 2 and 3 hold `cs614_mutex` around everything that touches
the shared data, so a run is a history of whole calls.
-/

namespace LinuxDrivers.Cs614

def einval : Int := 22
def esrch : Int := 3

/-! ## Reading a number: `sscanf(buf, "%d", &cs614_value)` -/

/-- The kernel's `isspace`, over its Latin-1 character table. -/
def isSpace (c : UInt8) : Bool := (9 ≤ c && c ≤ 13) || c == 32 || c == 160

def isDigit (c : UInt8) : Bool := 48 ≤ c && c ≤ 57

/-- `simple_strtoull` in base 10: it wraps at 64 bits. -/
def strtoull (digits : List UInt8) : Nat :=
  digits.foldl (fun acc c => (10 * acc + (c.toNat - 48)) % 2 ^ 64) 0

/-- The number `vsscanf` converts for `%d`: blanks are skipped, a minus sign may follow
(a plus sign may not), and then there has to be a digit. What is stored is truncated to
an `int`. The text ends at its first zero byte. -/
def sscanf (buf : List UInt8) : Option Int :=
  let str := (buf.takeWhile (· != 0)).dropWhile isSpace
  let negative := str.head? == some 45
  let digits := (if negative then str.tail else str).takeWhile isDigit
  if digits.isEmpty then none
  else
    let val : Int := strtoull digits
    some ((if negative then -val else val).bmod (2 ^ 32))

/-! ## The calling task -/

/-- What `demo_read` reads of a task. -/
structure Task where
  pid : Nat
  staticPrio : Int
  comm : String
  /-- `real_parent->pid` -/
  parentPid : Nat
  nvcsw : Nat
  /-- The other threads of the group, in the order `next_thread` visits them. -/
  others : List Nat
  /-- Which slots of the descriptor table are in use; `none` when `files` is `NULL`. -/
  fds : Option (List Bool)
  /-- `mm->stack_vm`; the threads of a group share their `mm`. -/
  stackVm : Nat
  deriving DecidableEq

/-- One `demo_read` call. -/
structure Read where
  current : Task
  /-- What `pid_task(find_vpid(current->pid), PIDTYPE_PID)` returns (Parts 1 and 2). -/
  task : Option Task
  length : Nat
  /-- What the local `cs614_value1` holds before it is assigned. -/
  value1 : Int
  /-- What the local `tid` holds before it is assigned. -/
  tid : Nat
  deriving DecidableEq

/-- What a call returns, and the text it has put into the caller's buffer. -/
structure Reply where
  ret : Int
  text : Option String
  deriving DecidableEq

/-- `return -e` -/
def fail (e : Int) : Reply := ⟨-e, none⟩

/-- `sprintf(ubuf, …); return length` -/
def put (length : Nat) (text : String) : Reply := ⟨length, some text⟩

/-! ## Answering a command -/

/-- The commands all three drivers know; `more` is the rest of the chain of tests. -/
def serve (value : Int) (task : Option Task) (r : Read) (more : Reply) : Reply :=
  let about (f : Task → String) : Reply :=
    match task with
    | none => fail esrch
    | some t => put r.length (f t)
  if r.length < 4 then fail einval
  else if value = 0 then put r.length (toString r.current.pid)
  else if value = 1 then about (fun t => toString t.staticPrio)
  else if value = 2 then about (fun t => t.comm)
  else if value = 3 then about (fun t => toString t.parentPid)
  else if value = 4 then about (fun t => toString t.nvcsw)
  else more

/-- The threads `do … while (process != task)` visits, the caller first. -/
def Task.ring (t : Task) : List Nat := t.pid :: t.others

/-- Command 5: one count for every thread on the ring. -/
def countThreads (t : Task) : Nat := t.ring.foldl (fun count _ => count + 1) 0

/-- Command 6: one count for every slot in use. -/
def countFiles (t : Task) : Nat :=
  match t.fds with
  | none => 0
  | some fd => fd.foldl (fun count used => if used then count + 1 else count) 0

/-- Command 7: the scan for the largest stack, as `(max_stack, tid)`. Every thread is
measured by the `stack_vm` of the shared `mm`. -/
def maxStack (t : Task) (tid : Nat) : Nat × Nat :=
  t.ring.foldl (fun m process => if m.1 < t.stackVm then (t.stackVm, process) else m) (0, tid)

/-! ## The state of Parts 2 and 3 -/

/-- The global `cs614_value`, and the list `head` of `(pid, cs614_value)` nodes. -/
structure Registry where
  value : Int
  head : List (Nat × Int)
  deriving DecidableEq

/-- As the module is loaded: both globals are zero. -/
def Registry.empty : Registry := ⟨0, []⟩

/-- `sysfs_store` of Parts 2 and 3: parse into the global, then push a node with it. -/
def Registry.store (pid : Nat) (buf : List UInt8) (s : Registry) : Registry :=
  let value := (sscanf buf).getD s.value
  ⟨value, (pid, value) :: s.head⟩

/-- The value of the first node with this pid. -/
def Registry.search (s : Registry) (pid : Nat) : Option Int := s.head.lookup pid

/-- `cs614_value1` after the search loop of `demo_read`. -/
def Registry.command (s : Registry) (r : Read) : Int := (s.search r.current.pid).getD r.value1

/-! ## The drivers -/

/-- A call into a driver. -/
inductive Call where
  | store (pid : Nat) (buf : List UInt8)
  | read (r : Read)
  deriving DecidableEq

/-- The process that makes the call. -/
def Call.pid : Call → Nat
  | .store pid _ => pid
  | .read r => r.current.pid

/-- A driver from its two functions; `sysfs_store` returns `count`, the length it was given. -/
def driver {σ : Type} (init : σ) (sysfsStore : Nat → List UInt8 → σ → σ)
    (demoRead : Read → σ → Reply) : Mealy σ Call Reply where
  init := init
  next := fun s c =>
    match c with
    | .store pid buf => sysfsStore pid buf s
    | .read _ => s
  out := fun s c =>
    match c with
    | .store _ buf => ⟨buf.length, none⟩
    | .read r => demoRead r s

section
variable {σ : Type} (init : σ) (sysfsStore : Nat → List UInt8 → σ → σ) (demoRead : Read → σ → Reply)
  (s : σ)

@[simp] theorem driver_init : (driver init sysfsStore demoRead).init = init := rfl

@[simp] theorem driver_next_store (pid : Nat) (buf : List UInt8) :
    (driver init sysfsStore demoRead).next s (.store pid buf) = sysfsStore pid buf s := rfl

@[simp] theorem driver_next_read (r : Read) :
    (driver init sysfsStore demoRead).next s (.read r) = s := rfl

@[simp] theorem driver_out_store (pid : Nat) (buf : List UInt8) :
    (driver init sysfsStore demoRead).out s (.store pid buf) = ⟨buf.length, none⟩ := rfl

@[simp] theorem driver_out_read (r : Read) :
    (driver init sysfsStore demoRead).out s (.read r) = demoRead r s := rfl

end

namespace Part1

/-- `sysfs_store`: the parsed number goes into the one global. -/
def sysfsStore (_pid : Nat) (buf : List UInt8) (value : Int) : Int := (sscanf buf).getD value

/-- `demo_read` -/
def demoRead (r : Read) (value : Int) : Reply := serve value r.task r (fail einval)

def machine : Mealy Int Call Reply := driver 0 sysfsStore demoRead

end Part1

namespace Part2

def sysfsStore : Nat → List UInt8 → Registry → Registry := Registry.store

/-- What `demo_read` does once it has its command. -/
def answer (value : Int) (r : Read) : Reply := serve value r.task r (fail einval)

/-- `demo_read` -/
def demoRead (r : Read) (s : Registry) : Reply := answer (s.command r) r

def machine : Mealy Registry Call Reply := driver Registry.empty sysfsStore demoRead

end Part2

namespace Part3

def sysfsStore : Nat → List UInt8 → Registry → Registry := Registry.store

/-- What `demo_read` does once it has its command; `task` is `current` here. -/
def answer (value : Int) (r : Read) : Reply :=
  serve value (some r.current) r <|
    if value = 5 then put r.length (toString (countThreads r.current))
    else if value = 6 then put r.length (toString (countFiles r.current))
    else if value = 7 then put r.length (toString (maxStack r.current r.tid).2)
    else fail einval

/-- `demo_read` -/
def demoRead (r : Read) (s : Registry) : Reply := answer (s.command r) r

def machine : Mealy Registry Call Reply := driver Registry.empty sysfsStore demoRead

end Part3

end LinuxDrivers.Cs614
