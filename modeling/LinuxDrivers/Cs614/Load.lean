import LinuxDrivers.Lib.Simulation

/-!
# Loading and unloading the drivers of Assignment 1

`cs614_driver_init` is the same in all three parts, up to the mutex. It makes the sysfs
directory first, then registers the device, and where a step fails it takes back those
before it, but not the first: the directory `cs614_sysfs` stays, with a file in it whose
`store` function goes with the module.

There can be one such directory only. In the next load `cs614_sysfs_init` fails,
`cs614_driver_init` does not look at what it returns, and the module is loaded without its
file; to unload it, `cs614_driver_exit` removes a file through a null pointer. So a failed
load is final. As long as there is none, the driver comes and goes without a trace.
-/

namespace LinuxDrivers.Cs614.Load

/-- What the kernel has of the driver. -/
structure Kernel where
  /-- The directory `cs614_sysfs`, with the number of the load that made it. -/
  directory : Option Nat
  /-- The file `cs614_value` in it. -/
  file : Bool
  chrdev : Bool
  cls : Bool
  device : Bool
  deriving DecidableEq

/-- `cs614_value_kobj` -/
inductive Kobj where
  | null
  /-- The directory has been made and given back; the pointer is kept. -/
  | freed
  | valid
  deriving DecidableEq

/-- An error, which is never zero. -/
abbrev Errno := { e : Nat // 0 < e }

def enomem : Errno := ⟨12, by decide⟩
def eexist : Errno := ⟨17, by decide⟩

/-- How the kernel's functions fail in one load, if they do. -/
structure Faults where
  /-- There is no memory for the directory. -/
  kobject : Bool
  file : Option Errno
  chrdev : Option Errno
  cls : Option Errno
  device : Option Errno
  deriving DecidableEq

/-- `cs614_sysfs_init`, in load number `id`: what it returns, and `cs614_value_kobj`. A directory
whose name is taken is not made. -/
def cs614SysfsInit (f : Faults) (id : Nat) (k : Kernel) : Int × Kobj × Kernel :=
  if f.kobject || k.directory.isSome then (-enomem.1, .null, k)
  else
    match f.file with
    | some e => (-e.1, .freed, k)
    | none => (0, .valid, { k with directory := some id, file := true })

/-- `cs614_driver_init`: the return value, the pointer, and what is registered. -/
def cs614DriverInit (f : Faults) (id : Nat) (k : Kernel) : Int × Kobj × Kernel :=
  -- what `cs614_sysfs_init` returns is dropped
  let (_, kobj, k) := cs614SysfsInit f id k
  match f.chrdev with
  | some e => (-e.1, kobj, k)
  | none =>
    let k := { k with chrdev := true }
    match if k.cls then some eexist else f.cls with
    | some e => (-e.1, kobj, { k with chrdev := false })
    | none =>
      let k := { k with cls := true }
      match f.device with
      | some e => (-e.1, kobj, { k with cls := false, chrdev := false })
      | none => (0, kobj, { k with device := true })

/-- `cs614_driver_exit`. It begins with `sysfs_remove_file(cs614_value_kobj, …)`, which does not
come back if there is no directory behind the pointer. -/
def cs614DriverExit (kobj : Kobj) (k : Kernel) : Option Kernel :=
  match kobj with
  | .valid =>
    some { k with directory := none, file := false, device := false, cls := false, chrdev := false }
  | .null | .freed => none

/-- The module while it is loaded. -/
structure Module where
  /-- The number of its load. -/
  id : Nat
  kobj : Kobj
  deriving DecidableEq

structure System where
  kernel : Kernel
  /-- The loads so far, failed ones included. -/
  loads : Nat
  live : Option Module
  deriving DecidableEq

inductive Event where
  | load (f : Faults)
  | unload

/-- A module is not loaded twice, and unloaded only if it is loaded. -/
def System.step (s : System) : Event → Option System
  | .load f =>
    match s.live with
    | some _ => none
    | none =>
      let (ret, kobj, k) := cs614DriverInit f s.loads s.kernel
      some ⟨k, s.loads + 1, if ret = 0 then some ⟨s.loads, kobj⟩ else none⟩
  | .unload =>
    match s.live with
    | some m => (cs614DriverExit m.kobj s.kernel).map fun k => ⟨k, s.loads, none⟩
    | none => none

/-- The load that fails with a step. -/
def System.fails (s : System) : Event → Option Nat
  | .load f => if (cs614DriverInit f s.loads s.kernel).1 = 0 then none else some s.loads
  | .unload => none

/-- The loads that fail in a run. -/
def failures (s : System) (es : List Event) : List Nat := commits System.step System.fails s es

/-! ## The kernels that come up -/

/-- A directory with its file, and the device if `on`. -/
def Kernel.of (directory : Option Nat) (on : Bool) : Kernel :=
  ⟨directory, directory.isSome, on, on, on⟩

/-- Nothing of the driver is there. -/
def System.fresh : System := ⟨.of none false, 0, none⟩

/-- There is memory enough for the directory and its file. -/
def Event.Ample : Event → Prop
  | .load f => f.kobject = false ∧ f.file = none
  | .unload => True

instance : DecidablePred Event.Ample
  | .load f => inferInstanceAs (Decidable (f.kobject = false ∧ f.file = none))
  | .unload => inferInstanceAs (Decidable True)

/-- The directory is there after a load, whatever becomes of the load; a load that does not make it
has no pointer to it. -/
theorem init_eq {f : Faults} (hf : (Event.load f).Ample) (id : Nat) (directory : Option Nat) :
    ∃ ret, cs614DriverInit f id (.of directory false)
      = (ret, if directory.isSome then .null else .valid,
          .of (some (directory.getD id)) (ret == 0)) := by
  obtain ⟨hkobject, hfile⟩ := hf
  have hne : ∀ e : Errno, ((-(e.1 : Int)) == 0) = false := by
    rintro ⟨e, he⟩
    rw [beq_eq_false_iff_ne]
    dsimp only
    omega
  have hsysfs : (cs614SysfsInit f id (.of directory false)).2
      = (if directory.isSome then .null else .valid, .of (some (directory.getD id)) false) := by
    cases directory <;> simp [cs614SysfsInit, Kernel.of, hkobject, hfile]
  unfold cs614DriverInit
  rw [← Prod.mk.eta (p := cs614SysfsInit f id (.of directory false)), hsysfs]
  dsimp only
  -- the device is registered, or one of the three steps has failed and is undone
  cases f.chrdev with
  | some e => exact ⟨-e.1, by rw [hne]⟩
  | none =>
      cases f.cls with
      | some e => exact ⟨-e.1, by rw [hne]; rfl⟩
      | none =>
          cases f.device with
          | some e => exact ⟨-e.1, by rw [hne]; rfl⟩
          | none => exact ⟨0, rfl⟩

/-! ## Every run -/

/-- How things stand, by the loads that have failed. -/
structure Stands (failed : List Nat) (s : System) : Prop where
  kernel : s.kernel = .of (failed.head? <|> s.live.map Module.id) s.live.isSome
  kobj : ∀ m, s.live = some m → m.kobj = if failed = [] then .valid else .null

theorem stands_load {failed : List Nat} {s s' : System} (h : Stands failed s) {f : Faults}
    (hf : (Event.load f).Ample) (hs : s.step (.load f) = some s') :
    Stands (failed ++ (s.fails (.load f)).toList) s' := by
  simp only [System.step] at hs
  split at hs
  · exact absurd hs (by simp)
  · rename_i hlive
    have hkernel : s.kernel = .of failed.head? false := by
      rw [h.kernel, hlive]
      cases failed <;> rfl
    obtain ⟨ret, hinit⟩ := init_eq hf s.loads failed.head?
    have hfails : s.fails (.load f) = if ret = 0 then none else some s.loads := by
      simp only [System.fails, hkernel, hinit]
    rw [hkernel, hinit] at hs
    obtain rfl := Option.some.inj hs
    rw [hfails]
    -- the first failed load has made the directory, or this one makes it
    by_cases hret : ret = 0
    · subst hret
      cases failed with
      | nil => exact ⟨rfl, fun m hm => by cases hm; rfl⟩
      | cons i failed => exact ⟨rfl, fun m hm => by cases hm; rfl⟩
    · have hbeq : (ret == 0) = false := beq_eq_false_iff_ne.mpr hret
      rw [if_neg hret, if_neg hret, hbeq]
      cases failed with
      | nil => exact ⟨rfl, fun m hm => nomatch hm⟩
      | cons i failed => exact ⟨rfl, fun m hm => nomatch hm⟩

theorem stands_unload {failed : List Nat} {s s' : System} (h : Stands failed s)
    (hs : s.step .unload = some s') : Stands failed s' := by
  simp only [System.step] at hs
  split at hs
  · rename_i m hlive
    have hkobj := h.kobj m hlive
    cases failed with
    | nil =>
        rw [hkobj] at hs
        obtain rfl := Option.some.inj hs
        exact ⟨rfl, fun m hm => nomatch hm⟩
    | cons i failed =>
        rw [hkobj] at hs
        exact absurd hs (by simp [cs614DriverExit])
  · exact absurd hs (by simp)

theorem stands_fresh : Stands [] .fresh := ⟨rfl, fun _ hm => nomatch hm⟩

theorem stands_run {es : List Event} (hes : ∀ e ∈ es, e.Ample) : ∀ s,
    runs System.step .fresh es = some s → Stands (failures .fresh es) s := by
  have htrack : ∀ s, runs System.step .fresh es = some s →
      (∀ e ∈ es, e.Ample) → Stands (failures .fresh es) s := by
    refine runs_track (P := fun es s => (∀ e ∈ es, e.Ample) → Stands (failures .fresh es) s)
      (fun _ => stands_fresh) ?_ es
    intro es s e s' hrun ih hs hes
    have h := ih fun x hx => hes x (List.mem_append_left _ hx)
    rw [failures, commits_append _ [e] es hrun, commits_singleton _ hs]
    cases e with
    | load f => exact stands_load h (hes _ (by simp)) hs
    | unload =>
        show Stands (failures .fresh es ++ []) s'
        rw [List.append_nil]
        exact stands_unload h hs
  exact fun s hrun => htrack s hrun hes

/--
**A failed load is final.**

Take any sequence of loads and unloads of the driver with memory enough for the sysfs
directory. As long as no load has failed the kernel has of the driver what the loaded module
has registered, and the module can be unloaded with nothing left. From the first load that
fails on, whatever made it fail, the directory is that of the failed load, a module loaded
later is without it, and cannot be unloaded.
-/
theorem failed_load_is_final {es : List Event} (hes : ∀ e ∈ es, e.Ample) {s : System}
    (hrun : runs System.step .fresh es = some s) :
    (failures .fresh es = [] → s.kernel = .of (s.live.map Module.id) s.live.isSome
      ∧ ∀ m, s.live = some m → s.step .unload = some ⟨.of none false, s.loads, none⟩)
    ∧ ∀ i, (failures .fresh es).head? = some i → s.kernel = .of (some i) s.live.isSome
      ∧ ∀ m, s.live = some m → m.kobj = .null ∧ s.step .unload = none := by
  obtain ⟨hkernel, hkobj⟩ := stands_run hes s hrun
  generalize failures .fresh es = failed at *
  cases failed with
  | nil =>
      refine ⟨fun _ => ⟨hkernel, fun m hm => ?_⟩, fun i hi => nomatch hi⟩
      simp only [System.step, hm, hkobj m hm]
      rfl
  | cons j failed =>
      refine ⟨(nomatch ·), fun i hi => ?_⟩
      obtain rfl := Option.some.inj hi
      refine ⟨hkernel, fun m hm => ⟨hkobj m hm, ?_⟩⟩
      simp only [System.step, hm, hkobj m hm]
      rfl

def noFault : Faults := ⟨false, none, none, none, none⟩

/-- The second load fails at `device_create`. -/
def secondFails : List Event :=
  [.load noFault, .unload, .load { noFault with device := some enomem }, .load noFault]

theorem failed_load_is_final_second :
    ∃ s, runs System.step .fresh secondFails = some s ∧ s.kernel = .of (some 1) true
      ∧ s.step .unload = none := by
  have hample : ∀ e ∈ secondFails, e.Ample := by decide
  have hrun : runs System.step .fresh secondFails
      = some ⟨.of (some 1) true, 3, some ⟨2, .null⟩⟩ := by decide
  have hfirst : (failures .fresh secondFails).head? = some 1 := by decide
  obtain ⟨hkernel, hlive⟩ := (failed_load_is_final hample hrun).2 1 hfirst
  exact ⟨_, hrun, hkernel, (hlive _ rfl).2⟩

end LinuxDrivers.Cs614.Load
