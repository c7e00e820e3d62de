import LinuxDrivers.Lib.Exclusive
import LinuxDrivers.Card.Tasks

/-!
# Only the holder of the lock drives the card

Nothing is assumed about the calls here: requests may be mapped, copies may fail and
signals may arrive. A task is inside from the moment it has the lock until it has
no statement left; the two exits that forget to unlock take it out with the lock
still held.
-/

namespace LinuxDrivers.Card

variable {n : Nat} {E : Cipher}

/-- The statements a request executes under the lock, the unlock apart. -/
def Stmt.guarded : Stmt → Bool
  | .store _ | .spinLock | .spinUnlock => false
  | _ => true

/-- What can be left to execute under the lock: the unlock, if at all, comes last. -/
inductive Held : List Stmt → Prop where
  | nil : Held []
  | unlock : Held [.spinUnlock]
  | cons {st : Stmt} {code : List Stmt} (hst : st.guarded) (h : Held code) : Held (st :: code)

/-- The task is between its `spin_lock` and the end of its call. -/
def Task.Inside (t : Task) : Prop := t.code ≠ [] ∧ Held t.code

/-- What a task can have left to execute. -/
inductive Shape : List Stmt → Prop where
  /-- `SET_KEY` and `SET_CONFIG`, and a call that has returned. -/
  | configuring {code : List Stmt} (ws : List Write) (h : code = ws.map .store) : Shape code
  /-- A request that does not have the lock yet. -/
  | waiting {code : List Stmt} (h : Held code) : Shape (.spinLock :: code)
  | inside {code : List Stmt} (h : Held code) : Shape code

theorem Held.append (pre : List Stmt) {code : List Stmt} (hpre : ∀ st ∈ pre, st.guarded = true)
    (h : Held code) : Held (pre ++ code) := by
  induction pre with
  | nil => exact h
  | cons st pre ih =>
      exact .cons (hpre st (by simp)) (ih fun x hx => hpre x (List.mem_cons_of_mem _ hx))

theorem Held.instrs (is : List Instr) {code : List Stmt} (h : Held code) :
    Held (is.map .instr ++ code) := by
  refine .append _ (fun st hst => ?_) h
  obtain ⟨i, -, rfl⟩ := List.mem_map.mp hst
  rfl

theorem requestBody_held (decrypt : Bool) (ccop : CcOp) :
    Held (requestBody decrypt ccop).tail := by
  refine .append loads (by simp [loads, Stmt.guarded]) ?_
  split
  · exact .append [.writeKey, .copyIn, .transfer decrypt, .copyOut]
      (by simp [Stmt.guarded]) .unlock
  · exact .append [.writeKey, .transferMapped decrypt] (by simp [Stmt.guarded]) .nil

theorem body_shape (cmd : Cmd) : Shape cmd.body := by
  cases cmd with
  | setKey cckey => exact .configuring [.a cckey.a, .b cckey.b, .isKeyset] rfl
  | setConfig cfg => exact .configuring [_, .isConfigset] rfl
  | encrypt ccop => exact .waiting (requestBody_held false ccop)
  | decrypt ccop => exact .waiting (requestBody_held true ccop)
  | other cmd => exact .configuring [] rfl

/-- Where a statement that is no write comes next, the task is a request. -/
theorem Shape.request {st : Stmt} {code : List Stmt} (h : Shape (st :: code))
    (hst : ∀ w, st ≠ .store w) : st = .spinLock ∧ Held code ∨ Held (st :: code) := by
  cases h with
  | configuring ws h =>
      cases ws with
      | nil => exact absurd h (by simp)
      | cons w ws => exact absurd (List.cons.inj h).1 (hst w)
  | waiting h => exact Or.inl ⟨rfl, h⟩
  | inside h => exact Or.inr h

/-- A task that is not inside has no guarded statement next. -/
theorem Shape.held_of_guarded {st : Stmt} {code : List Stmt} (h : Shape (st :: code))
    (hst : st.guarded) : Held code := by
  rcases h.request (fun w hw => by simp [hw, Stmt.guarded] at hst) with ⟨rfl, -⟩ | h
  · exact absurd hst (by simp [Stmt.guarded])
  · cases h with
    | unlock => exact .nil
    | cons _ h => exact h

theorem not_inside_nil {t : Task} (h : t.code = []) : ¬t.Inside := fun hi => hi.1 h

/-- A configuring statement, or the wait for the lock, is not inside. -/
theorem not_inside_cons {t : Task} (st : Stmt) {code : List Stmt} (hc : t.code = st :: code)
    (hst : st.guarded = false) (hne : st ≠ .spinUnlock) : ¬t.Inside := by
  intro hi
  have h := hi.2
  rw [hc] at h
  cases h with
  | unlock => exact hne rfl
  | cons hg _ => simp [hst] at hg

/-- What a statement does to the lock, and where it leaves its task. -/
inductive LockCase (t : Task) (s : Sys) (t' : Task) (s' : Sys) : Prop where
  /-- The task was not inside and is not; it has changed the file's configuration at most. -/
  | outside (hout : ¬t'.Inside) (hlock : s'.ccSpinlock = s.ccSpinlock) (hm : s'.m = s.m)
      (hu : s'.user = s.user)
  | acquire (hfree : s.ccSpinlock = false) (hlock : s'.ccSpinlock = true) (hm : s'.m = s.m)
      (hu : s'.user = s.user)
  /-- The task goes on inside, or has returned with the lock held. -/
  | stay (hin : t.Inside) (hlock : s'.ccSpinlock = s.ccSpinlock)
  | release (hin : t.Inside) (hout : t'.code = []) (hlock : s'.ccSpinlock = false)

theorem exec_lock {t t' : Task} {s s' : Sys} (hshape : Shape t.code) (h : ExecCase t s t' s') :
    LockCase t s t' s' ∧ Shape t'.code := by
  have hinside : ∀ {st : Stmt} {code : List Stmt}, t.code = st :: code → st.guarded →
      t.Inside ∧ Held code := by
    intro st code hc hst
    rw [hc] at hshape
    have hheld := hshape.held_of_guarded hst
    exact ⟨⟨by simp [hc], hc ▸ .cons hst hheld⟩, hheld⟩
  cases h with
  | @store w code file hc hf =>
      rw [hc] at hshape
      cases hshape with
      | configuring ws h =>
          cases ws with
          | nil => exact absurd h (by simp)
          | cons w' ws =>
              obtain ⟨-, rfl⟩ := List.cons.inj h
              refine ⟨.outside ?_ rfl rfl rfl, .configuring ws rfl⟩
              -- what is left are writes again
              cases ws with
              | nil => exact not_inside_nil rfl
              | cons w'' ws => exact not_inside_cons (.store w'') rfl rfl (by simp)
      | inside h =>
          cases h with
          | cons hg _ => exact absurd hg (by simp [Stmt.guarded])
  | load hc hf =>
      have hg := hinside hc rfl
      exact ⟨.stay hg.1 rfl, .inside hg.2⟩
  | lock hc hfree =>
      rw [hc] at hshape
      refine ⟨.acquire hfree rfl rfl rfl, ?_⟩
      rcases hshape.request (by simp) with ⟨-, h⟩ | h
      · exact .inside h
      · cases h with
        | cons hg _ => exact absurd hg (by simp [Stmt.guarded])
  | writeKey hc =>
      have hg := hinside hc rfl
      exact ⟨.stay hg.1 rfl, .inside hg.2⟩
  | copyIn hc =>
      have hg := hinside hc rfl
      exact ⟨.stay hg.1 rfl, .inside hg.2⟩
  | transfer hc =>
      have hg := hinside hc rfl
      exact ⟨.stay hg.1 rfl, .inside (.instrs _ hg.2)⟩
  | transferMapped hc =>
      have hg := hinside hc rfl
      exact ⟨.stay hg.1 rfl, .inside (.instrs _ hg.2)⟩
  | instr hc hgo =>
      have hg := hinside hc rfl
      exact ⟨.stay hg.1 rfl, .inside hg.2⟩
  | copyOut hc hall =>
      have hg := hinside hc rfl
      exact ⟨.stay hg.1 rfl, .inside hg.2⟩
  | fault hc hsome =>
      have hg := hinside hc rfl
      exact ⟨.stay hg.1 rfl, .inside .nil⟩
  | unlock hc =>
      rw [hc] at hshape
      rcases hshape.request (by simp) with ⟨h, -⟩ | h
      · exact absurd h (by simp)
      · cases h with
        | unlock => exact ⟨.release ⟨by simp [hc], hc ▸ .unlock⟩ rfl rfl, .inside .nil⟩
        | cons hg _ => exact absurd hg (by simp [Stmt.guarded])

/-- Every task is somewhere in one of the bodies, and the lock does its work. -/
structure Par.Guarded (p : Par n) : Prop where
  shape : ∀ t, Shape (p.tasks t).code
  excl : Exclusive p.sys.ccSpinlock fun t => (p.tasks t).Inside

theorem guarded_start (s : Sys) : (Par.start (n := n) s).Guarded where
  shape := fun _ => .inside .nil
  excl := .empty fun _ => not_inside_nil rfl

theorem update_shape {p : Par n} (h : ∀ t, Shape (p.tasks t).code) {t : Fin n} {t' : Task}
    {s' : Sys} (ht : Shape t'.code) (i : Fin n) : Shape ((p.update t t' s').tasks i).code :=
  Pool.forall_update (P := fun _ (t : Task) => Shape t.code) ht (fun i _ => h i) s' i

theorem update_inside_ne {p : Par n} {t : Fin n} {t' : Task} {s' : Sys} (i : Fin n) (hi : i ≠ t)
    (h : ((p.update t t' s').tasks i).Inside) : (p.tasks i).Inside := by
  rwa [Pool.update_tasks_ne p hi] at h

/-- A task that changes and does not come to be inside takes nobody in. -/
theorem update_inside_sub {p : Par n} {t : Fin n} {t' : Task} {s' : Sys}
    (hin : t'.Inside → (p.tasks t).Inside) (i : Fin n)
    (h : ((p.update t t' s').tasks i).Inside) : (p.tasks i).Inside :=
  Pool.forall_update (P := fun i (t : Task) => t.Inside → (p.tasks i).Inside) hin
    (fun _ _ => id) s' i h

theorem guarded_exec {p : Par n} (h : p.Guarded) {t : Fin n} {t' : Task} {s' : Sys}
    (hexec : (p.tasks t).exec p.sys = some (t', s')) : (p.update t t' s').Guarded := by
  obtain ⟨hlock, hshape⟩ := exec_lock (h.shape t) (exec_cases hexec)
  refine ⟨update_shape h.shape hshape, ?_⟩
  cases hlock with
  | outside hout hlock _ _ =>
      rw [show (p.update t t' s').sys.ccSpinlock = p.sys.ccSpinlock from hlock]
      exact h.excl.mono (update_inside_sub fun hi => absurd hi hout)
  | acquire hfree hlock _ _ =>
      rw [show (p.update t t' s').sys.ccSpinlock = true from hlock]
      exact h.excl.acquire hfree update_inside_ne
  | stay hin hlock =>
      rw [show (p.update t t' s').sys.ccSpinlock = p.sys.ccSpinlock from hlock]
      exact h.excl.mono (update_inside_sub fun _ => hin)
  | release hin hout hlock =>
      rw [show (p.update t t' s').sys.ccSpinlock = false from hlock]
      refine h.excl.release hin (not_inside_nil ?_) update_inside_ne
      simpa [Par.update, Pool.update] using hout

/-- The lock protects its section, whatever happens. -/
theorem guarded_step {p p' : Par n} {l : Move n} (h : p.Guarded) (hs : p.step E l = some p') :
    p'.Guarded := by
  cases move_cases hs with
  | @fopen t e mem hidle hc hf =>
      have hlock : (cryptocardFopen mem e.fd p.sys).2.ccSpinlock = p.sys.ccSpinlock := by
        cases mem <;> rfl
      exact ⟨h.shape, by rw [hlock]; exact h.excl⟩
  | frelease hidle hc hf hunused => exact ⟨h.shape, h.excl⟩
  | @ioctl t e cmd file hidle hc hf =>
      refine ⟨update_shape h.shape (body_shape cmd), h.excl.mono (update_inside_sub fun hi => ?_)⟩
      -- no body starts under the lock
      refine absurd hi ?_
      cases cmd with
      | setKey cckey => exact not_inside_cons (.store (.a cckey.a)) rfl rfl (by simp)
      | setConfig cfg => exact not_inside_cons (.store _) rfl rfl (by simp)
      | encrypt ccop => exact not_inside_cons .spinLock rfl rfl (by simp)
      | decrypt ccop => exact not_inside_cons .spinLock rfl rfl (by simp)
      | other c => exact not_inside_nil rfl
  | exec hexec => exact guarded_exec h hexec
  | @signal t code hc =>
      have hheld : Held code := by
        have hs := h.shape t
        rw [hc] at hs
        exact hs.held_of_guarded rfl
      refine ⟨update_shape h.shape (.inside hheld), h.excl.mono (update_inside_sub fun _ => ?_)⟩
      exact ⟨by simp [hc], hc ▸ .cons rfl hheld⟩
  | tick hjob => exact ⟨h.shape, h.excl⟩
  | irq hirq => exact ⟨h.shape, h.excl⟩

theorem guarded_runs (s₀ : Sys) (ls : List (Move n)) {p : Par n}
    (hrun : runs (Par.step E) (Par.start s₀) ls = some p) : p.Guarded :=
  runs_track (P := fun _ => Par.Guarded) (guarded_start s₀)
    (fun _ _ _ _ _ h hs => guarded_step h hs) ls p hrun

/--
**Mutual exclusion.**

In every interleaving of any calls, at most one task is between its `spin_lock` and
the end of its call, and then the lock is held. No other task's statement touches
the card, the completion flag, the DMA memory or the memory of any process.
-/
theorem one_task_drives (s₀ : Sys) (ls : List (Move n)) {p : Par n}
    (hrun : runs (Par.step E) (Par.start s₀) ls = some p) :
    (∀ t t', (p.tasks t).Inside → (p.tasks t').Inside → t = t')
      ∧ (∀ t, (p.tasks t).Inside → p.sys.ccSpinlock = true)
      ∧ ∀ t p', p.step E (.exec t) = some p' →
          p'.sys.m ≠ p.sys.m ∨ p'.sys.user ≠ p.sys.user → (p.tasks t).Inside := by
  have h := guarded_runs s₀ ls hrun
  refine ⟨h.excl.one, h.excl.held, ?_⟩
  intro t p' hs hchanged
  cases move_cases hs with
  | exec hexec =>
      cases (exec_lock (h.shape t) (exec_cases hexec)).1 with
      | outside _ _ hm hu => exact absurd hchanged (by simp [Par.update, Pool.update, hm, hu])
      | acquire _ _ hm hu => exact absurd hchanged (by simp [Par.update, Pool.update, hm, hu])
      | stay hin _ => exact hin
      | release hin _ _ => exact hin

/-- Two requests, and the first gets the lock. -/
def contending : List (Move 2) :=
  [.call task₀ ⟨1, 3, Env.calm, .fopen (some (0, 0))⟩,
    .call task₁ ⟨2, 4, Env.calm, .fopen (some (0, 0))⟩,
    .call task₀ ⟨1, 3, Env.calm, .ioctl (.encrypt ⟨4096, 5, 1⟩)⟩,
    .call task₁ ⟨2, 4, Env.calm, .ioctl (.decrypt ⟨4096, 5, 0⟩)⟩, .exec task₀]

/-- The second stays outside. -/
theorem contending_excludes :
    ∃ p, runs (Par.step genCipher) (Par.start (Sys.probed fun _ _ => 65)) contending = some p
      ∧ (p.tasks 0).Inside ∧ ¬(p.tasks 1).Inside ∧ p.sys.ccSpinlock = true := by
  refine ⟨_, rfl, ?_⟩
  obtain ⟨hone, hheld, -⟩ :=
    one_task_drives (E := genCipher) (Sys.probed fun _ _ => 65) contending rfl
  have hin := requestBody_held false ⟨4096, 5, 1⟩
  have hne : (requestBody false ⟨4096, 5, 1⟩).tail ≠ [] := List.cons_ne_nil _ _
  exact ⟨⟨hne, hin⟩, fun h => absurd (hone 0 1 ⟨hne, hin⟩ h) (by decide), hheld 0 ⟨hne, hin⟩⟩

end LinuxDrivers.Card
