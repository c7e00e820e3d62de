import LinuxDrivers.Lib.Simulation

/-!
# Pools of tasks

Tasks run at the same time over a state they share. A step is a step of one task: it
changes that task and the shared state, and the other tasks stay where they are
(`Pool.update`). So what holds of every task is kept by a step if it holds of the task
that has moved (`Pool.forall_update`).

In the simplest such system, a `Program`, a task either makes a call or executes the next
statement of the call it is in. Calls take effect at one of their statements and return at
another. `Program.account` says when the log of the one kind is the log of the other, task
by task, and `Mealy.linearizes` when it is a history of a machine that serves one call at a
time.
-/

namespace LinuxDrivers

variable {n : Nat} {σ τ κ χ ε ο α ℓ : Type}

/-- The state the tasks share, and where each of them is. -/
structure Pool (n : Nat) (σ τ : Type) where
  sys : σ
  tasks : Fin n → τ

namespace Pool

/-- Task `t` becomes `task`, and the shared state `s`. -/
def update (p : Pool n σ τ) (t : Fin n) (task : τ) (s : σ) : Pool n σ τ :=
  ⟨s, Function.update p.tasks t task⟩

@[simp] theorem update_sys (p : Pool n σ τ) (t : Fin n) (task : τ) (s : σ) :
    (p.update t task s).sys = s := rfl

@[simp] theorem update_tasks_self (p : Pool n σ τ) (t : Fin n) (task : τ) (s : σ) :
    (p.update t task s).tasks t = task := Function.update_self ..

theorem update_tasks_ne (p : Pool n σ τ) {t i : Fin n} (hi : i ≠ t) (task : τ) (s : σ) :
    (p.update t task s).tasks i = p.tasks i := Function.update_of_ne hi ..

/-- Only the task that moves has to be looked at. -/
theorem forall_update {P : Fin n → τ → Prop} {p : Pool n σ τ} {t : Fin n} {task : τ}
    (ht : P t task) (h : ∀ i, i ≠ t → P i (p.tasks i)) (s : σ) (i : Fin n) :
    P i ((p.update t task s).tasks i) :=
  (Function.forall_update_iff p.tasks P).mpr ⟨ht, h⟩ i

end Pool

/-! ## Programs -/

/-- What a task can do. A statement may depend on an input `χ` from outside. -/
structure Program (σ τ κ χ : Type) where
  /-- It makes a call. -/
  enter : κ → τ → Option τ
  /-- It executes its next statement. -/
  exec : χ → τ → σ → Option (τ × σ)

/-- A task makes a call, or executes a statement. -/
inductive Move (n : Nat) (κ χ : Type) where
  | call (t : Fin n) (c : κ)
  | exec (t : Fin n) (x : χ)

/-- A call of a task, with what it returned. -/
structure Done (n : Nat) (κ ο : Type) where
  task : Fin n
  call : κ
  reply : ο

/-- The calls of one task. -/
def ofTask (t : Fin n) (log : List (Done n κ ο)) : List (Done n κ ο) :=
  log.filter fun d => d.task = t

/-- What the next statement of a task brings about. -/
def Pool.event (f : Fin n → χ → τ → σ → Option ε) (p : Pool n σ τ) : Move n κ χ → Option ε
  | .call .. => none
  | .exec t x => f t x (p.tasks t) p.sys

namespace Program

variable (P : Program σ τ κ χ)

def step (p : Pool n σ τ) : Move n κ χ → Option (Pool n σ τ)
  | .call t c => (P.enter c (p.tasks t)).map fun task => p.update t task p.sys
  | .exec t x => (P.exec x (p.tasks t) p.sys).map fun r => p.update t r.1 r.2

/-- What a step does. -/
inductive StepCase (p : Pool n σ τ) : Move n κ χ → Pool n σ τ → Prop where
  | call {t : Fin n} {c : κ} {task : τ} (h : P.enter c (p.tasks t) = some task) :
      StepCase p (.call t c) (p.update t task p.sys)
  | exec {t : Fin n} {x : χ} {task : τ} {s : σ}
      (h : P.exec x (p.tasks t) p.sys = some (task, s)) :
      StepCase p (.exec t x) (p.update t task s)

variable {P}

theorem step_cases {p p' : Pool n σ τ} {m : Move n κ χ} (hs : P.step p m = some p') :
    P.StepCase p m p' := by
  cases m with
  | call t c =>
      obtain ⟨task, henter, rfl⟩ := Option.map_eq_some_iff.mp hs
      exact .call henter
  | exec t x =>
      obtain ⟨⟨task, s⟩, hexec, rfl⟩ := Option.map_eq_some_iff.mp hs
      exact .exec hexec

theorem step_of_enter {p : Pool n σ τ} {t : Fin n} {c : κ} {task : τ}
    (h : P.enter c (p.tasks t) = some task) :
    P.step p (.call t c) = some (p.update t task p.sys) := by
  rw [step, h]
  rfl

theorem step_of_exec {p : Pool n σ τ} {t : Fin n} {x : χ} {task : τ} {s : σ}
    (h : P.exec x (p.tasks t) p.sys = some (task, s)) :
    P.step p (.exec t x) = some (p.update t task s) := by
  rw [step, h]
  rfl

/-- What holds of every task, if a task keeps it in its own steps. -/
theorem forall_step {I : τ → Prop} (enter : ∀ c task task', P.enter c task = some task' → I task')
    (exec : ∀ x task s task' s', I task → P.exec x task s = some (task', s') → I task')
    {p p' : Pool n σ τ} {m : Move n κ χ} (h : ∀ t, I (p.tasks t)) (hs : P.step p m = some p')
    (t : Fin n) : I (p'.tasks t) := by
  cases step_cases hs with
  | call henter =>
      have htask := enter _ _ _ henter
      exact Pool.forall_update (P := fun _ => I) htask (fun i _ => h i) _ t
  | exec hexec =>
      have htask := exec _ _ _ _ _ (h _) hexec
      exact Pool.forall_update (P := fun _ => I) htask (fun i _ => h i) _ t

/-! ## What begins, and what ends -/

/-- The events of one task are those of its own steps. -/
theorem event_filter {f : Fin n → χ → τ → σ → Option (Done n κ ο)}
    (own : ∀ t x task s, ∀ d ∈ f t x task s, d.task = t) (p : Pool n σ τ) (t u : Fin n) (x : χ) :
    ((Pool.event f p (.exec t x : Move n κ χ)).filter fun d => d.task = u)
      = if t = u then f t x (p.tasks t) p.sys else none := by
  show (f t x (p.tasks t) p.sys).filter _ = _
  have hown := own t x (p.tasks t) p.sys
  cases hf : f t x (p.tasks t) p.sys with
  | none => simp
  | some d =>
      have hd : d.task = t := hown d (by rw [hf]; rfl)
      by_cases htu : t = u <;> simp [Option.filter_some, hd, htu]

/-- A call that has begun ends, or is pending. If this is so with every statement of a task, it is
so in every run: the calls that have begun, task by task, are those that have ended, and what is
pending. -/
theorem account {begins ends : Fin n → χ → τ → σ → Option (Done n κ ο)}
    (pending : Fin n → τ → List (Done n κ ο))
    (hbegins : ∀ t x task s, ∀ d ∈ begins t x task s, d.task = t)
    (hends : ∀ t x task s, ∀ d ∈ ends t x task s, d.task = t)
    (enter : ∀ t c task task', P.enter c task = some task' → pending t task' = pending t task)
    (exec : ∀ t x task s task' s', P.exec x task s = some (task', s') →
      pending t task ++ (begins t x task s).toList = (ends t x task s).toList ++ pending t task')
    {p₀ : Pool n σ τ} (init : ∀ t, pending t (p₀.tasks t) = []) (ms : List (Move n κ χ))
    {p : Pool n σ τ} (hrun : runs P.step p₀ ms = some p) (u : Fin n) :
    ofTask u (commits P.step (Pool.event begins) p₀ ms)
      = ofTask u (commits P.step (Pool.event ends) p₀ ms) ++ pending u (p.tasks u) := by
  unfold ofTask
  rw [commits_filter, commits_filter]
  refine runs_pending (fun p : Pool n σ τ => pending u (p.tasks u)) (init u) ?_ ms p hrun
  intro p m p' hs
  cases step_cases hs with
  | @call t c task henter =>
      show pending u (p.tasks u) ++ [] = [] ++ _
      rw [List.append_nil, List.nil_append]
      rcases eq_or_ne u t with rfl | hne
      · rw [Pool.update_tasks_self, enter _ _ _ _ henter]
      · rw [Pool.update_tasks_ne p hne]
  | @exec t x task s hexec =>
      rw [event_filter hbegins, event_filter hends]
      rcases eq_or_ne u t with rfl | hne
      · rw [if_pos rfl, if_pos rfl, Pool.update_tasks_self]
        exact exec _ _ _ _ _ _ hexec
      · rw [if_neg hne.symm, if_neg hne.symm, Pool.update_tasks_ne p hne]
        simp

end Program

/-! ## Serial histories -/

namespace Mealy

variable [DecidableEq ο] (M : Mealy α κ ο)

/-- The machine takes the call with its reply. -/
def take (a : α) (d : Done n κ ο) : Option α := M.accept a (d.call, d.reply)

theorem commits_take {a a' : α} {d : Done n κ ο} {c : κ} (hcall : d.call = c)
    (hreply : M.out a c = d.reply) (hnext : M.next a c = a') : Commits M.take (some d) a a' := by
  subst hcall hnext
  exact M.accept_of_eq hreply

/-- A system is linearizable if the machine can follow it: with every step it takes the call that
takes effect there, if there is one. -/
theorem linearizes {step : σ → ℓ → Option σ} {commit : σ → ℓ → Option (Done n κ ο)}
    {R : σ → α → Prop} {s : σ} (init : R s M.init)
    (next : ∀ s l s' a, R s a → step s l = some s' →
      ∃ a', Commits M.take (commit s l) a a' ∧ R s' a')
    {ls : List ℓ} {t : σ} (hrun : runs step s ls = some t) :
    M.outputs ((commits step commit s ls).map Done.call)
        = (commits step commit s ls).map Done.reply
      ∧ R t (M.after ((commits step commit s ls).map Done.call)) := by
  have hsim : ∃ a, runs M.take M.init (commits step commit s ls) = some a ∧ R t a :=
    runs_simulate init (fun s l s' a h (_ : True) hs => next s l s' a h hs)
      (.of_forall fun _ _ _ => trivial) hrun
  obtain ⟨a, hserial, hR⟩ := hsim
  obtain ⟨rfl, hout⟩ := M.runs_accept_map Done.call Done.reply _ hserial
  exact ⟨hout, hR⟩

end Mealy

end LinuxDrivers
