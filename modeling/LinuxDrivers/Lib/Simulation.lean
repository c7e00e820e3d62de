import LinuxDrivers.Lib.Run

/-!
# Commit points

A system that takes many small steps implements one that takes few large ones when
each small step either *commits* one event of the large system or is invisible to
it. `commits` is the list of events a run commits, in the order of its steps, and
`runs_simulate` turns a relation that every step keeps into a statement about whole
runs: the large system takes exactly the committed events and ends in a related
state.

A condition on the steps of a run may look at the state each is taken in; `Meets`
says that all of them meet it.
-/

namespace LinuxDrivers

variable {σ α ℓ ε : Type}

theorem runs_cons (step : σ → ℓ → Option σ) (s : σ) (l : ℓ) (ls : List ℓ) :
    runs step s (l :: ls) = (step s l).bind fun s' => runs step s' ls := rfl

/-- Every label of the run meets `Ok` in the state it is taken in. -/
def Meets (step : σ → ℓ → Option σ) (Ok : σ → ℓ → Prop) (s : σ) (ls : List ℓ) : Prop :=
  Along (fun pre l => ∀ t, runs step s pre = some t → Ok t l) ls

theorem Meets.of_forall {step : σ → ℓ → Option σ} {Ok : σ → ℓ → Prop} {s : σ} {ls : List ℓ}
    (h : ∀ l ∈ ls, ∀ t, Ok t l) : Meets step Ok s ls :=
  fun _ l hpre t _ => h l (hpre.subset (by simp)) t

theorem meets_cons {step : σ → ℓ → Option σ} {Ok : σ → ℓ → Prop} {s : σ} {l : ℓ} {ls : List ℓ} :
    Meets step Ok s (l :: ls) ↔ Ok s l ∧ ∀ s', step s l = some s' → Meets step Ok s' ls := by
  constructor
  · intro h
    refine ⟨h [] l (by simp) s rfl, fun s' hs' pre x hpre t ht => ?_⟩
    refine h (l :: pre) x (by simpa using hpre) t ?_
    exact Option.bind_eq_some_iff.mpr ⟨s', hs', ht⟩
  · rintro ⟨hl, hrest⟩ pre x hpre t ht
    cases pre with
    | nil =>
        obtain ⟨rfl, -⟩ := List.cons_prefix_cons.mp hpre
        cases ht
        exact hl
    | cons y pre =>
        obtain ⟨rfl, hpre'⟩ := List.cons_prefix_cons.mp hpre
        obtain ⟨s', hs', ht'⟩ := Option.bind_eq_some_iff.mp ht
        exact hrest s' hs' pre x hpre' t ht'

/-- A run can be checked step by step. -/
instance Meets.decidable (step : σ → ℓ → Option σ) (Ok : σ → ℓ → Prop)
    [∀ s l, Decidable (Ok s l)] : ∀ s ls, Decidable (Meets step Ok s ls)
  | _, [] => isTrue (along_nil _)
  | s, l :: ls =>
    match hs : step s l with
    | none => decidable_of_iff (Ok s l) (by rw [meets_cons]; simp [hs])
    | some s' =>
      have : Decidable (Meets step Ok s' ls) := Meets.decidable step Ok s' ls
      decidable_of_iff (Ok s l ∧ Meets step Ok s' ls) (by rw [meets_cons]; simp [hs])

/-- An invariant kept by every step that meets the condition. -/
theorem runs_meets {step : σ → ℓ → Option σ} {Ok : σ → ℓ → Prop} {P : σ → Prop} {s : σ}
    (init : P s) (next : ∀ t l t', P t → Ok t l → step t l = some t' → P t')
    {ls : List ℓ} (hok : Meets step Ok s ls) {t : σ} (hrun : runs step s ls = some t) : P t :=
  runs_inv init (fun _ u l u' hu hP hl hstep => next u l u' hP (hl u hu) hstep) ls hok t hrun

/-- The events a run commits. -/
def commits (step : σ → ℓ → Option σ) (commit : σ → ℓ → Option ε) : σ → List ℓ → List ε
  | _, [] => []
  | s, l :: ls =>
    match step s l with
    | none => []
    | some s' => (commit s l).toList ++ commits step commit s' ls

theorem commits_append {step : σ → ℓ → Option σ} (commit : σ → ℓ → Option ε) (ks : List ℓ) :
    ∀ (ls : List ℓ) {s t : σ}, runs step s ls = some t →
      commits step commit s (ls ++ ks) = commits step commit s ls ++ commits step commit t ks := by
  intro ls
  induction ls with
  | nil => intro s t hrun; cases hrun; rfl
  | cons x ls ih =>
      intro s t hrun
      obtain ⟨s₁, hx, hrest⟩ := Option.bind_eq_some_iff.mp hrun
      rw [List.cons_append, commits, commits, hx]
      dsimp only
      rw [ih hrest, List.append_assoc]

theorem commits_singleton {step : σ → ℓ → Option σ} (commit : σ → ℓ → Option ε) {s s' : σ} {l : ℓ}
    (hstep : step s l = some s') : commits step commit s [l] = (commit s l).toList := by
  simp [commits, hstep]

/-- The abstract state after a step that commits `c`. -/
def Commits (astep : α → ε → Option α) (c : Option ε) (a a' : α) : Prop :=
  match c with
  | none => a' = a
  | some e => astep a e = some a'

/-- **Forward simulation.** A relation that every step keeps, with the abstract system taking the
event the step commits, holds at the end of every run, with the abstract system having taken all
committed events. -/
theorem runs_simulate {step : σ → ℓ → Option σ} {astep : α → ε → Option α}
    {commit : σ → ℓ → Option ε} {Ok : σ → ℓ → Prop} {R : σ → α → Prop} {s : σ} {a : α}
    (init : R s a)
    (next : ∀ t l t' b, R t b → Ok t l → step t l = some t' →
      ∃ b', Commits astep (commit t l) b b' ∧ R t' b')
    {ls : List ℓ} (hok : Meets step Ok s ls) {t : σ} (hrun : runs step s ls = some t) :
    ∃ b, runs astep a (commits step commit s ls) = some b ∧ R t b := by
  have htrack : ∀ t, runs step s ls = some t → Meets step Ok s ls →
      ∃ b, runs astep a (commits step commit s ls) = some b ∧ R t b := by
    refine runs_track (P := fun h t => Meets step Ok s h →
      ∃ b, runs astep a (commits step commit s h) = some b ∧ R t b) (fun _ => ⟨a, rfl, init⟩) ?_ ls
    intro h t l t' ht hP hstep hok
    obtain ⟨hpre, hlast⟩ := along_snoc.mp hok
    obtain ⟨b, hb, hR⟩ := hP hpre
    obtain ⟨b', hcommit, hR'⟩ := next t l t' b hR (hlast t ht) hstep
    refine ⟨b', ?_, hR'⟩
    rw [commits_append commit [l] h ht, commits_singleton commit hstep, runs_append, hb]
    -- the last step has committed one event or none
    cases hc : commit t l with
    | none =>
        rw [hc] at hcommit
        cases hcommit
        rfl
    | some e =>
        rw [hc] at hcommit
        exact (runs_singleton ..).trans hcommit
  exact htrack t hrun hok

/-! ## Events that begin and end -/

/-- The events of one kind among those committed are committed by the steps that commit such. -/
theorem commits_filter (step : σ → ℓ → Option σ) (commit : σ → ℓ → Option ε) (p : ε → Bool)
    (ls : List ℓ) : ∀ s, (commits step commit s ls).filter p
      = commits step (fun t l => (commit t l).filter p) s ls := by
  induction ls with
  | nil => intro s; rfl
  | cons l ls ih =>
      intro s
      rw [commits, commits]
      cases step s l with
      | none => rfl
      | some s' =>
          dsimp only
          rw [List.filter_append, ih, Option.toList_filter]

/-- The events are those of the steps that meet a condition, and those of the others. -/
theorem commits_partition (step : σ → ℓ → Option σ) (commit : σ → ℓ → Option ε) (P : σ → ℓ → Prop)
    [∀ s l, Decidable (P s l)] (ls : List ℓ) : ∀ s, (commits step commit s ls).Perm
      (commits step (fun t l => if P t l then none else commit t l) s ls
        ++ commits step (fun t l => if P t l then commit t l else none) s ls) := by
  induction ls with
  | nil => intro s; exact .nil
  | cons l ls ih =>
      intro s
      rw [commits, commits, commits]
      cases step s l with
      | none => exact .nil
      | some s' =>
          dsimp only
          have hrest := (ih s').append_left (commit s l).toList
          by_cases hP : P s l
          · simp only [if_pos hP, Option.toList_none, List.nil_append]
            refine hrest.trans ?_
            rw [← List.append_assoc, ← List.append_assoc]
            exact List.perm_append_comm.append_right _
          · simp only [if_neg hP, Option.toList_none, List.nil_append]
            rwa [List.append_assoc]

/-- If every step hands on what is pending, with what begins added and what ends taken off in
front, then what has begun in a run is what has ended, and what is pending. -/
theorem runs_pending {step : σ → ℓ → Option σ} {begins ends : σ → ℓ → Option ε}
    (pending : σ → List ε) {s : σ} (init : pending s = [])
    (next : ∀ t l t', step t l = some t' →
      pending t ++ (begins t l).toList = (ends t l).toList ++ pending t') (ls : List ℓ) :
    ∀ t, runs step s ls = some t →
      commits step begins s ls = commits step ends s ls ++ pending t := by
  refine runs_track
    (P := fun ls t => commits step begins s ls = commits step ends s ls ++ pending t)
    (by rw [init]; rfl) ?_ ls
  intro ls t l t' ht ih hl
  rw [commits_append begins [l] ls ht, commits_append ends [l] ls ht, commits_singleton begins hl,
    commits_singleton ends hl, ih, List.append_assoc, next t l t' hl, List.append_assoc]

/-! ## What a run adds up to -/

/-- The sum of what the steps of a run cost, each in the state it is taken in. -/
def spent (step : σ → ℓ → Option σ) (cost : σ → ℓ → Nat) (s : σ) (ls : List ℓ) : Nat :=
  (commits step (fun t l => some (cost t l)) s ls).sum

/-- A quantity that every step raises by its cost is raised by a run by what the run has spent. -/
theorem runs_spent {step : σ → ℓ → Option σ} {cost : σ → ℓ → Nat} {f : σ → Nat}
    (next : ∀ s l s', step s l = some s' → f s' = f s + cost s l) (ls : List ℓ) :
    ∀ {s t : σ}, runs step s ls = some t → f t = f s + spent step cost s ls := by
  induction ls with
  | nil => intro s t hrun; cases hrun; rfl
  | cons l ls ih =>
      intro s t hrun
      obtain ⟨s', hl, hrest⟩ := Option.bind_eq_some_iff.mp hrun
      rw [ih hrest, next s l s' hl, spent, spent, commits, hl]
      simp [Nat.add_assoc]

/-! ## Serial histories -/

/-- A machine takes an event together with what it returns, if that is what it returns. -/
def Mealy.accept {ο : Type} [DecidableEq ο] (M : Mealy σ ε ο) (s : σ) (x : ε × ο) : Option σ :=
  if M.out s x.1 = x.2 then some (M.next s x.1) else none

theorem Mealy.accept_of_eq {ο : Type} [DecidableEq ο] (M : Mealy σ ε ο) {s : σ} {e : ε} {o : ο}
    (h : M.out s e = o) : M.accept s (e, o) = some (M.next s e) := if_pos h

theorem runs_map {κ : Type} (step : σ → ε → Option σ) (f : κ → ε) (s : σ) (ks : List κ) :
    runs (fun t k => step t (f k)) s ks = runs step s (ks.map f) := by
  unfold runs
  rw [List.foldlM_map]

/-- A history that is taken returns what it says. -/
theorem Mealy.runs_accept {ο : Type} [DecidableEq ο] (M : Mealy σ ε ο) (h : List (ε × ο)) :
    ∀ s, runs M.accept M.init h = some s →
      s = M.after (h.map Prod.fst) ∧ M.outputs (h.map Prod.fst) = h.map Prod.snd := by
  refine runs_track (P := fun h s => s = M.after (h.map Prod.fst)
    ∧ M.outputs (h.map Prod.fst) = h.map Prod.snd) ⟨rfl, rfl⟩ ?_ h
  rintro h s ⟨e, o⟩ s' _ ⟨rfl, hout⟩ hstep
  unfold Mealy.accept at hstep
  split at hstep
  · rename_i heq
    obtain rfl := Option.some.inj hstep
    rw [List.map_append, List.map_append, List.map_singleton, List.map_singleton, M.after_snoc,
      M.outputs_snoc, hout, heq]
    exact ⟨rfl, rfl⟩
  · exact absurd hstep (by simp)

/-- The same for a log whose entries have an event and a reply in them. -/
theorem Mealy.runs_accept_map {ο κ : Type} [DecidableEq ο] (M : Mealy σ ε ο) (call : κ → ε)
    (reply : κ → ο) (log : List κ) {s : σ}
    (h : runs (fun s k => M.accept s (call k, reply k)) M.init log = some s) :
    M.after (log.map call) = s ∧ M.outputs (log.map call) = log.map reply := by
  rw [runs_map] at h
  obtain ⟨hafter, hout⟩ := M.runs_accept _ s h
  rw [List.map_map] at hafter hout
  rw [List.map_map] at hout
  exact ⟨hafter.symm, hout⟩

end LinuxDrivers
