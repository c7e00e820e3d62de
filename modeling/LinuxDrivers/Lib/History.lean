import Mathlib

/-!
# Histories

A history is the list of everything that has happened so far, the latest event
last. Claims about "every call of every history" are claims about an event
*together with the events before it*, and `Along` is that quantifier. It has one
rule, `along_snoc`, and every induction over histories (`along_induction`) goes from
the end, because that is where the next event is added.

`latest` is what a history says about a register somebody keeps writing: the last
value written. `Mealy` is a total machine with an output for every event.
-/

namespace LinuxDrivers

variable {σ τ ε ο β : Type}

/-! ## Events with their past -/

/-- Every event of the history meets `P` together with the events before it. -/
def Along (P : List ε → ε → Prop) (h : List ε) : Prop := ∀ pre e, pre ++ [e] <+: h → P pre e

theorem along_nil (P : List ε → ε → Prop) : Along P [] := by
  intro pre e hpre
  have := List.prefix_nil.mp hpre
  simp at this

theorem along_snoc {P : List ε → ε → Prop} {h : List ε} {e : ε} :
    Along P (h ++ [e]) ↔ Along P h ∧ P h e := by
  constructor
  · intro hall
    exact ⟨fun pre x hpre => hall pre x (hpre.trans (List.prefix_append _ _)),
      hall h e (List.prefix_refl _)⟩
  · rintro ⟨hall, hlast⟩ pre x hpre
    rcases List.prefix_concat_iff.mp hpre with heq | hpre
    · obtain ⟨rfl, hx⟩ := List.append_inj' heq rfl
      cases hx
      exact hlast
    · exact hall pre x hpre

/-- Induction over the histories that meet a condition all along. -/
@[elab_as_elim]
theorem along_induction {P : List ε → ε → Prop} {motive : List ε → Prop} {h : List ε}
    (hall : Along P h) (nil : motive [])
    (snoc : ∀ h e, Along P h → P h e → motive h → motive (h ++ [e])) : motive h := by
  induction h using List.reverseRecOn with
  | nil => exact nil
  | append_singleton h e ih =>
      obtain ⟨hpre, he⟩ := along_snoc.mp hall
      exact snoc h e hpre he (ih hpre)

/-- What holds along a history holds along every shorter one. -/
theorem Along.of_prefix {P : List ε → ε → Prop} {h h' : List ε} (hall : Along P h)
    (hpre : h' <+: h) : Along P h' :=
  fun pre e he => hall pre e (he.trans hpre)

/-- A condition on the events alone. -/
theorem along_of_forall {Q : ε → Prop} {h : List ε} (hall : ∀ e ∈ h, Q e) :
    Along (fun _ => Q) h :=
  fun _ e hpre => hall e (hpre.subset (by simp))

/-- What is said of every shorter history is said of the empty one, and of each event with
its past. -/
theorem forall_prefix_iff {Q : List ε → Prop} {h : List ε} :
    (∀ pre, pre <+: h → Q pre) ↔ Q [] ∧ Along (fun pre e => Q (pre ++ [e])) h := by
  constructor
  · intro hall
    exact ⟨hall [] List.nil_prefix, fun pre e hpre => hall (pre ++ [e]) hpre⟩
  · rintro ⟨hnil, hall⟩ pre hpre
    rcases List.eq_nil_or_concat' pre with rfl | ⟨pre', e, rfl⟩
    · exact hnil
    · exact hall pre' e hpre

/-- Two conditions that say the same of an event whose past meets both of them say the
same of whole histories. -/
theorem along_congr {P Q : List ε → ε → Prop}
    (hstep : ∀ h e, Along P h → Along Q h → (P h e ↔ Q h e)) (h : List ε) :
    Along P h ↔ Along Q h := by
  induction h using List.reverseRecOn with
  | nil => exact iff_of_true (along_nil P) (along_nil Q)
  | append_singleton h e ih =>
      rw [along_snoc, along_snoc]
      constructor
      · rintro ⟨hP, he⟩
        exact ⟨ih.mp hP, (hstep h e hP (ih.mp hP)).mp he⟩
      · rintro ⟨hQ, he⟩
        exact ⟨ih.mpr hQ, (hstep h e (ih.mpr hQ) hQ).mpr he⟩

/-! ## The value written last -/

/-- The last value the history writes, where `f` says what an event writes. -/
def latest (f : ε → Option β) (h : List ε) : Option β := (h.filterMap f).getLast?

theorem latest_snoc (f : ε → Option β) (h : List ε) (e : ε) :
    latest f (h ++ [e]) = (f e).or (latest f h) := by
  cases he : f e <;> simp [latest, List.filterMap_append, he]

/-- A history that writes anything has a last value, and it is one of those written. -/
theorem mem_of_latest {f : ε → Option β} {h : List ε} {v : β} (hv : latest f h = some v) :
    ∃ e ∈ h, f e = some v := by
  have hmem : v ∈ h.filterMap f := List.mem_of_getLast? hv
  exact List.mem_filterMap.mp hmem

theorem latest_eq_none_iff {f : ε → Option β} {h : List ε} :
    latest f h = none ↔ ∀ e ∈ h, f e = none := by
  simp [latest]

/-! ## Machines with outputs -/

/-- A total system: a first state, the state after an event, and what the event returns. -/
structure Mealy (σ ε ο : Type) where
  init : σ
  next : σ → ε → σ
  out : σ → ε → ο

namespace Mealy

/-- The state a history leads to. -/
def after (M : Mealy σ ε ο) (h : List ε) : σ := h.foldl M.next M.init

@[simp] theorem after_snoc (M : Mealy σ ε ο) (h : List ε) (e : ε) :
    M.after (h ++ [e]) = M.next (M.after h) e := by
  simp [after]

/-- Everything the events return, from state `s` on. -/
def outputsFrom (M : Mealy σ ε ο) : σ → List ε → List ο
  | _, [] => []
  | s, e :: h => M.out s e :: M.outputsFrom (M.next s e) h

/-- Everything the events of a history return. -/
def outputs (M : Mealy σ ε ο) (h : List ε) : List ο := M.outputsFrom M.init h

theorem outputsFrom_snoc (M : Mealy σ ε ο) (h : List ε) (e : ε) :
    ∀ s, M.outputsFrom s (h ++ [e]) = M.outputsFrom s h ++ [M.out (h.foldl M.next s) e] := by
  induction h with
  | nil => intro s; rfl
  | cons x h ih => intro s; simp [outputsFrom, ih]

theorem outputs_snoc (M : Mealy σ ε ο) (h : List ε) (e : ε) :
    M.outputs (h ++ [e]) = M.outputs h ++ [M.out (M.after h) e] :=
  M.outputsFrom_snoc h e M.init

/-- Two machines that answer alike at every point of a history return the same all along. -/
theorem outputs_eq_of_along {M : Mealy σ ε ο} {N : Mealy τ ε ο} (h : List ε) :
    Along (fun pre e => M.out (M.after pre) e = N.out (N.after pre) e) h →
      M.outputs h = N.outputs h := by
  intro hall
  refine along_induction hall rfl ?_
  intro h e _ he ih
  rw [outputs_snoc, outputs_snoc, ih, he]

end Mealy

end LinuxDrivers
