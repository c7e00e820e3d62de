import LinuxDrivers.Lib.History

/-!
# Runs

A system is a partial step function on states, driven by a list of events; a step
that yields `none` is an event the system does not take, or never comes back from.
The rules below package the two inductions every safety argument needs: an
invariant tied to the history so far, with progress (`runs_hist`), and one along any
run that gets that far (`runs_track`), of which an invariant of the state alone is a
case (`runs_inv`). Which events are acceptable may depend on the ones before.

That a system comes to an end is shown by a rank that every step lowers: no run is longer
than the rank at its start (`runs_rank`), and a system that only stops where it may stop
gets there whatever the events are (`runs_ends`).
-/

namespace LinuxDrivers

variable {σ ε : Type}

/-- Feed the events to the system, one after the other. -/
def runs (step : σ → ε → Option σ) (s : σ) (es : List ε) : Option σ := es.foldlM step s

theorem runs_append (step : σ → ε → Option σ) (s : σ) (es fs : List ε) :
    runs step s (es ++ fs) = (runs step s es).bind (fun s' => runs step s' fs) := by
  unfold runs
  rw [List.foldlM_append]
  rfl

theorem runs_singleton (step : σ → ε → Option σ) (s : σ) (e : ε) : runs step s [e] = step s e := by
  unfold runs
  cases h : step s e <;> simp [List.foldlM, h]

theorem runs_snoc (step : σ → ε → Option σ) (s : σ) (es : List ε) (e : ε) :
    runs step s (es ++ [e]) = (runs step s es).bind (fun s' => step s' e) := by
  simp only [runs_append, runs_singleton]

/-- An invariant tied to the history, when acceptable events always succeed. -/
theorem runs_hist {step : σ → ε → Option σ} {P : List ε → σ → Prop} {Ok : List ε → ε → Prop}
    {s : σ} (init : P [] s)
    (next : ∀ h t e, P h t → Ok h e → ∃ t', step t e = some t' ∧ P (h ++ [e]) t')
    (es : List ε) : Along Ok es → ∃ t, runs step s es = some t ∧ P es t := by
  intro hok
  refine along_induction hok ⟨s, rfl, init⟩ ?_
  rintro es e - hlast ⟨t, ht, hP⟩
  obtain ⟨t', ht', hP'⟩ := next es t e hP hlast
  exact ⟨t', by rw [runs_snoc, ht]; exact ht', hP'⟩

/-- An invariant tied to the history, along any run that gets that far. -/
theorem runs_track {step : σ → ε → Option σ} {P : List ε → σ → Prop} {s : σ} (init : P [] s)
    (next : ∀ h t e t', runs step s h = some t → P h t → step t e = some t' → P (h ++ [e]) t')
    (es : List ε) : ∀ t, runs step s es = some t → P es t := by
  induction es using List.reverseRecOn with
  | nil => intro t ht; cases ht; exact init
  | append_singleton es e ih =>
      intro t' ht'
      rw [runs_snoc] at ht'
      obtain ⟨t, ht, hstep⟩ := Option.bind_eq_some_iff.mp ht'
      exact next es t e t' ht (ih t ht) hstep

/-- An invariant kept by every acceptable step holds along every run of such steps. -/
theorem runs_inv {step : σ → ε → Option σ} {P : σ → Prop} {Ok : List ε → ε → Prop} {s : σ}
    (init : P s)
    (next : ∀ h t e t', runs step s h = some t → P t → Ok h e → step t e = some t' → P t')
    (es : List ε) (hok : Along Ok es) : ∀ t, runs step s es = some t → P t := by
  have htrack : ∀ t, runs step s es = some t → Along Ok es → P t := by
    refine runs_track (P := fun h t => Along Ok h → P t) (fun _ => init) ?_ es
    intro h t e t' ht hP hstep hok
    obtain ⟨hpre, hlast⟩ := along_snoc.mp hok
    exact next h t e t' ht (hP hpre) hlast hstep
  intro t ht
  exact htrack t ht hok

/-! ## Runs that end -/

/-- If every step lowers the rank, a run takes no more steps than its start has rank. -/
theorem runs_rank {step : σ → ε → Option σ} {P : σ → Prop} {rank : σ → Nat} {s : σ} (init : P s)
    (next : ∀ t e t', P t → step t e = some t' → P t' ∧ rank t' < rank t) (es : List ε) :
    ∀ t, runs step s es = some t → P t ∧ es.length + rank t ≤ rank s := by
  refine runs_track (P := fun h t => P t ∧ h.length + rank t ≤ rank s) ⟨init, by simp⟩ ?_ es
  rintro h t e t' - ⟨hP, hlen⟩ hstep
  obtain ⟨hP', hlt⟩ := next t e t' hP hstep
  refine ⟨hP', ?_⟩
  rw [List.length_append, List.length_singleton]
  omega

/-- A system with no run longer than `n` reaches a state where it may stop, on any sequence of
events. -/
theorem runs_ends {step : σ → ε → Option σ} {Final : σ → Prop} {s : σ} {n : Nat}
    (bound : ∀ es t, runs step s es = some t → es.length ≤ n)
    (go : ∀ t, ¬Final t → ∀ e, ∃ t', step t e = some t') (es : Nat → ε) :
    ∃ k t, runs step s ((List.range k).map es) = some t ∧ Final t := by
  by_contra hnone
  -- otherwise there would be runs of every length
  have hall : ∀ k, ∃ t, runs step s ((List.range k).map es) = some t := by
    intro k
    induction k with
    | zero => exact ⟨s, rfl⟩
    | succ k ih =>
        obtain ⟨t, ht⟩ := ih
        have hgo : ¬Final t := fun hf => hnone ⟨k, t, ht, hf⟩
        obtain ⟨t', ht'⟩ := go t hgo (es k)
        refine ⟨t', ?_⟩
        rw [List.range_succ, List.map_append, List.map_singleton, runs_snoc, ht]
        exact ht'
  obtain ⟨t, ht⟩ := hall (n + 1)
  have hlong := bound _ t ht
  rw [List.length_map, List.length_range] at hlong
  omega

end LinuxDrivers
