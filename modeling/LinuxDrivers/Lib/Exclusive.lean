import Mathlib

/-!
# Mutual exclusion

One lock bit, and a predicate that says which of the tasks are inside the section the
lock protects. `Exclusive` is what the lock is there for, and the lemmas are what
can happen to it: a task gets the lock and goes in, goes on inside, comes out and
releases the lock, or comes out without releasing it. The last one keeps everybody
else out for ever, but it does not break exclusion.
-/

namespace LinuxDrivers

variable {ι : Type}

/-- At most one task is inside, and only while the lock is held. -/
structure Exclusive (lock : Bool) (inside : ι → Prop) : Prop where
  one : ∀ i j, inside i → inside j → i = j
  held : ∀ i, inside i → lock = true

namespace Exclusive

variable {lock : Bool} {inside inside' : ι → Prop}

/-- Nobody is inside yet. -/
theorem empty (h : ∀ i, ¬inside i) : Exclusive lock inside :=
  ⟨fun i _ hi _ => absurd hi (h i), fun i hi => absurd hi (h i)⟩

/-- Tasks that come out, with or without releasing, leave exclusion as it is. -/
theorem mono (h : Exclusive lock inside) (hsub : ∀ i, inside' i → inside i) :
    Exclusive lock inside' :=
  ⟨fun i j hi hj => h.one i j (hsub i hi) (hsub j hj), fun i hi => h.held i (hsub i hi)⟩

/-- With the lock free nobody is inside. -/
theorem none_of_free (h : Exclusive lock inside) (hfree : lock = false) (i : ι) : ¬inside i := by
  intro hi
  have := h.held i hi
  rw [hfree] at this
  exact absurd this (by simp)

/-- A task takes the free lock and goes in. -/
theorem acquire (h : Exclusive lock inside) (hfree : lock = false) {i : ι}
    (hsub : ∀ j, j ≠ i → inside' j → inside j) : Exclusive true inside' := by
  have honly : ∀ j, inside' j → j = i := by
    intro j hj
    by_contra hne
    exact h.none_of_free hfree j (hsub j hne hj)
  exact ⟨fun j k hj hk => (honly j hj).trans (honly k hk).symm, fun _ _ => rfl⟩

/-- The task inside comes out and releases the lock: nobody is inside. -/
theorem release (h : Exclusive lock inside) {i : ι} (hi : inside i) (hout : ¬inside' i)
    (hsub : ∀ j, j ≠ i → inside' j → inside j) : Exclusive false inside' := by
  refine empty fun j hj => ?_
  by_cases hji : j = i
  · subst hji
    exact hout hj
  · exact hji (h.one j i (hsub j hji hj) hi)

end Exclusive

end LinuxDrivers
