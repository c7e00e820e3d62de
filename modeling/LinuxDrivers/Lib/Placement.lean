import Mathlib

/-!
# What is kept under which address

A client that lets somebody move its data about has to keep track of where each piece
is. `Placement ρ v w` says that it has: `v` is what the client means to hold, name by
name, `w` is what is held, address by address, and `ρ` leads from each name in use to
an address of its own that holds what the name stands for. Nothing else is held.

Two things can happen to a placement. The data is moved (`Renaming`), and the client
follows; or the client changes what a name stands for, and the same change is made at
the name's address. Either way it is a placement again.
-/

namespace LinuxDrivers

variable {α β γ δ : Type}

structure Placement (ρ : α → Option γ) (v : α → Option β) (w : γ → Option β) : Prop where
  /-- Whatever is meant to be held has an address. -/
  named : ∀ {x}, v x ≠ none → ρ x ≠ none
  mapped : ∀ {x y}, ρ x = some y → v x ≠ none
  holds : ∀ {x y}, ρ x = some y → w y = v x
  inj : ∀ {x x' y}, ρ x = some y → ρ x' = some y → x = x'
  only : ∀ {y}, w y ≠ none → ∃ x, ρ x = some y

/-- `w'` holds what `w` does, each piece where `σ` says. -/
structure Renaming (σ : γ → δ) (w : γ → Option β) (w' : δ → Option β) : Prop where
  inj : ∀ {y y'}, w y ≠ none → w y' ≠ none → σ y = σ y' → y = y'
  holds : ∀ {y}, w y ≠ none → w' (σ y) = w y
  only : ∀ {z}, w' z ≠ none → ∃ y, w y ≠ none ∧ σ y = z

namespace Placement

variable {ρ : α → Option γ} {v : α → Option β} {w : γ → Option β}

/-- At first every piece is under its own name. -/
theorem start (v : α → Option β) : Placement (fun x => (v x).map fun _ => x) v v where
  named h := by simpa using h
  mapped h hv := by simp [hv] at h
  holds h := by
    obtain ⟨-, -, rfl⟩ := Option.map_eq_some_iff.mp h
    rfl
  inj h h' := by
    obtain ⟨-, -, rfl⟩ := Option.map_eq_some_iff.mp h
    obtain ⟨-, -, rfl⟩ := Option.map_eq_some_iff.mp h'
    rfl
  only {y} h := by
    obtain ⟨b, hb⟩ := Option.ne_none_iff_exists'.mp h
    exact ⟨y, by rw [hb]; rfl⟩

theorem held (h : Placement ρ v w) {x : α} {y : γ} (hx : ρ x = some y) : w y ≠ none := by
  rw [h.holds hx]
  exact h.mapped hx

/-- The data moves, and the client follows. -/
theorem rename (h : Placement ρ v w) {σ : γ → δ} {w' : δ → Option β} (hσ : Renaming σ w w') :
    Placement (fun x => (ρ x).map σ) v w' where
  named hv := by simpa using h.named hv
  mapped hx := by
    obtain ⟨y, hy, -⟩ := Option.map_eq_some_iff.mp hx
    exact h.mapped hy
  holds hx := by
    obtain ⟨y, hy, rfl⟩ := Option.map_eq_some_iff.mp hx
    rw [hσ.holds (h.held hy), h.holds hy]
  inj hx hx' := by
    obtain ⟨y, hy, rfl⟩ := Option.map_eq_some_iff.mp hx
    obtain ⟨y', hy', heq⟩ := Option.map_eq_some_iff.mp hx'
    obtain rfl := hσ.inj (h.held hy') (h.held hy) heq
    exact h.inj hy hy'
  only hz := by
    obtain ⟨y, hy, rfl⟩ := hσ.only hz
    obtain ⟨x, hx⟩ := h.only hy
    exact ⟨x, by rw [hx]; rfl⟩

/-- The client changes what its names stand for, and the same is done at their addresses. -/
theorem change (h : Placement ρ v w) {f : α → β → β} {g : γ → β → β}
    (hfg : ∀ {x y}, ρ x = some y → g y = f x) :
    Placement ρ (fun x => (v x).map (f x)) (fun y => (w y).map (g y)) where
  named hv := h.named fun hnone => hv (by rw [hnone]; rfl)
  mapped hx hnone := h.mapped hx (Option.map_eq_none_iff.mp hnone)
  holds hx := by rw [h.holds hx, hfg hx]
  inj := h.inj
  only hy := h.only fun hnone => hy (by rw [hnone]; rfl)

end Placement

end LinuxDrivers
