import Mathlib

/-!
# Lists in memory

A singly linked list as a program keeps it: nodes in a heap, each with the address of the
next, and the null address at the end. `Chain heap p l` says that the nodes from `p` on
hold `l`.

A node that is being built has to be kept apart from the list until it is linked in. It is
kept apart by stating the list in the heap without the node: whatever is then written to
the node, the list does not see it.
-/

namespace LinuxDrivers

variable {ν β : Type} {payload : ν → β} {next : ν → Nat}

/-- The null address is 0. -/
inductive Chain (payload : ν → β) (next : ν → Nat) (heap : Nat → Option ν) :
    Nat → List β → Prop where
  | nil : Chain payload next heap 0 []
  | cons {p : Nat} {node : ν} {l : List β} (hp : p ≠ 0) (hnode : heap p = some node)
      (rest : Chain payload next heap (next node) l) : Chain payload next heap p (payload node :: l)

/-- The heap without the node at `p`. -/
def unlinked (heap : Nat → Option ν) (p : Nat) : Nat → Option ν := Function.update heap p none

namespace Chain

variable {heap heap' : Nat → Option ν} {p q : Nat} {l : List β}

theorem eq_nil (h : Chain payload next heap 0 l) : l = [] := by
  cases h with
  | nil => rfl
  | cons hp => exact absurd rfl hp

/-- What a loop finds at an address that is not null. -/
theorem uncons (h : Chain payload next heap p l) (hp : p ≠ 0) :
    ∃ node l', heap p = some node ∧ l = payload node :: l'
      ∧ Chain payload next heap (next node) l' := by
  cases h with
  | nil => exact absurd rfl hp
  | cons _ hnode rest => exact ⟨_, _, hnode, rfl, rest⟩

/-- More nodes do no harm. -/
theorem mono (h : Chain payload next heap p l)
    (hsub : ∀ q node, q ≠ 0 → heap q = some node → heap' q = some node) :
    Chain payload next heap' p l := by
  induction h with
  | nil => exact .nil
  | cons hp hnode _ ih => exact .cons hp (hsub _ _ hp hnode) ih

/-- A free address is not in the list, and neither is the null address. -/
theorem unlinked (h : Chain payload next heap p l) (hq : q = 0 ∨ heap q = none) :
    Chain payload next (unlinked heap q) p l := by
  refine h.mono fun r node hr hnode => ?_
  have hne : r ≠ q := by
    rintro rfl
    rcases hq with rfl | hq
    · exact hr rfl
    · rw [hq] at hnode
      exact absurd hnode (by simp)
  rw [LinuxDrivers.unlinked, Function.update_of_ne hne]
  exact hnode

/-- Writing to the node that is kept apart. -/
theorem write (h : Chain payload next (LinuxDrivers.unlinked heap q) p l) (node : Option ν) :
    Chain payload next (LinuxDrivers.unlinked (Function.update heap q node) q) p l := by
  rw [LinuxDrivers.unlinked, Function.update_idem]
  exact h

theorem of_unlinked (h : Chain payload next (LinuxDrivers.unlinked heap q) p l) :
    Chain payload next heap p l := by
  refine h.mono fun r node _ hr => ?_
  by_cases hrq : r = q
  · subst hrq
    rw [LinuxDrivers.unlinked, Function.update_self] at hr
    exact absurd hr (by simp)
  · rwa [LinuxDrivers.unlinked, Function.update_of_ne hrq] at hr

/-- The node is linked in at the front. -/
theorem push {node : ν} (h : Chain payload next (LinuxDrivers.unlinked heap q) (next node) l)
    (hq : q ≠ 0) (hnode : heap q = some node) : Chain payload next heap q (payload node :: l) :=
  .cons hq hnode h.of_unlinked

end Chain

end LinuxDrivers
