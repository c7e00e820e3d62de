import LinuxDrivers.Cs614.Commands

/-!
# The three drivers agree

Each part of the assignment extends the one before it, and where the extension is not
used nothing should change. Part 2 replaces the global of Part 1 by a list of nodes:
to a process that is alone with the driver the list is the global, because its first
node always holds what the global holds (`search_eq_value`). Part 3 adds commands 5, 6
and 7: to processes that never store one of these, and that store before they read, the
chain of tests ends where it did before.

Both comparisons run the two drivers side by side over one history, and compare every
reply: return values and texts.
-/

namespace LinuxDrivers.Cs614

/-! ## The global and the list -/

/-- The global of Part 1 and the global of Part 2 see the same stores. -/
theorem part1_after (h : List Call) :
    Part1.machine.after h = (Part2.machine.after h).value := by
  rw [part2_machine]
  induction h using List.reverseRecOn with
  | nil => rfl
  | append_singleton h c ih =>
      rw [Mealy.after_snoc, ih]
      cases c with
      | read r => rw [registry_after_read]; rfl
      | store p buf => rw [registry_after_store, store_value]; rfl

section
variable (demoRead : Read → Registry → Reply)

/-- A process that has stored has a node. -/
theorem search_isSome_of_store {h : List Call} {p : Nat} {buf : List UInt8} :
    .store p buf ∈ h → (((registry demoRead).after h).search p).isSome := by
  induction h using List.reverseRecOn with
  | nil => simp
  | append_singleton h c ih =>
      intro hmem
      rcases List.mem_append.mp hmem with hold | hnew
      · -- an older store: whatever came last, it did not take the node away
        cases c with
        | read r => rw [registry_after_read]; exact ih hold
        | store q buf' =>
            rw [registry_after_store, search_store]
            split
            · rfl
            · exact ih hold
      · rw [← List.mem_singleton.mp hnew, registry_after_store, search_store, if_pos rfl]
        rfl

/-- While `p` is alone with the driver, its node holds what the global holds. -/
theorem search_eq_value {p : Nat} {h : List Call} :
    (∀ c ∈ h, c.pid = p) → ∀ v, ((registry demoRead).after h).search p = some v →
      v = ((registry demoRead).after h).value := by
  intro halone
  refine along_induction (along_of_forall halone) (fun v hv => by cases hv) ?_
  intro h c _ hc ih v hv
  cases c with
  | read r =>
      rw [registry_after_read] at hv ⊢
      exact ih v hv
  | store q buf =>
      cases hc
      rw [registry_after_store, search_store, Call.pid, if_pos rfl] at hv
      rw [registry_after_store, store_value]
      exact (Option.some.inj hv).symm

/-- What holds of zero and of every number stored holds of the global and of whatever a
search finds: these are the only numbers there are. -/
theorem registry_forall {P : Int → Prop} (hzero : P 0) {h : List Call} :
    (∀ c ∈ h, ∀ v, c.wrote (fun _ => true) = some v → P v) →
      P ((registry demoRead).after h).value ∧
        ∀ p v, ((registry demoRead).after h).search p = some v → P v := by
  intro hall
  refine along_induction (along_of_forall hall) ⟨hzero, fun p v hv => by cases hv⟩ ?_
  rintro h c - hc ⟨hvalue, hsearch⟩
  cases c with
  | read r => rw [registry_after_read]; exact ⟨hvalue, hsearch⟩
  | store q buf =>
      -- the pushed number is the parsed one, or the global's if there is none
      have hnew : P ((sscanf buf).getD ((registry demoRead).after h).value) := by
        cases hb : sscanf buf with
        | none => exact hvalue
        | some v => exact hc v (by simp [Call.wrote, hb])
      rw [registry_after_store]
      refine ⟨hnew, fun p v hv => ?_⟩
      rw [search_store] at hv
      split at hv
      · cases hv; exact hnew
      · exact hsearch p v hv

end

/-! ## Part 1 and Part 2 -/

/-- One process, alone with the driver and with a node, is answered alike by both parts. -/
theorem part1_demoRead_eq {h : List Call} {r : Read} (halone : ∀ c ∈ h, c.pid = r.current.pid)
    {buf : List UInt8} (hstored : .store r.current.pid buf ∈ h) :
    Part1.demoRead r (Part1.machine.after h) = Part2.demoRead r (Part2.machine.after h) := by
  obtain ⟨v, hv⟩ := Option.isSome_iff_exists.mp (search_isSome_of_store Part2.demoRead hstored)
  have hvalue := search_eq_value Part2.demoRead halone v hv
  have hcmd : (Part2.machine.after h).command r = (Part2.machine.after h).value := by
    rw [part2_machine, Registry.command, hv, ← hvalue]
    rfl
  rw [Part1.demoRead, Part2.demoRead, Part2.answer, part1_after, hcmd]

/-- A read in a history that begins with a store has that store before it. -/
theorem store_mem_of_read {c : Call} {rest pre : List Call} {p : Nat} {buf : List UInt8} {r : Read}
    (hc : c = .store p buf) (hpre : pre ++ [.read r] <+: c :: rest) : c ∈ pre := by
  cases pre with
  | nil =>
      have := (List.cons_prefix_cons.mp hpre).1
      rw [hc] at this
      cases this
  | cons x pre =>
      have := (List.cons_prefix_cons.mp hpre).1
      rw [this]
      exact List.mem_cons_self

theorem part1_part2_outputs (p : Nat) (buf : List UInt8) (rest : List Call)
    (halone : ∀ c ∈ rest, c.pid = p) :
    Part1.machine.outputs (.store p buf :: rest)
        = Part2.machine.outputs (.store p buf :: rest) := by
  apply Mealy.outputs_eq_of_along
  intro pre c hpre
  have hall : ∀ x ∈ pre ++ [c], x.pid = p := by
    intro x hx
    rcases List.mem_cons.mp (hpre.subset hx) with rfl | hx
    · rfl
    · exact halone x hx
  cases c with
  | store q text => rfl
  | read r =>
      have hr : r.current.pid = p := hall (.read r) (by simp)
      have hmem := store_mem_of_read rfl hpre
      rw [← hr] at hmem
      exact part1_demoRead_eq
        (fun x hx => by rw [hr]; exact hall x (List.mem_append_left _ hx)) hmem

/-! ## Part 2 and Part 3 -/

/-- The commands Part 3 adds. -/
def Added (v : Int) : Prop := v = 5 ∨ v = 6 ∨ v = 7

/-- Apart from the added commands the two chains of tests are the same. -/
theorem part3_answer_eq {v : Int} {r : Read} (hv : ¬Added v) (htask : r.task = some r.current) :
    Part3.answer v r = Part2.answer v r := by
  unfold Added at hv
  have h5 : v ≠ 5 := by omega
  have h6 : v ≠ 6 := by omega
  have h7 : v ≠ 7 := by omega
  rw [Part3.answer, Part2.answer, htask, if_neg h5, if_neg h6, if_neg h7]

/-- A process stores before it reads. -/
def StoresFirst (pre : List Call) : Call → Prop
  | .store _ _ => True
  | .read r => ∃ buf, .store r.current.pid buf ∈ pre

theorem part2_part3_outputs {h : List Call} (hfirst : Along StoresFirst h)
    (hadded : ∀ c ∈ h, ∀ v, c.wrote (fun _ => true) = some v → ¬Added v)
    (htask : ∀ r, .read r ∈ h → r.task = some r.current) :
    Part2.machine.outputs h = Part3.machine.outputs h := by
  apply Mealy.outputs_eq_of_along
  intro pre c hpre
  cases c with
  | store p buf => rfl
  | read r =>
      have hsub : ∀ x ∈ pre, x ∈ h := fun x hx => hpre.subset (List.mem_append_left _ hx)
      obtain ⟨buf, hmem⟩ := hfirst pre _ hpre
      obtain ⟨v, hv⟩ := Option.isSome_iff_exists.mp (search_isSome_of_store Part2.demoRead hmem)
      have hvadd : ¬Added v :=
        (registry_forall Part2.demoRead (P := fun v => ¬Added v) (by simp [Added])
          (fun x hx => hadded x (hsub x hx))).2 _ v hv
      -- the two registries are built alike, so the search gives one number for both
      have hcmd : (Part2.machine.after pre).command r = v := by
        rw [part2_machine, Registry.command, hv]
        rfl
      have hcmd' : (Part3.machine.after pre).command r = v := hcmd
      have hout : Part2.demoRead r (Part2.machine.after pre) =
          Part3.demoRead r (Part3.machine.after pre) := by
        rw [Part2.demoRead, Part3.demoRead, hcmd, hcmd',
          part3_answer_eq hvadd (htask r (hpre.subset (by simp)))]
      exact hout

/-- **The three drivers agree** wherever the later one's additions are not used: Parts 1 and 2
for a process that is alone and begins with a store, Parts 2 and 3 for processes that store
before they read and store none of the added commands. -/
theorem drivers_agree :
    (∀ (p : Nat) (buf : List UInt8) (rest : List Call), (∀ c ∈ rest, c.pid = p) →
      Part1.machine.outputs (.store p buf :: rest) = Part2.machine.outputs (.store p buf :: rest)) ∧
    (∀ h : List Call, Along StoresFirst h →
      (∀ c ∈ h, ∀ v, c.wrote (fun _ => true) = some v → ¬Added v) →
      (∀ r, .read r ∈ h → r.task = some r.current) →
      Part2.machine.outputs h = Part3.machine.outputs h) :=
  ⟨part1_part2_outputs, fun _ hfirst hadded htask => part2_part3_outputs hfirst hadded htask⟩

/-- A process that stores `3` and reads is told its parent by all three. -/
theorem drivers_agree_on_parent :
    Part1.machine.outputs [.store 1 [51], .read (shellRead 1 8 0)] =
      Part2.machine.outputs [.store 1 [51], .read (shellRead 1 8 0)] ∧
    Part2.machine.outputs [.store 1 [51], .read (shellRead 1 8 0)] =
      Part3.machine.outputs [.store 1 [51], .read (shellRead 1 8 0)] := by
  refine ⟨drivers_agree.1 1 [51] [.read (shellRead 1 8 0)] (by decide), drivers_agree.2 _ ?_ ?_ ?_⟩
  · have hstore : Along StoresFirst ([] ++ [.store 1 [51]]) := along_snoc.mpr ⟨along_nil _, trivial⟩
    have hread : StoresFirst [.store 1 [51]] (.read (shellRead 1 8 0)) := ⟨[51], List.mem_cons_self⟩
    exact along_snoc.mpr ⟨hstore, hread⟩
  · have hthree : ∀ c ∈ [Call.store 1 [51], .read (shellRead 1 8 0)],
        c.wrote (fun _ => true) = none ∨ c.wrote (fun _ => true) = some 3 := by decide
    intro c hc v hv
    rcases hthree c hc with hw | hw
    · rw [hw] at hv; cases hv
    · rw [hw] at hv; cases hv; simp [Added]
  · intro r hr
    have : r = shellRead 1 8 0 := by simpa using hr
    rw [this]
    rfl

end LinuxDrivers.Cs614
