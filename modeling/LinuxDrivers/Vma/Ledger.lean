import LinuxDrivers.Lib.Simulation
import LinuxDrivers.Vma.Front
import LinuxDrivers.Vma.Overwrite
import LinuxDrivers.Vma.Undo

/-!
# What calls leave behind

`device_ioctl` allocates before it looks at its command, and each command allocates again
for its argument. The first block is never freed; the second is freed at the end of the
command, and on no other way out. A move maps the new area before it copies and unmaps the
old one after, and nothing in between is undone.

So a process that goes on calling finds what it has mapped, and the kernel what it has
allocated, to be the sum of what the single calls left. Every way out of every command
counts here, with any kernel underneath and with any arguments; the process may change
its memory between the calls.
-/

namespace LinuxDrivers.Vma

variable (K : Kernel)
/- `remap_pfn_range(vma, addr, 0, 4096, PAGE_KERNEL)` -/
variable (R : Option VmAreaStruct → Nat → Space → Option Space)

/-! ## The device -/

inductive Request where
  /-- The process stores a byte. -/
  | store (x : Nat) (b : UInt8)
  | mveVmaTo (param : Nat)
  | mveVma (param : Nat)
  | compactVma (param : Nat)
  /-- A number that is none of the commands. -/
  | other

/-- The process's memory, and the blocks the module has allocated and not freed. The blocks are
counted as the source has them: `kmalloc` stands before the `switch` and nothing frees its block,
`vmalloc` stands at the head of each command. -/
structure Session where
  space : Space
  /-- `buff1 = kmalloc(4096, GFP_KERNEL)` -/
  kmalloced : Nat
  /-- `buff` of the moves and `ip` of the compaction, from `vmalloc` -/
  vmalloced : Nat

/-- The blocks for the argument that are left: `vfree` stands before the last `return` only. -/
def MoveExit.buffers : MoveExit → Nat
  | .moved => 0
  | _ => 1

@[inherit_doc MoveExit.buffers]
def CompactExit.buffers : CompactExit → Nat
  | .done => 0
  | _ => 1

/-- `device_ioctl`, and the process between two calls. -/
def Session.step (s : Session) : Request → Option Session
  | .store x b =>
    if (s.space.attr x).any Attr.write then
      some { s with space := { s.space with mem := s.space.mem.write x [b] } }
    else none
  | .mveVmaTo param =>
    let r := Vma.mveVmaTo K s.space param
    some ⟨r.2, s.kmalloced + 1, s.vmalloced + r.1.buffers⟩
  | .mveVma param =>
    let r := Vma.mveVma K s.space param
    some ⟨r.2, s.kmalloced + 1, s.vmalloced + r.1.buffers⟩
  | .compactVma param =>
    let r := Vma.compactVma K R s.space param
    some ⟨r.2.1, s.kmalloced + 1, s.vmalloced + r.1.buffers⟩
  | .other => some { s with kmalloced := s.kmalloced + 1 }

/-! ## What one call leaves -/

/-- How many bytes are mapped. -/
def MmStruct.mapped (mm : MmStruct) : Nat := Area.total mm.areas

/-- The bytes a move leaves mapped in addition. If a copy fails, the new area stays beside the
old one. If the source does not start on a page, `vm_munmap` refuses and both stay too. -/
def MoveExit.extra (s : Space) (src : Nat) : MoveExit → Nat
  | .readFault | .writeFault => pageAlign (s.sourceEnd src - src)
  | .moved | .writeBackFault => if src % 4096 = 0 then 0 else pageAlign (s.sourceEnd src - src)
  | _ => 0

def Session.extra (s : Session) : Request → Nat
  | .mveVmaTo param =>
    (Vma.mveVmaTo K s.space param).1.extra s.space (s.space.address param).fromAddr
  | .mveVma param => (Vma.mveVma K s.space param).1.extra s.space (s.space.address param).fromAddr
  | _ => 0

def Session.buffers (s : Session) : Request → Nat
  | .mveVmaTo param => (Vma.mveVmaTo K s.space param).1.buffers
  | .mveVma param => (Vma.mveVma K s.space param).1.buffers
  | .compactVma param => (Vma.compactVma K R s.space param).1.buffers
  | _ => 0

def Request.calls : Request → Nat
  | .store .. => 0
  | _ => 1

/-! ## Mapping and unmapping -/

theorem mem_points {mm : MmStruct} {x : Nat} : x ∈ Area.points mm.areas ↔ mm.attr x ≠ none := by
  rw [Area.mem_points_iff_dataAt mm.sorted]
  unfold MmStruct.attr
  rw [Ne, Ne, Option.map_eq_none_iff]

theorem mapped_eq_card (mm : MmStruct) : mm.mapped = (Area.points mm.areas).card :=
  (Area.card_points mm.sorted).symm

theorem mapped_placed {s s' : Space} {ptr len : Nat} {a : Attr} (h : Placed s ptr len a s') :
    s'.mapped = s.mapped + pageAlign len := by
  have hpoints : Area.points s'.areas
      = Area.points s.areas ∪ Finset.Ico ptr (ptr + pageAlign len) := by
    ext x
    rw [Finset.mem_union, Finset.mem_Ico, mem_points, mem_points]
    by_cases hx : ptr ≤ x ∧ x < ptr + pageAlign len
    · exact iff_of_true (by rw [h.new x hx.1 hx.2]; simp) (Or.inr hx)
    · rw [h.old x hx, or_iff_left hx]
  have hdisj : Disjoint (Area.points s.areas) (Finset.Ico ptr (ptr + pageAlign len)) := by
    refine Finset.disjoint_left.mpr fun x hx hin => ?_
    obtain ⟨h1, h2⟩ := Finset.mem_Ico.mp hin
    exact mem_points.mp hx (h.free x h1 h2)
  rw [mapped_eq_card, hpoints, Finset.card_union_of_disjoint hdisj, Nat.card_Ico, ← mapped_eq_card]
  omega

/-- Unmapping a range that was mapped. -/
theorem mapped_munmap (mm : MmStruct) {start len : Nat} (hstart : start % 4096 = 0)
    (hlen : len % 4096 = 0) (hpos : 0 < len) (hbelow : start + len ≤ taskSize)
    (hall : ∀ x, start ≤ x → x < start + len → mm.attr x ≠ none) :
    (mm.vmMunmap start len).mapped + len = mm.mapped := by
  have hpoints : Area.points (mm.vmMunmap start len).areas
      = Area.points mm.areas \ Finset.Ico start (start + len) := by
    ext x
    rw [Finset.mem_sdiff, Finset.mem_Ico, mem_points, mem_points,
      vmMunmap_attr mm hstart hlen hpos hbelow]
    by_cases hx : start ≤ x ∧ x < start + len
    · rw [if_pos hx]
      exact iff_of_false (fun h => h rfl) (fun h => h.2 hx)
    · rw [if_neg hx]
      exact ⟨fun h => ⟨h, hx⟩, And.left⟩
  have hsub : Finset.Ico start (start + len) ⊆ Area.points mm.areas := by
    intro x hx
    obtain ⟨h1, h2⟩ := Finset.mem_Ico.mp hx
    exact mem_points.mpr (hall x h1 h2)
  have hcard := Finset.card_sdiff_add_card_eq_card hsub
  rw [Nat.card_Ico] at hcard
  rw [mapped_eq_card, mapped_eq_card, hpoints]
  omega

section

variable {K} {s : Space} {vma : VmAreaStruct} {src dst : Nat}

/-- What a relocation leaves mapped, on each way out. -/
theorem relocate_mapped (hsrc : s.mtreeLoad src = some vma) :
    (relocate K s vma src dst).2.mapped
      = s.mapped + (relocate K s vma src dst).1.extra s src := by
  have hsize := sizeFrom_eq hsrc
  have hend : s.sourceEnd src = vma.stop := sourceEnd_of_mtreeLoad hsrc
  obtain ⟨hwf, hstart, hlt⟩ := mtreeLoad_spec hsrc
  cases hmmap : K.vmMmap s dst (sizeFrom vma src) (protOf vma) (flagsOf vma) with
  | none =>
      rw [relocate_mmapFailed K hmmap]
      rfl
  | some r =>
      obtain ⟨ptr, s₁⟩ := r
      have hp := mmap_placed_attr K hmmap
      have hplaced := mapped_placed hp
      rw [hsize] at hplaced
      obtain ⟨hmoved, hfailed, -⟩ := relocate_mm K hmmap
      have hexit := relocate_exit_eq K hmmap
      cases hloop : (copyPages K (iterations (sizeFrom vma src)) src dst s₁).1 with
      | some e =>
          rw [hloop] at hexit
          -- the loop failed: the new area is there and nothing is undone
          rcases copyPages_some K hloop with rfl | rfl
          · rw [hfailed (by rw [hexit]; simp), hexit, hplaced, ← hend]
            rfl
          · rw [hfailed (by rw [hexit]; simp), hexit, hplaced, ← hend]
            rfl
      | none =>
          rw [hloop] at hexit
          have hm : (relocate K s vma src dst).1 = .moved := hexit
          have hextra : MoveExit.extra s src .moved
              = if src % 4096 = 0 then 0 else pageAlign (vma.stop - src) := by
            rw [← hend]
            rfl
          rw [hmoved hm, hm, hextra, hsize]
          by_cases ha : src % 4096 = 0
          · have hstop := hwf.stop
            have halign : (vma.stop - src) % 4096 = 0 := by omega
            have hback := mapped_munmap s₁.toMmStruct ha halign (by omega)
              (by have hbelow := hwf.below; omega) (fun x h1 h2 => by
                rw [hp.attr_of_mapped (attr_of_mtreeLoad hsrc ⟨by omega, by omega⟩)]
                simp)
            rw [pageAlign_of_aligned halign] at hplaced
            rw [if_pos ha]
            omega
          · rw [if_neg ha, vmMunmap_refused _ _ ha, hplaced]

theorem extra_of_refused {e : MoveExit} (h : e.refused = true) : e.extra s src = 0 := by
  cases e <;> first | rfl | exact absurd h (by decide)

theorem mveVmaTo_mapped (s : Space) (param : Nat) :
    (mveVmaTo K s param).2.mapped
      = s.mapped + (mveVmaTo K s param).1.extra s (s.address param).fromAddr := by
  have hcases : MveVmaToCase K s param (s.address param).fromAddr (s.address param).toAddr :=
    mveVmaTo_cases K rfl
  cases hcases with
  | argFault arg run => rw [run]; rfl
  | refused e arg exit run => rw [run, extra_of_refused exit]; rfl
  | relocated vma ptr s₁ arg source free mmap run => rw [run]; exact relocate_mapped source

/-- The write-back maps nothing, and a move that got through still has if it fails. -/
theorem writeBack_mapped (param src' dst : Nat) {r : MoveExit × Space}
    (h : r.2.mapped = s.mapped + r.1.extra s src) :
    (writeBack K param src' dst r).2.mapped
      = s.mapped + (writeBack K param src' dst r).1.extra s src := by
  obtain ⟨e, s'⟩ := r
  by_cases he : e = .moved
  · subst he
    unfold writeBack
    dsimp only
    cases hcopy : K.copyToUser s' param (Address.encode ⟨src', dst⟩) with
    | mk ok s'' =>
        have hmm : s''.toMmStruct = s'.toMmStruct := congrArg (fun r => r.2.toMmStruct) hcopy.symm
        cases ok with
        | true => rw [hmm]; exact h
        | false => rw [hmm]; exact h
  · rw [writeBack_of_ne K he]
    exact h

theorem mveVma_mapped (s : Space) (param : Nat) :
    (mveVma K s param).2.mapped
      = s.mapped + (mveVma K s param).1.extra s (s.address param).fromAddr := by
  have hcases : MveVmaCase K s param (s.address param).fromAddr := mveVma_cases K rfl
  cases hcases with
  | argFault arg run => rw [run]; rfl
  | refused e arg exit run => rw [run, extra_of_refused exit]; rfl
  | relocated vma dst ptr s₁ arg source hole free mmap run =>
      rw [run]
      exact writeBack_mapped param _ dst (relocate_mapped source)

end

/-! ## Every run -/

theorem step_mapped {s s' : Session} {q : Request} (h : s.step K R q = some s') :
    s'.space.mapped = s.space.mapped + s.extra K q := by
  cases q with
  | store x b =>
      simp only [Session.step] at h
      split at h
      · cases h
        rfl
      · exact absurd h (by simp)
  | mveVmaTo param => cases h; exact mveVmaTo_mapped s.space param
  | mveVma param => cases h; exact mveVma_mapped s.space param
  | compactVma param =>
      cases h
      show (Vma.compactVma K R s.space param).2.1.mapped = _
      rw [compactVma_mm]
      rfl
  | other => cases h; rfl

theorem step_blocks {s s' : Session} {q : Request} (h : s.step K R q = some s') :
    s'.kmalloced = s.kmalloced + q.calls ∧ s'.vmalloced = s.vmalloced + s.buffers K R q := by
  cases q with
  | store x b =>
      simp only [Session.step] at h
      split at h
      · cases h
        exact ⟨rfl, rfl⟩
      · exact absurd h (by simp)
  | _ => cases h; exact ⟨rfl, rfl⟩

/--
**What calls leave behind.**

After any sequence of calls and stores the bytes mapped are those that were mapped before
and, for each move, the size of its new area if a copy failed or the source did not start
on a page. Each call has left a block from `kmalloc`, and each command that was not
carried through to its end one from `vmalloc`.

The bytes are what each way out of a move has mapped and unmapped. The two counts of blocks
hold by the definition of the step, which reads them off the exit; the run adds them up.
-/
theorem calls_leave {s₀ s : Session} (qs : List Request)
    (hrun : runs (Session.step K R) s₀ qs = some s) :
    s.space.mapped = s₀.space.mapped + spent (Session.step K R) (Session.extra K) s₀ qs
      ∧ s.kmalloced = s₀.kmalloced + spent (Session.step K R) (fun _ => Request.calls) s₀ qs
      ∧ s.vmalloced = s₀.vmalloced + spent (Session.step K R) (Session.buffers K R) s₀ qs :=
  ⟨runs_spent (f := fun s => s.space.mapped) (fun _ _ _ h => step_mapped K R h) qs hrun,
    runs_spent (fun _ _ _ h => (step_blocks K R h).1) qs hrun,
    runs_spent (fun _ _ _ h => (step_blocks K R h).2) qs hrun⟩

/-- The move of two read-only pages fails in the middle. -/
theorem readOnly_exit : (mveVmaTo Kernel.topDown readOnly 0x30000).1 = .readFault
    ∨ (mveVmaTo Kernel.topDown readOnly 0x30000).1 = .writeFault := by
  have harg : Kernel.topDown.CanRead readOnly.toMmStruct 0x30000 16 := by decide
  have hsrc : readOnly.mtreeLoad 0x10000 = some readOnlyArea := by decide
  have hdst : readOnly.mtreeLoad 0x50000 = none := by decide
  have hfree : ∀ x, 0x50000 ≤ x → x < 0x50000 + pageAlign (sizeFrom readOnlyArea 0x10000) →
      readOnly.attr x = none := (isFree_iff (by decide)).mp (by decide)
  obtain ⟨s₁, hmmap⟩ := Kernel.topDown.mmap_hint (protOf readOnlyArea) (flagsOf readOnlyArea)
    (by decide) (by decide) (by decide) hfree
  rw [mveVmaTo_eq_relocate Kernel.topDown harg (by decide) hsrc hdst]
  rcases relocate_exit hsrc hmmap with ⟨hall, -⟩ | ⟨-, he⟩
  · refine absurd ⟨harg, ?_⟩ readOnly_not_copiesOkTo
    intro vma ptr s' hsrc' _ hmmap'
    obtain rfl := Option.some.inj (hsrc.symm.trans hsrc')
    obtain ⟨rfl, -⟩ := Prod.mk.inj (Option.some.inj (hmmap.symm.trans hmmap'))
    exact hall
  · exact he

/-- One directed move and one number that is no command, once the move is known. -/
theorem run_moveTo_other {s₀ s₁ : Space} {param : Nat} {e : MoveExit}
    (hcall : mveVmaTo K s₀ param = (e, s₁)) :
    runs (Session.step K R) ⟨s₀, 0, 0⟩ [.mveVmaTo param, .other] = some ⟨s₁, 2, e.buffers⟩
      ∧ spent (Session.step K R) (Session.extra K) ⟨s₀, 0, 0⟩ [.mveVmaTo param, .other]
        = e.extra s₀ (s₀.address param).fromAddr := by
  constructor
  · simp [runs, Session.step, hcall]
  · simp [spent, commits, Session.step, Session.extra, hcall]

/-- Two pages mapped in addition, one block from each allocator, and one more for a number that is
no command. -/
theorem calls_leave_readOnly :
    ∃ s, runs (Session.step Kernel.topDown fun _ _ _ => none) ⟨readOnly, 0, 0⟩
        [.mveVmaTo 0x30000, .other] = some s
      ∧ s.space.mapped = 0x3000 + 0x2000 ∧ s.kmalloced = 2 ∧ s.vmalloced = 1 := by
  have hmapped₀ : readOnly.mapped = 0x3000 := by decide
  have haddr : (readOnly.address 0x30000).fromAddr = 0x10000 := by decide
  have hend : readOnly.sourceEnd 0x10000 = 0x12000 := by decide
  have hexit := readOnly_exit
  cases hcall : mveVmaTo Kernel.topDown readOnly 0x30000 with
  | mk e s₁ =>
  rw [hcall] at hexit
  obtain ⟨hrun, hspent⟩ := run_moveTo_other Kernel.topDown (fun _ _ _ => none) hcall
  obtain ⟨hmapped, -, -⟩ := calls_leave Kernel.topDown (fun _ _ _ => none) _ hrun
  refine ⟨_, hrun, ?_⟩
  rw [hmapped, hspent, hmapped₀, haddr]
  rcases hexit with rfl | rfl
  · rw [MoveExit.extra, hend]
    exact ⟨rfl, rfl, rfl⟩
  · rw [MoveExit.extra, hend]
    exact ⟨rfl, rfl, rfl⟩

end LinuxDrivers.Vma
