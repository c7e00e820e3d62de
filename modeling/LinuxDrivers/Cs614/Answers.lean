import LinuxDrivers.Lib.ScanMax
import LinuxDrivers.Cs614.Isolation

/-!
# Two of Part 3's answers

**The largest stack.** Command 7 walks the thread group in search of the thread with the
largest stack, but measures every thread by the `stack_vm` of the `mm` they share. All
measures are equal, the first thread met wins, and that is the reader. If the measure is
zero nobody wins, and `tid` is printed as it was found on the stack.

**The caller's buffer.** A `read` is told how many bytes it may write. `demo_read` makes
sure that there are at least four, formats its text straight into the buffer, and returns
the number of bytes it was offered instead of the number it wrote.
-/

namespace LinuxDrivers.Cs614

/-! ## The largest stack -/

/-- A thread group that shares one `mm`, with the stack each of its threads uses. -/
structure Group where
  /-- The threads, in the order of the ring. -/
  threads : List Nat
  nonempty : threads ≠ []
  nodup : threads.Nodup
  /-- `mm->stack_vm` -/
  stackVm : Nat
  usage : Nat → Nat

/-- No thread of the group uses more stack. -/
def Group.Maximal (g : Group) (t : Nat) : Prop :=
  t ∈ g.threads ∧ ∀ u ∈ g.threads, g.usage u ≤ g.usage t

/-- A thread of the group reads: its ring is the group's, entered at the reader. -/
structure Group.Reads (g : Group) (r : Read) : Prop where
  ring : r.current.ring.IsRotated g.threads
  mm : r.current.stackVm = g.stackVm

theorem maxStack_eq_scanMax (t : Task) (tid : Nat) :
    maxStack t tid = scanMax (fun _ => t.stackVm) t.ring (0, tid) := rfl

/-- The scan finds the reader, or nobody. -/
theorem maxStack_tid (t : Task) (tid : Nat) :
    (maxStack t tid).2 = if 0 < t.stackVm then t.pid else tid := by
  rw [maxStack_eq_scanMax]
  rcases scanMax_cases (fun _ : Nat => t.stackVm) t.ring (0, tid)
    with ⟨hkeep, hle⟩ | ⟨y, hy, hlt, hfirst⟩
  · have hzero : t.stackVm ≤ 0 := hle t.pid List.mem_cons_self
    rw [hkeep, if_neg (by omega)]
  · rw [hy, if_pos hlt]
    exact hfirst.eq_head

/-- What command 7 prints, if the buffer is not refused. -/
theorem answer_seven (r : Read) :
    (Part3.answer 7 r).text = if r.length < 4 then none
      else some (toString (if 0 < r.current.stackVm then r.current.pid else r.tid)) := by
  rw [← maxStack_tid]
  unfold Part3.answer serve
  by_cases hlen : r.length < 4
  · rw [if_pos hlen, if_pos hlen]
    rfl
  · rw [if_neg hlen, if_neg hlen]
    rfl

/-- The thread command 7 names: the reader, or whatever `tid` happened to be. -/
def Group.named (g : Group) (r : Read) : Nat := if 0 < g.stackVm then r.current.pid else r.tid

/-- The answer to a read of command 7 is the id of a thread with the largest stack. -/
def Group.NamesLargest (g : Group) (r : Read) : Prop :=
  ∃ t, g.Maximal t ∧ (Part3.answer 7 r).text = some (toString t)

theorem namesLargest_iff {g : Group} {r : Read} (hr : g.Reads r) :
    g.NamesLargest r ↔ 4 ≤ r.length ∧ g.Maximal (g.named r) := by
  have htext : (Part3.answer 7 r).text
      = if r.length < 4 then none else some (toString (g.named r)) := by
    rw [answer_seven, hr.mm]
    rfl
  unfold Group.NamesLargest
  rw [htext]
  constructor
  · rintro ⟨t, ht, heq⟩
    split at heq
    · cases heq
    · rename_i hlen
      have hid : g.named r = t := Nat.repr_inj.mp (Option.some.inj heq)
      rw [hid]
      exact ⟨Nat.not_lt.mp hlen, ht⟩
  · rintro ⟨hlen, hmax⟩
    exact ⟨_, hmax, if_neg (Nat.not_lt.mpr hlen)⟩

/-- The reader is a thread with the largest stack and `stack_vm` is positive, or it is zero and
the id of such a thread was left on the stack. -/
def Group.Lucky (g : Group) (r : Read) : Prop :=
  (0 < g.stackVm ∧ g.Maximal r.current.pid) ∨ (g.stackVm = 0 ∧ g.Maximal r.tid)

theorem maximal_named_iff (g : Group) (r : Read) : g.Maximal (g.named r) ↔ g.Lucky r := by
  unfold Group.named Group.Lucky
  rcases Nat.eq_zero_or_pos g.stackVm with h0 | hpos
  · simp [h0]
  · simp [hpos, Nat.ne_of_gt hpos]

/--
**When command 7 finds the largest stack.**

For every group, every assignment of stack usage and any reads by its threads: all of them
name a thread with the largest stack, and the same one if there is only one, exactly if
every read has room for an answer and is made by such a thread itself with `stack_vm`
positive, or finds the id of one left on the stack with `stack_vm` zero.
-/
theorem largest_stack_iff (g : Group) {rs : List Read} (hrs : ∀ r ∈ rs, g.Reads r) :
    ((∀ r ∈ rs, g.NamesLargest r)
        ∧ ((∃! t, g.Maximal t) → ∀ r ∈ rs, ∀ r' ∈ rs,
            (Part3.answer 7 r).text = (Part3.answer 7 r').text))
      ↔ ∀ r ∈ rs, 4 ≤ r.length ∧ g.Lucky r := by
  have heach : (∀ r ∈ rs, g.NamesLargest r) ↔ ∀ r ∈ rs, 4 ≤ r.length ∧ g.Lucky r :=
    forall₂_congr fun r hr =>
      (namesLargest_iff (hrs r hr)).trans (and_congr_right fun _ => maximal_named_iff g r)
  refine ⟨fun h => heach.mp h.1, fun h => ⟨heach.mpr h, ?_⟩⟩
  -- with one largest thread, every answer is its id
  intro hunique r hr r' hr'
  obtain ⟨t, ht, htext⟩ := heach.mpr h r hr
  obtain ⟨t', ht', htext'⟩ := heach.mpr h r' hr'
  rw [htext, htext', hunique.unique ht ht']

/-- Threads 10 and 11, of which 11 uses far more stack. -/
def bigAndSmall : Group where
  threads := [10, 11]
  nonempty := by decide
  nodup := by decide
  stackVm := 33
  usage := fun t => if t = 11 then 5000 else 1

/-- A read of 16 bytes by one thread of two. -/
def readBy (pid other tid : Nat) : Read where
  current :=
    { pid := pid, staticPrio := 120, comm := "test13", parentPid := 1, nvcsw := 7,
      others := [other], fds := none, stackVm := 33 }
  task := none
  length := 16
  value1 := 7
  tid := tid

/-- Asked by thread 10 the driver names 10, and asked by thread 11 it names 11. -/
theorem smaller_stack_named :
    bigAndSmall.Reads (readBy 10 11 0) ∧ bigAndSmall.Reads (readBy 11 10 0)
      ∧ (∃! t, bigAndSmall.Maximal t)
      ∧ (Part3.answer 7 (readBy 10 11 0)).text = some "10"
      ∧ (Part3.answer 7 (readBy 11 10 0)).text = some "11"
      ∧ ¬bigAndSmall.NamesLargest (readBy 10 11 0) := by
  have hreads : bigAndSmall.Reads (readBy 10 11 0) := ⟨⟨0, rfl⟩, rfl⟩
  have hsmall : ¬bigAndSmall.Maximal 10 := fun h => absurd (h.2 11 (by decide)) (by decide)
  refine ⟨hreads, ⟨⟨1, rfl⟩, rfl⟩, ⟨11, ⟨by decide, by decide⟩, ?_⟩, rfl, rfl, ?_⟩
  · intro t ht
    rcases List.mem_pair.mp ht.1 with rfl | rfl
    · exact absurd ht hsmall
    · rfl
  · rw [namesLargest_iff hreads]
    exact fun h => hsmall h.2

/-- Thread 11 asking about itself gets the right answer. -/
theorem largest_stack_read_by_itself :
    bigAndSmall.NamesLargest (readBy 11 10 0) := by
  have hreads : ∀ r ∈ [readBy 11 10 0], bigAndSmall.Reads r := by
    intro r hr
    rw [List.mem_singleton.mp hr]
    exact ⟨⟨1, rfl⟩, rfl⟩
  refine ((largest_stack_iff bigAndSmall hreads).mpr ?_).1 _ (List.mem_singleton_self _)
  intro r hr
  rw [List.mem_singleton.mp hr]
  exact ⟨by decide, Or.inl ⟨by decide, by decide, by decide⟩⟩

/-! ## The caller's buffer -/

/-- How many bytes a reply puts into the buffer: the text and a terminating zero. -/
def Reply.written (p : Reply) : Nat :=
  match p.text with
  | none => 0
  | some text => text.utf8ByteSize + 1

/-- How many bytes of text a reply consists of. -/
def Reply.produced (p : Reply) : Nat :=
  match p.text with
  | none => 0
  | some text => text.utf8ByteSize

/-- The reply stays within `length` bytes, and a non-negative result counts the text. -/
structure Reply.Respects (p : Reply) (length : Nat) : Prop where
  fits : p.written ≤ length
  counts : 0 ≤ p.ret → p.ret = p.produced

/-- A reply is an error without text, or a text returned as `length` bytes. -/
def Reply.Plain (length : Nat) (p : Reply) : Prop :=
  (∃ e, 0 < e ∧ p = fail e) ∨ ∃ text, p = put length text

theorem plain_put (length : Nat) (text : String) : (put length text).Plain length :=
  Or.inr ⟨text, rfl⟩

theorem plain_einval (length : Nat) : (fail einval).Plain length :=
  Or.inl ⟨einval, by decide, rfl⟩

theorem Reply.Plain.ite {length : Nat} {c : Prop} [Decidable c] {p q : Reply} (hp : p.Plain length)
    (hq : q.Plain length) : (if c then p else q).Plain length := by
  split
  · exact hp
  · exact hq

/-- What follows the tests that all drivers share decides. -/
theorem plain_serve (value : Int) (t : Task) (r : Read) {more : Reply}
    (hmore : more.Plain r.length) : (serve value (some t) r more).Plain r.length :=
  .ite (plain_einval _) <| .ite (plain_put _ _) <| .ite (plain_put _ _) <| .ite (plain_put _ _) <|
    .ite (plain_put _ _) <| .ite (plain_put _ _) hmore

theorem Part3.plain_answer (value : Int) (r : Read) : (Part3.answer value r).Plain r.length :=
  plain_serve value r.current r <|
    .ite (plain_put _ _) <| .ite (plain_put _ _) <| .ite (plain_put _ _) (plain_einval _)

/-- A text that is returned as `length` bytes either does not fit or is miscounted. -/
theorem not_respects_put (length : Nat) (text : String) : ¬(put length text).Respects length := by
  intro h
  have hfits : text.utf8ByteSize + 1 ≤ length := h.fits
  have hcounts : (length : Int) = text.utf8ByteSize := h.counts (Int.natCast_nonneg length)
  omega

/-- An error writes nothing. -/
theorem respects_fail {e : Int} (he : 0 < e) (length : Nat) : (fail e).Respects length := by
  refine ⟨Nat.zero_le length, fun h => ?_⟩
  have hret : 0 ≤ -e := h
  omega

/--
**When a read respects the caller's buffer.**

In every state of the driver, for every task and every length: the bytes written fit the
buffer and the result counts them exactly if the driver does not answer at all.
-/
theorem read_respects_buffer_iff (r : Read) (s : Registry) :
    (Part3.demoRead r s).Respects r.length
      ↔ r.length < 4 ∨ ¬(0 ≤ s.command r ∧ s.command r ≤ 7) := by
  have hserves : Part3.serves (s.command r) r.task r.length = false
      ↔ r.length < 4 ∨ ¬(0 ≤ s.command r ∧ s.command r ≤ 7) := by
    simp [Part3.serves]
    omega
  rw [← hserves, ← Part3.answer_error_iff, Part3.demoRead]
  rcases Part3.plain_answer (s.command r) r with ⟨e, he, hfail⟩ | ⟨text, hput⟩
  · rw [hfail]
    have hneg : -e < 0 := by omega
    exact iff_of_true (respects_fail he r.length) hneg
  · rw [hput]
    have hnonneg : ¬(r.length : Int) < 0 := by omega
    exact iff_of_false (not_respects_put r.length text) hnonneg

/-- Thread 12345 has stored command 0. -/
def askedForPid : Registry := Registry.empty.store 12345 [48]

/-- It asks for its id and offers four bytes: six are written, and 4 is returned for five
digits. -/
theorem four_byte_buffer_overrun :
    (Part3.demoRead { readBy 12345 10 0 with length := 4 } askedForPid).ret = 4
      ∧ (Part3.demoRead { readBy 12345 10 0 with length := 4 } askedForPid).written = 6
      ∧ ¬(Part3.demoRead { readBy 12345 10 0 with length := 4 } askedForPid).Respects 4 := by
  have hwritten : (Part3.demoRead { readBy 12345 10 0 with length := 4 } askedForPid).written = 6 :=
    rfl
  refine ⟨rfl, hwritten, fun h => ?_⟩
  have hfits := h.fits
  rw [hwritten] at hfits
  omega

end LinuxDrivers.Cs614
