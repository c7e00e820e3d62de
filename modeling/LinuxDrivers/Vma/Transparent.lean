import LinuxDrivers.Lib.Placement
import LinuxDrivers.Lib.Simulation
import LinuxDrivers.Vma.Agree
import LinuxDrivers.Vma.Hole
import LinuxDrivers.Vma.Overwrite

/-!
# A process that moves its memory about

What the two move commands are for: a process has its areas moved while it runs, follows
them with its pointers, and otherwise does not notice. The process here stores bytes and
makes move calls in any order. It knows its memory by the addresses everything had when it
started, and keeps for each the address it has now, `place`. After a directed move it
shifts the pointers into the range as it has asked for; after `IOCTL_MVE_VMA` as the
structure says that the command has filled in.

Beside it runs the same program on a memory that is never moved, which sees the stores and
the structures filled in, and no move. As long as the directed moves have room, and the
areas moved can be read and written, the moved memory is the other one, renamed.
-/

namespace LinuxDrivers.Vma

variable (K : Kernel)

/-! ## The structure, written and read back -/

theorem fromLe_digits (k n : Nat) :
    fromLe ((List.range k).map fun i => UInt8.ofNat (n / 256 ^ i)) = n % 256 ^ k := by
  induction k generalizing n with
  | zero => simp [fromLe, Nat.mod_one]
  | succ k ih =>
      have hshift : (List.range k).map ((fun i => UInt8.ofNat (n / 256 ^ i)) ∘ Nat.succ)
          = (List.range k).map fun i => UInt8.ofNat (n / 256 / 256 ^ i) := by
        refine List.map_congr_left fun i _ => ?_
        rw [Function.comp, Nat.pow_succ, Nat.mul_comm, Nat.div_div_eq_div_mul]
      rw [List.range_succ_eq_map, List.map_cons, List.map_map, hshift]
      show (UInt8.ofNat (n / 256 ^ 0)).toNat + 256 * fromLe _ = _
      have hpow : 256 ^ (k + 1) = 256 * 256 ^ k := Nat.pow_succ'
      rw [ih, Nat.pow_zero, Nat.div_one, UInt8.toNat_ofNat', hpow, Nat.mod_mul]

theorem fromLe_toLe {n : Nat} (h : n < 2 ^ 64) : fromLe (toLe n) = n := by
  rw [toLe, fromLe_digits]
  exact Nat.mod_eq_of_lt h

theorem Address.decode_encode {a : Address} (hfrom : a.fromAddr < 2 ^ 64)
    (hto : a.toAddr < 2 ^ 64) : Address.decode a.encode = a := by
  have hlen : ∀ n, (toLe n).length = 8 := by simp [toLe]
  have htake : a.encode.take 8 = toLe a.fromAddr := by
    rw [Address.encode, List.take_append_of_le_length (by rw [hlen]),
      List.take_of_length_le (by rw [hlen])]
  have hdrop : (a.encode.drop 8).take 8 = toLe a.toAddr := by
    rw [Address.encode, List.drop_append_of_le_length (by rw [hlen]),
      List.drop_of_length_le (by rw [hlen]),
      List.nil_append, List.take_of_length_le (by rw [hlen])]
  rw [Address.decode, htake, hdrop, fromLe_toLe hfrom, fromLe_toLe hto]

/-! ## Memory that is never moved -/

/-- The bytes from `a` on become `bs`, as far as they are mapped. -/
def View.write (v : View) (a : Nat) (bs : List UInt8) : View := fun x =>
  (v x).map fun c => (c.1, Mem.write (fun _ => c.2) a bs x)

def View.writable (v : View) (x : Nat) : Bool := (v x).any fun c => c.1.write

/-- What the program does to its memory: `bytes` at `addr`, or it faults. -/
structure Effect where
  addr : Nat
  bytes : List UInt8

def View.step (v : View) (e : Effect) : Option View :=
  if ∀ i < e.bytes.length, v.writable (e.addr + i) = true then some (v.write e.addr e.bytes)
  else none

theorem view_write (s : Space) (a : Nat) (bs : List UInt8) :
    Space.view { s with mem := s.mem.write a bs } = s.view.write a bs := by
  funext x
  show (s.attr x).map (fun c => (c, s.mem.write a bs x))
    = ((s.attr x).map fun c => (c, s.mem x)).map fun c => (c.1, Mem.write (fun _ => c.2) a bs x)
  rw [Option.map_map]
  rfl

theorem writable_view (s : Space) (x : Nat) : s.view.writable x = (s.attr x).any Attr.write := by
  unfold View.writable Space.view
  cases s.attr x <;> rfl

/-- Where an address of `[src, src + size)` is once the range is at `dst`. -/
def shift (src dst size y : Nat) : Nat := if src ≤ y ∧ y < src + size then dst + (y - src) else y

theorem shift_of_not_mem {src dst size y : Nat} (h : ¬(src ≤ y ∧ y < src + size)) :
    shift src dst size y = y := if_neg h

/-- Moving a range to a free place is a renaming. -/
theorem renaming_move {v : View} {src dst size : Nat}
    (hfree : ∀ x, dst ≤ x → x < dst + size → v x = none) :
    Renaming (shift src dst size) v (v.move src dst size) where
  inj {y y'} hy hy' heq := by
    have hout : ∀ z, v z ≠ none → ¬(dst ≤ z ∧ z < dst + size) :=
      fun z hz hin => hz (hfree z hin.1 hin.2)
    have hy := hout y hy
    have hy' := hout y' hy'
    unfold shift at heq
    split at heq <;> split at heq <;> omega
  holds {y} hy := by
    have hout : ¬(dst ≤ y ∧ y < dst + size) := fun hin => hy (hfree y hin.1 hin.2)
    unfold shift View.move
    by_cases hin : src ≤ y ∧ y < src + size
    · rw [if_pos hin, if_pos (by omega)]
      congr 1
      omega
    · rw [if_neg hin, if_neg hout, if_neg hin]
  only {z} hz := by
    unfold View.move at hz
    split at hz
    · rename_i hin
      refine ⟨src + (z - dst), hz, ?_⟩
      unfold shift
      rw [if_pos (by omega)]
      omega
    · split at hz
      · exact absurd rfl hz
      · rename_i hin
        exact ⟨z, hz, if_neg hin⟩

/-! ## The process -/

/-- The addresses are those the process started with. -/
inductive Op where
  | store (x : Nat) (b : UInt8)
  /-- `ioctl(fd, IOCTL_MVE_VMA_TO, x)` -/
  | mveVmaTo (x : Nat)
  /-- `ioctl(fd, IOCTL_MVE_VMA, x)` -/
  | mveVma (x : Nat)

structure Proc where
  space : Space
  /-- Where the process keeps what was at an address when it started. -/
  place : Nat → Option Nat

def Proc.start (s : Space) : Proc := ⟨s, fun x => (s.view x).map fun _ => x⟩

/-- The process shifts its pointers into the area at `a.fromAddr`. -/
def Proc.follow (p : Proc) (a : Address) (s : Space) : Proc where
  space := s
  place x := (p.place x).map
    (shift a.fromAddr a.toAddr (p.space.sourceEnd a.fromAddr - a.fromAddr))

def Proc.step (p : Proc) : Op → Option Proc
  | .store x b =>
    (p.place x).bind fun y =>
      if (p.space.attr y).any Attr.write then
        some { p with space := { p.space with mem := p.space.mem.write y [b] } }
      else none
  | .mveVmaTo x =>
    (p.place x).map fun y =>
      let r := Vma.mveVmaTo K p.space y
      if r.1.ret = 0 then p.follow (p.space.address y) r.2 else { p with space := r.2 }
  | .mveVma x =>
    (p.place x).map fun y =>
      let r := Vma.mveVma K p.space y
      -- the structure now says where the range is
      if r.1.ret = 0 then p.follow (r.2.address y) r.2 else { p with space := r.2 }

/-- What a step does to the memory that is never moved. -/
def Proc.effect (p : Proc) : Op → Option Effect
  | .store x b => some ⟨x, [b]⟩
  | .mveVmaTo _ => none
  | .mveVma x =>
    (p.place x).bind fun y =>
      let r := Vma.mveVma K p.space y
      if r.1.ret = 0 then some ⟨x, r.2.mem.read y 16⟩ else none

/-- A directed move is refused by its checks, or has room. -/
def CanMoveTo (s : Space) (src dst : Nat) : Prop :=
  s.mtreeLoad src = none ∨ s.mtreeLoad dst ≠ none ∨ ∃ vma, Movable s vma src dst

/-- The area around `src` can be read and written, and its structure at `y` stays where it is. -/
structure CanMove (s : Space) (y : Nat) (vma : VmAreaStruct) (src : Nat) : Prop where
  read : vma.data.attr.read = true
  write : vma.data.attr.write = true
  pages : (vma.stop - src) / 4096 < 2 ^ 32
  outside : ∀ i < 16, ¬(src ≤ y + i ∧ y + i < vma.stop)

/-- What the process sees to before a call. -/
def Proc.Careful (p : Proc) : Op → Prop
  | .store .. => True
  | .mveVmaTo x => ∀ y, p.place x = some y → K.CanRead p.space.toMmStruct y 16
      ∧ CanMoveTo p.space (p.space.address y).fromAddr (p.space.address y).toAddr
  | .mveVma x => x % 4096 ≤ 4080 ∧ ∀ y, p.place x = some y → K.CanRead p.space.toMmStruct y 16
      ∧ K.CanWrite p.space.toMmStruct y 16
      ∧ ∀ vma, p.space.mtreeLoad (p.space.address y).fromAddr = some vma →
          CanMove p.space y vma (p.space.address y).fromAddr

/-! ## Pages stay whole -/

/-- What is on one page at first is on one page later. -/
def Pagewise (place : Nat → Option Nat) : Prop :=
  ∀ {x y i}, place x = some y → x % 4096 + i < 4096 → place (x + i) = some (y + i)

/-- The process's memory is `v`, each byte at its place. -/
structure Kept (p : Proc) (v : View) : Prop where
  placed : Placement p.place v p.space.view
  pagewise : Pagewise p.place
  offset : ∀ {x y}, p.place x = some y → y % 4096 = x % 4096

theorem kept_start (s : Space) : Kept (Proc.start s) s.view where
  placed := .start s.view
  pagewise {x y i} hx hi := by
    obtain ⟨-, -, rfl⟩ := Option.map_eq_some_iff.mp hx
    have hattr : s.attr (x + i) = s.attr x := attr_page s.toMmStruct (by omega)
    show ((s.attr (x + i)).map _).map _ = _
    rw [hattr]
    cases hx' : s.attr x with
    | none => simp [Proc.start, Space.view, hx'] at hx
    | some a => rfl
  offset hx := by
    obtain ⟨-, -, rfl⟩ := Option.map_eq_some_iff.mp hx
    rfl

/-! ## One step -/

section

variable {K} {p : Proc} {v : View}

/-- What is written at a name's place is written under the name. -/
theorem Kept.write (h : Kept p v) {x y : Nat} (hx : p.place x = some y) {bs : List UInt8}
    (hpage : x % 4096 + bs.length ≤ 4096) {s : Space} (hs : s.view = p.space.view.write y bs) :
    Kept { p with space := s } (v.write x bs) := by
  have hnext : ∀ i < bs.length, p.place (x + i) = some (y + i) :=
    fun i hi => h.pagewise hx (by omega)
  refine ⟨?_, h.pagewise, h.offset⟩
  show Placement p.place (v.write x bs) s.view
  rw [hs]
  refine h.placed.change fun {x' y'} hx' => funext fun c => ?_
  congr 1
  by_cases hin : x ≤ x' ∧ x' < x + bs.length
  · obtain ⟨i, rfl⟩ := Nat.exists_eq_add_of_le hin.1
    have hi : i < bs.length := by omega
    obtain rfl := Option.some.inj ((hnext i hi).symm.trans hx')
    rw [Mem.write_add _ (List.getElem?_eq_getElem hi),
      Mem.write_add _ (List.getElem?_eq_getElem hi)]
  · have hout : ¬(y ≤ y' ∧ y' < y + bs.length) := by
      rintro ⟨h1, h2⟩
      obtain ⟨i, rfl⟩ := Nat.exists_eq_add_of_le h1
      have heq := h.placed.inj (hnext i (by omega)) hx'
      omega
    rw [Mem.write_of_not_mem _ hin, Mem.write_of_not_mem _ hout]

/-- What can be written at a name's place can be written under the name. -/
theorem Kept.step (h : Kept p v) {x y : Nat} (hx : p.place x = some y) {bs : List UInt8}
    (hpage : x % 4096 + bs.length ≤ 4096)
    (hw : ∀ i < bs.length, (p.space.attr (y + i)).any Attr.write = true) :
    v.step ⟨x, bs⟩ = some (v.write x bs) := by
  refine if_pos fun i hi => ?_
  have hplace : p.place (x + i) = some (y + i) := h.pagewise hx (by dsimp only at hi; omega)
  have hsame : v.writable (x + i) = p.space.view.writable (y + i) := by
    unfold View.writable
    rw [h.placed.holds hplace]
  rw [hsame, writable_view]
  exact hw i hi

theorem Kept.follow (h : Kept p v) {vma : VmAreaStruct} {src dst : Nat}
    (hm : Movable p.space vma src dst) {s : Space}
    (hs : s.view = p.space.view.move src dst (vma.stop - src)) :
    Kept (p.follow ⟨src, dst⟩ s) v := by
  have hsrc := hm.srcAligned
  have hdst := hm.dstAligned
  have hsize := hm.toRoom.size_aligned
  have hend : p.space.sourceEnd src = vma.stop := sourceEnd_of_mtreeLoad hm.source
  have hplace : (p.follow ⟨src, dst⟩ s).place
      = fun x => (p.place x).map (shift src dst (vma.stop - src)) := by
    funext x
    show (p.place x).map (shift src dst (p.space.sourceEnd src - src)) = _
    rw [hend]
  refine ⟨?_, ?_, ?_⟩
  · rw [hplace]
    show Placement _ v s.view
    rw [hs]
    refine h.placed.rename (renaming_move fun x h1 h2 => ?_)
    unfold Space.view
    rw [hm.free x h1 h2]
    rfl
  · intro x y i hx hi
    rw [hplace] at hx ⊢
    obtain ⟨y, hy, rfl⟩ := Option.map_eq_some_iff.mp hx
    have hoff := h.offset hy
    dsimp only
    rw [h.pagewise hy hi]
    show some (shift src dst (vma.stop - src) (y + i)) = _
    congr 1
    -- both ends of the range are page ends
    unfold shift
    split <;> split <;> omega
  · intro x y hx
    rw [hplace] at hx
    obtain ⟨y, hy, rfl⟩ := Option.map_eq_some_iff.mp hx
    have hoff := h.offset hy
    unfold shift
    split <;> omega

theorem Kept.store (h : Kept p v) {x : Nat} {b : UInt8} {p' : Proc}
    (hs : p.step K (.store x b) = some p') :
    ∃ v', v.step ⟨x, [b]⟩ = some v' ∧ Kept p' v' := by
  obtain ⟨y, hy, hs⟩ := Option.bind_eq_some_iff.mp hs
  split at hs
  · rename_i hw
    obtain rfl := Option.some.inj hs
    have hpage : x % 4096 + [b].length ≤ 4096 := by
      have hlt : x % 4096 < 4096 := Nat.mod_lt _ (by omega)
      exact hlt
    refine ⟨_, h.step hy hpage fun i hi => ?_, h.write hy hpage (view_write p.space y [b])⟩
    obtain rfl : i = 0 := Nat.lt_one_iff.mp hi
    exact hw
  · exact absurd hs (by simp)

theorem ret_ne_zero_of_refused {e : MoveExit} (h : e.refused = true) : ¬e.ret = 0 := by
  cases e <;> first | exact absurd h (by decide) | decide

theorem Kept.mveVmaTo (hK : K.NoFault) (h : Kept p v) {x : Nat} (hok : p.Careful K (.mveVmaTo x))
    {p' : Proc} (hs : p.step K (.mveVmaTo x) = some p') : Kept p' v := by
  obtain ⟨y, hy, rfl⟩ := Option.map_eq_some_iff.mp hs
  obtain ⟨harg, hmove⟩ := hok y hy
  cases hr : Vma.mveVmaTo K p.space y with
  | mk e s =>
  dsimp only
  rcases hmove with hsrc | hdst | ⟨vma, hm⟩
  · rw [mveVmaTo_noSource K harg rfl hsrc] at hr
    obtain ⟨rfl, rfl⟩ := Prod.mk.inj hr
    exact h
  · obtain ⟨w, hw⟩ := Option.ne_none_iff_exists'.mp hdst
    cases hsrc : p.space.mtreeLoad (p.space.address y).fromAddr with
    | none =>
        rw [mveVmaTo_noSource K harg rfl hsrc] at hr
        obtain ⟨rfl, rfl⟩ := Prod.mk.inj hr
        exact h
    | some vma =>
        rw [mveVmaTo_destMapped K harg rfl hsrc hw] at hr
        obtain ⟨rfl, rfl⟩ := Prod.mk.inj hr
        exact h
  · have hdst : p.space.mtreeLoad (p.space.address y).toAddr = none := by
      have hpos := hm.toRoom.size_pos
      exact mtreeLoad_eq_none_iff.mpr (hm.free _ (Nat.le_refl _) (by omega))
    obtain ⟨s', hrun, hview⟩ := relocate_view K hK hm
    have hrel : Vma.mveVmaTo K p.space y = relocate K p.space vma (p.space.address y).fromAddr
        (p.space.address y).toAddr := mveVmaTo_eq_relocate K harg rfl hm.source hdst
    rw [hrel, hrun] at hr
    obtain ⟨rfl, rfl⟩ := Prod.mk.inj hr
    exact h.follow hm hview

/-- `IOCTL_MVE_VMA` has found a place: it moves the range there and says so in the structure. -/
theorem mveVma_moved (hK : K.NoFault) {s : Space} {y src : Nat} {vma : VmAreaStruct}
    (harg : K.CanRead s.toMmStruct y 16) (hwrite : K.CanWrite s.toMmStruct y 16)
    (ha : (s.address y).fromAddr = src) (hsrc : s.mtreeLoad src = some vma)
    (hok : CanMove s y vma src) {dst : Nat} (hole : s.hole vma src = some dst) :
    ∃ s' : Space, Movable s vma src dst ∧ s'.view = s.view.move src dst (vma.stop - src)
      ∧ (∀ i < 16, (s'.attr (y + i)).any Attr.write = true)
      ∧ mveVma K s y = (.moved, { s' with mem := s'.mem.write y (Address.encode ⟨src, dst⟩) }) := by
  obtain ⟨hfor, hfree⟩ := Option.filter_eq_some_iff.mp hole
  have hal : src % 4096 = 0 := src_aligned_of_hole hsrc hfor (Option.isNone_iff_eq_none.mp hfree)
  have hfits : Fits s.toMmStruct vma src dst := by
    rcases hole_searched hsrc hal with ⟨t, first, hole'⟩ | ⟨-, hole'⟩
    · obtain rfl := Option.some.inj (hole'.symm.trans hole)
      exact (fits_of_first hsrc hal first).1
    · exact absurd (hole'.symm.trans hole) (by simp)
  have hm : Movable s vma src dst := ⟨⟨hsrc, hok.read, hok.write, hal, hfits.aligned,
    hfits.below, fun x h1 h2 => mtreeLoad_eq_none_iff.mp (hfits.free x h1 h2)⟩, hok.pages⟩
  obtain ⟨s', hrun, hview⟩ := relocate_view K hK hm
  have hwrite' : K.CanWrite s'.toMmStruct y 16 := by
    intro i hi
    have hcan : K.canWrite (relocate K s vma src dst).2.toMmStruct (y + i) = true :=
      relocate_canWrite K hsrc (hwrite i hi) (hok.outside i hi)
    rwa [hrun] at hcan
  refine ⟨s', hm, hview, fun i hi => (Bool.and_eq_true_iff.mp (hwrite' i hi)).1, ?_⟩
  rw [mveVma_of_hole harg ha hsrc hole, hrun]
  unfold writeBack
  dsimp only
  rw [copyToUser_of_canWrite K (by rw [Address.length_encode]; exact hwrite')]

/-- The process finds in the structure where its range has gone. -/
theorem address_after {s : Space} {y src dst : Nat} {vma : VmAreaStruct}
    (hm : Movable s vma src dst) (s' : Space) :
    Space.address { s' with mem := s'.mem.write y (Address.encode ⟨src, dst⟩) } y = ⟨src, dst⟩
      ∧ (s'.mem.write y (Address.encode ⟨src, dst⟩)).read y 16 = Address.encode ⟨src, dst⟩ := by
  have hsrc : src < 2 ^ 64 :=
    Nat.lt_trans (lt_taskSize_of_mtreeLoad (by rw [hm.source]; rfl)) (by decide)
  have hdst : dst < 2 ^ 64 := by
    have hbelow := hm.below
    have hlt : taskSize < 2 ^ 64 := by decide
    omega
  have hread : (s'.mem.write y (Address.encode ⟨src, dst⟩)).read y 16
      = Address.encode ⟨src, dst⟩ := by
    have hself := Mem.read_write_self s'.mem y (Address.encode ⟨src, dst⟩)
    rwa [Address.length_encode] at hself
  refine ⟨?_, hread⟩
  show Address.decode (Mem.read (s'.mem.write y _) y 16) = _
  rw [hread]
  exact Address.decode_encode hsrc hdst

theorem Kept.mveVma (hK : K.NoFault) (h : Kept p v) {x : Nat} (hok : p.Careful K (.mveVma x))
    {p' : Proc} (hs : p.step K (.mveVma x) = some p') :
    ∃ v', Commits View.step (p.effect K (.mveVma x)) v v' ∧ Kept p' v' := by
  obtain ⟨y, hy, rfl⟩ := Option.map_eq_some_iff.mp hs
  obtain ⟨hpage, hok⟩ := hok
  obtain ⟨harg, hwrite, hmove⟩ := hok y hy
  have heffect : p.effect K (.mveVma x) = if (Vma.mveVma K p.space y).1.ret = 0
      then some ⟨x, (Vma.mveVma K p.space y).2.mem.read y 16⟩ else none := by
    show (p.place x).bind _ = _
    rw [hy]
    rfl
  rw [heffect]
  -- a refused call changes nothing
  have hrefused : ∀ e : MoveExit, e.refused = true → Vma.mveVma K p.space y = (e, p.space) →
      ∃ v', Commits View.step (if (Vma.mveVma K p.space y).1.ret = 0
        then some ⟨x, (Vma.mveVma K p.space y).2.mem.read y 16⟩ else none) v v'
      ∧ Kept (let r := Vma.mveVma K p.space y
        if r.1.ret = 0 then p.follow (r.2.address y) r.2 else { p with space := r.2 }) v' := by
    intro e he hrun
    rw [hrun]
    dsimp only
    rw [if_neg (ret_ne_zero_of_refused he), if_neg (ret_ne_zero_of_refused he)]
    exact ⟨v, rfl, h⟩
  generalize hsrc : (p.space.address y).fromAddr = src at hmove
  cases mveVma_cases K hsrc with
  | argFault arg => exact absurd harg arg
  | refused e arg exit run => exact hrefused e exit run
  | relocated vma dst ptr s₁ arg source hole free =>
      have hcan := hmove vma source
      have hole' : p.space.hole vma src = some dst :=
        Option.filter_eq_some_iff.mpr ⟨hole, by rw [free]; rfl⟩
      obtain ⟨s', hm, hview, hw, hrun⟩ := mveVma_moved hK harg hwrite hsrc source hcan hole'
      obtain ⟨haddr, hread⟩ := address_after (y := y) hm s'
      have hfollow := h.follow hm hview
      -- the structure itself is not moved
      have hplace : (p.follow ⟨src, dst⟩ s').place x = some y := by
        have hout := hcan.outside 0 (by omega)
        have hend : p.space.sourceEnd src = vma.stop := sourceEnd_of_mtreeLoad source
        show (p.place x).map (shift src dst (p.space.sourceEnd src - src)) = _
        rw [hy, hend, Option.map_some, shift_of_not_mem (by omega)]
      have hlen := Address.length_encode ⟨src, dst⟩
      rw [hrun]
      dsimp only
      rw [if_pos (by rfl), if_pos (by rfl), haddr, hread]
      refine ⟨_, hfollow.step hplace (by rw [hlen]; omega) (by rw [hlen]; exact hw), ?_⟩
      exact hfollow.write hplace (by rw [hlen]; omega) (view_write s' y _)

end

/--
**Moves are transparent.**

Let a process store and move its memory about, in any order, taking care with each call.
The memory that was never moved can take every effect the process has had on it, and at the
end everything it holds is in the process's memory, each byte with its attributes at the
place the process has for it. No two bytes share a place, and nothing else is mapped.
-/
theorem moves_are_transparent (hK : K.NoFault) (s₀ : Space) (ops : List Op)
    (hok : Meets (Proc.step K) (Proc.Careful K) (Proc.start s₀) ops) {p : Proc}
    (hrun : runs (Proc.step K) (Proc.start s₀) ops = some p) :
    ∃ v, runs View.step s₀.view (commits (Proc.step K) (Proc.effect K) (Proc.start s₀) ops) = some v
      ∧ Placement p.place v p.space.view := by
  have hsim : ∃ v, runs View.step s₀.view
      (commits (Proc.step K) (Proc.effect K) (Proc.start s₀) ops) = some v ∧ Kept p v := by
    refine runs_simulate (kept_start s₀) (fun p op p' v h hcareful hs => ?_) hok hrun
    cases op with
    | store x b => exact h.store hs
    | mveVmaTo x => exact ⟨v, rfl, h.mveVmaTo hK hcareful hs⟩
    | mveVma x => exact h.mveVma hK hcareful hs
  obtain ⟨v, hv, hkept⟩ := hsim
  exact ⟨v, hv, hkept.placed⟩

theorem step_store {p : Proc} {x y : Nat} (hx : p.place x = some y)
    (hw : (p.space.attr y).any Attr.write = true) (b : UInt8) :
    p.step K (.store x b)
      = some { p with space := { p.space with mem := p.space.mem.write y [b] } } := by
  simp only [Proc.step, hx, Option.bind_some, if_pos hw]

theorem step_mveVmaTo {p : Proc} {x y : Nat} (hx : p.place x = some y) {s : Space}
    (hmove : mveVmaTo K p.space y = (.moved, s)) :
    p.step K (.mveVmaTo x) = some (p.follow (p.space.address y) s) := by
  simp only [Proc.step, hx, Option.map_some, hmove, MoveExit.ret, if_true]

/-- Two pages go to 0x50000, and a store to one of them goes there. -/
theorem moves_are_transparent_twoPages :
    ∃ p v, runs (Proc.step Kernel.topDown) (Proc.start (twoPages 0x10000 0x50000))
        [.mveVmaTo 0x30000, .store 0x10005 7] = some p
      ∧ p.place 0x10005 = some 0x50005
      ∧ runs View.step (twoPages 0x10000 0x50000).view [⟨0x10005, [7]⟩] = some v
      ∧ Placement p.place v p.space.view := by
  have hmovable := twoPages_feasible.movable
  have harg : Kernel.topDown.CanRead (twoPages 0x10000 0x50000).toMmStruct 0x30000 16 := by decide
  have haddr : (twoPages 0x10000 0x50000).address 0x30000 = ⟨0x10000, 0x50000⟩ := by decide
  have hplace₀ : ∀ x, (twoPages 0x10000 0x50000).attr x = some plainInfo.attr →
      (Proc.start (twoPages 0x10000 0x50000)).place x = some x := by
    intro x hx
    simp [Proc.start, Space.view, hx]
  have hstruct := hplace₀ 0x30000 (by decide)
  have hbyte := hplace₀ 0x10005 (by decide)
  generalize hs : twoPages 0x10000 0x50000 = s at *
  obtain ⟨s', hrel, hattr, -⟩ := relocate_movable Kernel.topDown (fun _ _ => rfl) hmovable
  have hdst : s.mtreeLoad 0x50000 = none := by rw [← hs]; decide
  have hfirst : (Proc.start s).step Kernel.topDown (.mveVmaTo 0x30000)
      = some ((Proc.start s).follow (s.address 0x30000) s') := step_mveVmaTo Kernel.topDown hstruct
    ((mveVmaTo_eq_relocate Kernel.topDown harg haddr hmovable.source hdst).trans hrel)
  have hend : s.sourceEnd 0x10000 = 0x12000 := sourceEnd_of_mtreeLoad hmovable.source
  have hplace : ((Proc.start s).follow (s.address 0x30000) s').place 0x10005 = some 0x50005 := by
    show ((Proc.start s).place 0x10005).map (shift _ _ (s.sourceEnd _ - _)) = _
    rw [hbyte, haddr, hend]
    rfl
  have hsecond := step_store Kernel.topDown hplace (by
    show (s'.attr 0x50005).any Attr.write = true
    rw [hattr 0x50005, if_pos (by decide)]
    rfl) 7
  have hrun := runs_cons (Proc.step Kernel.topDown) (Proc.start s) (.mveVmaTo 0x30000)
    [.store 0x10005 7]
  rw [hfirst, Option.bind_some, runs_singleton, hsecond] at hrun
  have hcareful : Meets (Proc.step Kernel.topDown) (Proc.Careful Kernel.topDown) (Proc.start s)
      [.mveVmaTo 0x30000, .store 0x10005 7] := by
    refine meets_cons.mpr ⟨fun y hy => ?_,
      fun _ _ => meets_cons.mpr ⟨trivial, fun _ _ => along_nil _⟩⟩
    obtain rfl := Option.some.inj (hstruct.symm.trans hy)
    have hroom : CanMoveTo s (s.address 0x30000).fromAddr (s.address 0x30000).toAddr := by
      rw [haddr]
      exact Or.inr (Or.inr ⟨_, hmovable⟩)
    exact ⟨harg, hroom⟩
  obtain ⟨v, hv, hplaced⟩ := moves_are_transparent Kernel.topDown (fun _ _ => rfl) _ _ hcareful hrun
  refine ⟨_, v, hrun, hplace, ?_, hplaced⟩
  rw [commits, hfirst] at hv
  dsimp only at hv
  rwa [commits_singleton _ hsecond] at hv

end LinuxDrivers.Vma
