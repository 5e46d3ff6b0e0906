import TvmJit.Stack.Resize

/-! What a run of calls that change the size of the stack keeps. -/

namespace TvmJit.Stack

section

variable [StackTarget] {V : Type} [Inhabited V]

namespace LuaState

variable {L L' : LuaState V}

/-- The slots in front of `maxstack`. -/
def usable (L : LuaState V) : Nat := (L.offset L.maxstack).toNat / 8

/-- The slots in front of `top`. -/
def used (L : LuaState V) : Nat := (L.offset L.top).toNat / 8

/-- The pointer is into the stack. -/
def Inside (L : LuaState V) (p : Ptr) : Prop := (L.offset p).toNat < 8 * L.stacksize.toNat

/-- A stack with the room behind its limit, which pointers can span. -/
structure Sound (L : LuaState V) : Prop where
  least : LJ_STACK_EXTRA + 1 ≤ L.stacksize.toNat
  bytes : 8 * L.stacksize.toNat < 2 ^ 31
  maxstack : L.offset L.maxstack = .ofNat _ (8 * (L.stacksize.toNat - LJ_STACK_EXTRA - 1))
  top : (L.offset L.top).toNat < 2 ^ 31

/-- What a change of the stack's block keeps. -/
structure Relocated (L L' : LuaState V) : Prop where
  base : L'.offset L'.base = L.offset L.base
  top : L'.offset L'.top = L.offset L.top
  openupval : L'.openupval.map L'.offset = L.openupval.map L.offset
  others : ∀ i, i < L.stacksize.toNat → i < L'.stacksize.toNat →
    L'.slots i = L.slots i ∨ L'.slots i = default
  fresh : ∀ i, L.stacksize.toNat ≤ i → i < L'.stacksize.toNat → L'.slots i = default

/-- `jit_base` keeps its slot when it is one of the stack. -/
def JitKept (L L' : LuaState V) : Prop :=
  L.Inside L.jit_base → L'.offset L'.jit_base = L.offset L.jit_base

theorem Relocated.refl (L : LuaState V) : Relocated L L :=
  ⟨rfl, rfl, rfl, fun _ _ _ => .inl rfl, fun _ low high => by omega⟩

theorem Relocated.trans {L'' : LuaState V} (first : Relocated L L') (second : Relocated L' L'') :
    Relocated L L'' := by
  refine ⟨second.base.trans first.base, second.top.trans first.top,
    second.openupval.trans first.openupval, fun i inside inside' => ?_, fun i outside inside => ?_⟩
  · by_cases between : i < L'.stacksize.toNat
    · rcases second.others i between inside' with same | isNil
      · rw [same]
        exact first.others i inside between
      · exact .inr isNil
    · exact .inr (second.fresh i (by omega) inside')
  · by_cases between : i < L'.stacksize.toNat
    · rcases second.others i between inside with same | isNil
      · rw [same]
        exact first.fresh i outside between
      · exact isNil
    · exact second.fresh i (by omega) inside

omit [Inhabited V] in
theorem JitKept.refl (L : LuaState V) : JitKept L L := fun _ => rfl

theorem offset_moved (p old st : Ptr) : p + (st - old) - st = p - old := by ring

theorem extra_le : LJ_STACK_EXTRA ≤ 7 := by
  rw [LJ_STACK_EXTRA]
  cases StackTarget.LJ_FR2 <;> decide

theorem toNat_small {k : Nat} (small : k < 2 ^ 32) : (BitVec.ofNat StackTarget.width k).toNat = k := by
  have wide : 2 ^ 32 ≤ 2 ^ StackTarget.width := Nat.pow_le_pow_right (by decide) StackTarget.wide
  rw [BitVec.toNat_ofNat, Nat.mod_eq_of_lt (by omega)]

omit [Inhabited V] in
theorem Sound.usable (sound : L.Sound) : L.usable = L.stacksize.toNat - LJ_STACK_EXTRA - 1 := by
  have bytes := sound.bytes
  rw [LuaState.usable, sound.maxstack, toNat_small (by omega)]
  omega

/-- A stack that was resized. -/
structure Resized (L L' : LuaState V) (n : MSize) : Prop where
  size : L'.stacksize.toNat = n.toNat + 1 + LJ_STACK_EXTRA
  sound : L'.Sound
  relocated : Relocated L L'
  kept : ∀ i, i < L.stacksize.toNat → i < L'.stacksize.toNat → L'.slots i = L.slots i
  jit_base : JitKept L L' ↔ (L.Inside L.jit_base → L'.stack = L.stack ∨
    (L.offset L.jit_base).toNat < max L.stacksize.toNat L'.stacksize.toNat)

theorem resizestack_resized (sound : L.Sound) {n : MSize} (fits : 8 * (n.toNat + 1 + LJ_STACK_EXTRA) < 2 ^ 31)
    (block : Block V) :
    ∃ L', L.resizestack n (some block) = (L', none) ∧ L'.stack = block.st ∧ Resized L L' n := by
  have extra := extra_le
  have size : (n + 1 + BitVec.ofNat 32 LJ_STACK_EXTRA).toNat = n.toNat + 1 + LJ_STACK_EXTRA := by
    have one : (1 : MSize).toNat = 1 := rfl
    rw [BitVec.toNat_add, BitVec.toNat_add, BitVec.toNat_ofNat, one]
    omega
  have eight : (8 : MSize).toNat = 8 := rfl
  have kept : min (L.stacksize * 8).toNat ((n + 1 + BitVec.ofNat 32 LJ_STACK_EXTRA) * 8).toNat / 8 =
      min L.stacksize.toNat (n.toNat + 1 + LJ_STACK_EXTRA) := by
    have bytes := sound.bytes
    rw [BitVec.toNat_mul, BitVec.toNat_mul, size, eight]
    omega
  have counted : (if L.stacksize < n + 1 + BitVec.ofNat 32 LJ_STACK_EXTRA then
      n + 1 + BitVec.ofNat 32 LJ_STACK_EXTRA else L.stacksize).toNat =
      max L.stacksize.toNat (n.toNat + 1 + LJ_STACK_EXTRA) := by
    have grows : L.stacksize < n + 1 + BitVec.ofNat 32 LJ_STACK_EXTRA ↔
        L.stacksize.toNat < n.toNat + 1 + LJ_STACK_EXTRA := by rw [BitVec.lt_def, size]
    split
    · next larger =>
        have := grows.mp larger
        omega
    · next smaller =>
        have : ¬L.stacksize.toNat < n.toNat + 1 + LJ_STACK_EXTRA := fun larger => smaller (grows.mpr larger)
        omega
  have slots (i : Nat) (inside : i < L.stacksize.toNat)
      (inside' : i < (n + 1 + BitVec.ofNat 32 LJ_STACK_EXTRA).toNat) :
      (L.resizestack n (some block)).1.slots i = L.slots i := by
    change (if _ then _ else if _ then _ else _) = _
    rw [if_neg (by omega), if_pos (by omega)]
  refine ⟨_, rfl, rfl, size, ?_, ?_, ?_, ?_⟩
  · refine ⟨?_, ?_, ?_, ?_⟩
    · exact size.symm ▸ by omega
    · exact size.symm ▸ fits
    · change block.st + BitVec.ofNat _ (8 * n.toNat) - block.st = BitVec.ofNat _
        (8 * ((n + 1 + BitVec.ofNat 32 LJ_STACK_EXTRA).toNat - LJ_STACK_EXTRA - 1))
      rw [size, show n.toNat + 1 + LJ_STACK_EXTRA - LJ_STACK_EXTRA - 1 = n.toNat by omega]
      ring
    · change (L.top + (block.st - L.stack) - block.st).toNat < _
      rw [offset_moved]
      exact sound.top
  · refine ⟨offset_moved .., offset_moved .., ?_, ?_, ?_⟩
    · change (L.openupval.map (· + (block.st - L.stack))).map (· - block.st) =
        L.openupval.map (· - L.stack)
      rw [List.map_map]
      exact List.map_congr_left fun p _ => offset_moved ..
    · exact fun i inside inside' => .inl (slots i inside inside')
    · exact fun i low high => if_pos ⟨low, high⟩
  · exact slots
  · change (_ → (if _ then L.jit_base + (block.st - L.stack) else L.jit_base) - block.st =
        L.jit_base - L.stack) ↔ (_ → block.st = L.stack ∨
      (L.jit_base - L.stack).toNat < max _ (n + 1 + BitVec.ofNat 32 LJ_STACK_EXTRA).toNat)
    rw [counted, size]
    split
    · next moved => exact iff_of_true (fun _ => offset_moved ..) fun _ => .inr moved
    · next stays =>
        apply imp_congr_right
        intro _
        constructor
        · intro same
          exact .inl (sub_right_injective same)
        · rintro (same | moved)
          · rw [same]
          · exact absurd moved stays

/-! ## Sizes -/

/-- What a stack that overflows, or doubles, or gets what is needed grows to. -/
def grown (size need : Nat) : Nat :=
  if size + need > LJ_STACK_MAX then size + need + 2 * LUA_MINSTACK
  else if size + need < 2 * size then min (2 * size) LJ_STACK_MAX
  else size + need

omit [StackTarget] in
theorem le_grown (size need : Nat) : size + need ≤ grown size need := by
  rw [grown]
  split
  · omega
  · split
    · omega
    · exact le_rfl

theorem grown_fits {size need : Nat}
    (fits : 8 * (size + need + 2 * LUA_MINSTACK + 1 + LJ_STACK_EXTRA) < 2 ^ 31) :
    8 * (grown size need + 1 + LJ_STACK_EXTRA) < 2 ^ 31 := by
  have extra := extra_le
  have most : LJ_STACK_MAX = 65500 := rfl
  rw [grown]
  split
  · omega
  · split
    · omega
    · omega

theorem toNat_growsize {size need : MSize}
    (fits : 8 * (size.toNat + need.toNat + 2 * LUA_MINSTACK + 1 + LJ_STACK_EXTRA) < 2 ^ 31) :
    (growsize size need).toNat = grown size.toNat need.toNat := by
  have least : LUA_MINSTACK = 20 := rfl
  have limit : (BitVec.ofNat 32 LJ_STACK_MAX).toNat = LJ_STACK_MAX := rfl
  have two : (2 : MSize).toNat = 2 := rfl
  have sum : (size + need).toNat = size.toNat + need.toNat := by
    rw [BitVec.toNat_add]
    omega
  have double : (2 * size).toNat = 2 * size.toNat := by
    rw [BitVec.toNat_mul, two]
    omega
  have less : size + need < 2 * size ↔ size.toNat + need.toNat < 2 * size.toNat := by
    rw [BitVec.lt_def, sum, double]
  rw [growsize, grown, apply_ite BitVec.toNat, sum]
  split
  · rw [BitVec.toNat_add, sum, BitVec.toNat_ofNat]
    omega
  · rw [apply_ite BitVec.toNat, if_congr less rfl rfl, apply_ite BitVec.toNat, double, sum, limit]
    split
    · split
      · omega
      · omega
    · rfl

/-! ## The used size -/

omit [Inhabited V] in
theorem slot_eq {p : Ptr} (small : (L.offset p).toNat < 2 ^ 31) :
    L.slot p = ((L.offset p).toNat / 8 : Nat) := by
  have wide : 2 ^ 32 ≤ 2 ^ StackTarget.width := Nat.pow_le_pow_right (by decide) StackTarget.wide
  rw [slot, BitVec.toInt_eq_toNat_of_lt (by omega)]
  rfl

omit [StackTarget] in
theorem le_frames (frames : List (Int × Option Nat)) (top : Int) :
    top ≤ frames.foldl (fun top (frame, framesize) =>
      let ftop := frame + (framesize.getD 0 : Nat)
      if ftop > top then ftop else top) top := by
  induction frames generalizing top with
  | nil => exact le_rfl
  | cons frame rest induction =>
      rw [List.foldl_cons]
      apply le_trans _ (induction _)
      dsimp only
      split
      · omega
      · exact le_rfl

omit [Inhabited V] in
/-- The collector finds all slots in front of the top to be used, as far as there may be. -/
theorem gc_traverse_frames_used (sound : L.Sound) (frames : List (Int × Option Nat)) :
    min L.used L.usable ≤ (L.gc_traverse_frames frames).toNat ∧
      (L.gc_traverse_frames frames).toNat ≤ L.usable := by
  have bytes := sound.bytes
  have usable := sound.usable
  have top : L.slot L.top = L.used := slot_eq sound.top
  have limit : L.slot L.maxstack = L.usable := slot_eq (by
    rw [sound.maxstack, toNat_small (by omega)]
    omega)
  have least := le_frames frames (L.used - 1)
  have found (k : Int) (low : 0 ≤ k) (high : k ≤ L.usable) : ((BitVec.ofInt 32 k).toNat : Int) = k := by
    rw [BitVec.toNat_ofInt]
    omega
  rw [gc_traverse_frames, top, limit]
  dsimp only at least ⊢
  split
  · have same := found L.usable (by omega) le_rfl
    omega
  · next inside =>
      have same := found _ (by omega) (Int.not_lt.mp inside)
      omega

/-! ## Calls -/

/-- What a call keeps of the slots in front of a place. -/
def Keeps (L L' : LuaState V) (i : Nat) : Prop :=
  i < L.stacksize.toNat → i < L'.stacksize.toNat ∧ L'.slots i = L.slots i

/-- A call went well, or an error was thrown with the stack as it was or resized. -/
structure Stepped (L L' : LuaState V) (live : Nat → Prop) : Prop where
  sound : L'.Sound
  relocated : Relocated L L'
  jit_base : JitKept L L'
  live : ∀ i, live i → Keeps L L' i

/-- `jit_base` is near enough to the start of the stack, or the block stays. -/
def JitNear (L : LuaState V) (block : Option (Block V)) (size : Nat) : Prop :=
  L.Inside L.jit_base → ∀ b, block = some b →
    b.st = L.stack ∨ (L.offset L.jit_base).toNat < max L.stacksize.toNat size

variable {block : Option (Block V)} {size : Nat}

theorem Stepped.refl (sound : L.Sound) (live : Nat → Prop) : Stepped L L live :=
  ⟨sound, .refl L, .refl L, fun _ _ inside => ⟨inside, rfl⟩⟩

/-- A resize without memory changes nothing. -/
theorem resizestack_stepped (sound : L.Sound) (live : Nat → Prop) (n : MSize)
    (fits : 8 * (n.toNat + 1 + LJ_STACK_EXTRA) < 2 ^ 31)
    (near : JitNear L block size) (le : size ≤ max L.stacksize.toNat (n.toNat + 1 + LJ_STACK_EXTRA))
    (room : ∀ i, live i → i < L.stacksize.toNat → i < n.toNat + 1 + LJ_STACK_EXTRA) :
    L.resizestack n block = (L, some .errmem) ∧ Stepped L L live ∨
      ∃ L', L.resizestack n block = (L', none) ∧ Stepped L L' live ∧ L'.usable = n.toNat ∧
        L'.stacksize.toNat = n.toNat + 1 + LJ_STACK_EXTRA := by
  cases block with
  | none => exact .inl ⟨rfl, .refl sound live⟩
  | some b =>
      have ⟨L', ran, isStack, resized⟩ := resizestack_resized sound fits b
      have size := resized.size
      have usable := resized.sound.usable
      refine .inr ⟨L', ran, ⟨resized.sound, resized.relocated, ?_, ?_⟩, by omega, size⟩
      · apply resized.jit_base.mpr
        intro inside
        rcases near inside b rfl with stays | close
        · exact .inl (isStack.trans stays)
        · apply Or.inr
          rw [size]
          omega
      · intro i isLive inside
        have inside' : i < L'.stacksize.toNat := by
          rw [size]
          exact room i isLive inside
        exact ⟨inside', resized.kept i inside inside'⟩

theorem growstack_stepped (sound : L.Sound) {need : MSize}
    (fits : 8 * (L.stacksize.toNat + need.toNat + 2 * LUA_MINSTACK + 1 + LJ_STACK_EXTRA) < 2 ^ 31)
    (near : JitNear L block (grown L.stacksize.toNat need.toNat + 1 + LJ_STACK_EXTRA)) (live : Nat → Prop) :
    Stepped L (L.growstack need block).1 live ∧
      ((L.growstack need block).2 = none → L.usable + need.toNat ≤ (L.growstack need block).1.usable) := by
  rw [growstack]
  split
  · exact ⟨.refl sound live, fun served => nomatch served⟩
  · have size := toNat_growsize fits
    have most := grown_fits fits
    have enough := le_grown L.stacksize.toNat need.toNat
    have usable := sound.usable
    rw [← size] at near most enough
    rcases resizestack_stepped sound live _ most near (Nat.le_max_right _ _) fun i _ inside => by omega
      with ⟨failed, stepped⟩ | ⟨L', ran, stepped, usable', _⟩
    · rw [failed]
      exact ⟨stepped, fun served => nomatch served⟩
    · rw [ran]
      dsimp only
      split
      · exact ⟨stepped, fun served => nomatch served⟩
      · refine ⟨stepped, fun _ => ?_⟩
        rw [usable']
        omega

theorem relimitstack_stepped (sound : L.Sound) (near : JitNear L block 0) :
    Stepped L (L.relimitstack block).1 (· < L.used) ∧
      ((L.relimitstack block).1.usable < L.usable → L.used ≤ (L.relimitstack block).1.usable) := by
  have extra := extra_le
  have limit : (BitVec.ofNat 32 LJ_STACK_MAX).toNat = LJ_STACK_MAX := rfl
  have most : LJ_STACK_MAX = 65500 := rfl
  have top : L.slot L.top = L.used := slot_eq sound.top
  rw [relimitstack, top]
  split
  · next large =>
      rcases resizestack_stepped sound (· < L.used) (.ofNat 32 LJ_STACK_MAX) (by omega) near (Nat.zero_le _)
        fun i isLive _ => by omega
        with ⟨failed, stepped⟩ | ⟨L', ran, stepped, usable, _⟩
      · rw [failed]
        exact ⟨stepped, fun less => absurd less (lt_irrefl _)⟩
      · rw [ran]
        refine ⟨stepped, fun _ => ?_⟩
        rw [usable]
        omega
  · exact ⟨.refl sound _, fun less => absurd less (lt_irrefl _)⟩

/-- A stack is only shrunk when less than half of what is left is used. -/
theorem shrinkstack_stepped (sound : L.Sound) {used : MSize} (most : used.toNat ≤ L.stacksize.toNat)
    (near : JitNear L block 0) :
    Stepped L (L.shrinkstack used block).1 (fun i => i < used.toNat ∨ L.usable ≤ used.toNat) ∧
      ((L.shrinkstack used block).1.usable < L.usable → used.toNat ≤ (L.shrinkstack used block).1.usable) := by
  have extra := extra_le
  have bytes := sound.bytes
  have isUsable := sound.usable
  have start : LJ_STACK_START = 40 := rfl
  have four : (4 : MSize).toNat = 4 := rfl
  have times : (4 * used).toNat = 4 * used.toNat := by
    rw [BitVec.toNat_mul, four]
    omega
  have half : (L.stacksize >>> 1).toNat = L.stacksize.toNat / 2 := by
    rw [BitVec.toNat_ushiftRight, Nat.shiftRight_eq_div_pow]
  rw [shrinkstack, times]
  split
  · exact ⟨.refl sound _, fun less => absurd less (lt_irrefl _)⟩
  · split
    · next small =>
        rcases resizestack_stepped sound (fun i => i < used.toNat ∨ L.usable ≤ used.toNat)
          (L.stacksize >>> 1) (by omega) near (Nat.zero_le _) fun i isLive _ => by omega
          with ⟨failed, stepped⟩ | ⟨L', ran, stepped, usable, _⟩
        · rw [failed]
          exact ⟨stepped, fun less => absurd less (lt_irrefl _)⟩
        · rw [ran]
          refine ⟨stepped, fun _ => ?_⟩
          rw [usable]
          omega
    · exact ⟨.refl sound _, fun less => absurd less (lt_irrefl _)⟩

/-- The slots that the collector clears are not in front of the top. -/
theorem gc_traverse_thread_stepped (sound : L.Sound) (atomic : Bool) (frames : List (Int × Option Nat))
    (near : JitNear L block 0) :
    Stepped L (L.gc_traverse_thread atomic frames block).1 (· < L.used) ∧
      ((L.gc_traverse_thread atomic frames block).1.usable < L.usable →
        (L.gc_traverse_frames frames).toNat ≤ (L.gc_traverse_thread atomic frames block).1.usable) := by
  have ⟨least, most⟩ := gc_traverse_frames_used sound frames
  have usable := sound.usable
  have inside : (L.gc_traverse_frames frames).toNat ≤ L.stacksize.toNat := by omega
  have live (i : Nat) (isLive : i < L.used) :
      i < (L.gc_traverse_frames frames).toNat ∨ L.usable ≤ (L.gc_traverse_frames frames).toNat := by omega
  cases atomic with
  | false =>
      have ⟨stepped, uncut⟩ := shrinkstack_stepped sound inside near
      exact ⟨⟨stepped.sound, stepped.relocated, stepped.jit_base, fun i isLive => stepped.live i (live i isLive)⟩,
        uncut⟩
  | true =>
      have top : L.slot L.top = L.used := slot_eq sound.top
      let cleared : LuaState V := { L with
        slots := fun i =>
          if max (1 + StackTarget.LJ_FR2.toNat : Int) (L.slot L.top) ≤ i ∧ i < L.stacksize.toNat then default
          else L.slots i }
      have sound' : cleared.Sound := ⟨sound.least, sound.bytes, sound.maxstack, sound.top⟩
      have relocated : Relocated L cleared := by
        refine ⟨rfl, rfl, rfl, fun i inside inside' => ?_, fun i low high => absurd high (Nat.not_lt.mpr low)⟩
        change (if _ then _ else _) = _ ∨ (if _ then _ else _) = _
        split
        · exact .inr rfl
        · exact .inl rfl
      have inside' : (cleared.gc_traverse_frames frames).toNat ≤ cleared.stacksize.toNat := inside
      have ⟨stepped, uncut⟩ := shrinkstack_stepped sound' inside' near
      refine ⟨⟨stepped.sound, relocated.trans stepped.relocated, stepped.jit_base, fun i isLive inside => ?_⟩, uncut⟩
      have ⟨inside', same⟩ := stepped.live i (live i isLive) inside
      refine ⟨inside', same.trans ?_⟩
      change (if _ then _ else _) = _
      rw [top, if_neg (by omega)]

end LuaState

namespace StackCall

open LuaState

/-- What callers keep to: the new size in bytes fits, and no more is used than there is. -/
def Callable (L : LuaState V) : StackCall → Prop
  | grow need => 8 * (L.stacksize.toNat + need.toNat + 2 * LUA_MINSTACK + 1 + LJ_STACK_EXTRA) < 2 ^ 31
  | shrink used => used.toNat ≤ L.stacksize.toNat
  | relimit | traverse .. => True

/-- A size that the stack may grow to. -/
def newSize (L : LuaState V) : StackCall → Nat
  | grow need => grown L.stacksize.toNat need.toNat + 1 + LJ_STACK_EXTRA
  | shrink _ | relimit | traverse .. => 0

/-- Nothing gets lost that points into the stack. -/
structure Met (L : LuaState V) (block : Option (Block V)) (call : StackCall) : Prop where
  callable : call.Callable L
  near : JitNear L block (call.newSize L)

/-- The call did what it is for. -/
def Served (L L' : LuaState V) (error : Option StackError) : StackCall → Prop
  | grow need => error = none → L.usable + need.toNat ≤ L'.usable
  | shrink used => L'.usable < L.usable → used.toNat ≤ L'.usable
  | relimit => L'.usable < L.usable → L.used ≤ L'.usable
  | traverse _ frames => L'.usable < L.usable → (L.gc_traverse_frames frames).toNat ≤ L'.usable

/-- What a call may not lose. -/
def Live (L : LuaState V) (call : StackCall) (i : Nat) : Prop :=
  i < L.used ∧ ∀ used, call = shrink used → i < used.toNat

variable {L L' : LuaState V} {block : Option (Block V)}

theorem run_stepped (sound : L.Sound) (call : StackCall) (met : call.Met L block) :
    Stepped L (call.run L block).1 (call.Live L) ∧
      call.Served L (call.run L block).1 (call.run L block).2 := by
  cases call with
  | grow need => exact growstack_stepped sound met.callable met.near _
  | shrink used =>
      have ⟨stepped, uncut⟩ := shrinkstack_stepped sound met.callable met.near
      exact ⟨⟨stepped.sound, stepped.relocated, stepped.jit_base,
        fun i live => stepped.live i (.inl (live.2 used rfl))⟩, uncut⟩
  | relimit =>
      have ⟨stepped, uncut⟩ := relimitstack_stepped sound met.near
      exact ⟨⟨stepped.sound, stepped.relocated, stepped.jit_base, fun i live => stepped.live i live.1⟩, uncut⟩
  | traverse atomic frames =>
      have ⟨stepped, uncut⟩ := gc_traverse_thread_stepped sound atomic frames met.near
      exact ⟨⟨stepped.sound, stepped.relocated, stepped.jit_base, fun i live => stepped.live i live.1⟩, uncut⟩

end StackCall

/-- Calls one after the other. Their blocks are where the allocator puts them, if anywhere. -/
inductive Run : LuaState V → List StackCall → LuaState V → Prop
  | done (L : LuaState V) : Run L [] L
  | call {L L' : LuaState V} {call : StackCall} {calls : List StackCall} (block : Option (Block V))
      (met : call.Met L block) (rest : Run (call.run L block).1 calls L') : Run L (call :: calls) L'

theorem Run.keeps {L L' : LuaState V} {calls : List StackCall} (run : Run L calls L') (sound : L.Sound) :
    L'.Sound ∧ L.Relocated L' ∧
      ∀ i, i < L.used → (∀ used, .shrink used ∈ calls → i < used.toNat) → L.Keeps L' i := by
  induction run with
  | done L => exact ⟨sound, .refl L, fun i _ _ inside => ⟨inside, rfl⟩⟩
  | @call L L' call calls block met rest induction =>
      have ⟨stepped, _⟩ := call.run_stepped sound met
      have ⟨sound', relocated, keeps⟩ := induction stepped.sound
      refine ⟨sound', stepped.relocated.trans relocated, fun i below inside isSlot => ?_⟩
      have ⟨here, same⟩ := stepped.live i
        ⟨below, fun used isShrink => inside used (isShrink ▸ List.mem_cons_self)⟩ isSlot
      have used : (call.run L block).1.used = L.used := by
        rw [LuaState.used, stepped.relocated.top, LuaState.used]
      have ⟨there, same'⟩ := keeps i (used ▸ below)
        (fun used member => inside used (List.mem_cons_of_mem _ member)) here
      exact ⟨there, same'.trans same⟩

/-- Stacks of a thread are relocated with everything that points into them, as long as
`jit_base` is near enough to their start. -/
theorem stack_runs {L L' : LuaState V} {calls : List StackCall} (sound : L.Sound) (run : Run L calls L') :
    (L'.Sound ∧ L.Relocated L' ∧
      ∀ i, i < L.used → (∀ used, .shrink used ∈ calls → i < used.toNat) → L.Keeps L' i) ∧
    ∀ (call : StackCall) (block : Option (Block V)), call.Met L' block →
      L'.JitKept (call.run L' block).1 ∧ call.Served L' (call.run L' block).1 (call.run L' block).2 := by
  have kept := run.keeps sound
  refine ⟨kept, fun call block met => ?_⟩
  have ⟨stepped, served⟩ := call.run_stepped kept.1 met
  exact ⟨stepped.jit_base, served⟩

end

section

/-- A target with pointers of 64 bits. -/
local instance pointers64 : StackTarget := ⟨64, by decide, true⟩

/-- A new stack with a frame in slot 20, which a trace runs in. -/
def jitState : LuaState (Option Nat) :=
  { stack := 0x10000, stacksize := 47, base := 0x10000 + 8 * 20, top := 0x10000 + 8 * 24
    maxstack := 0x10000 + 8 * 39, openupval := [0x10000 + 8 * 21], slots := some
    jit_base := 0x10000 + 8 * 20, isCurrent := true }

/-- The block goes elsewhere. -/
def elsewhere : Option (Block (Option Nat)) := some ⟨0x20000, fun _ => none⟩

theorem jitState_sound : jitState.Sound := ⟨by decide, by decide, by decide, by decide⟩

theorem stack_runs_jit : jitState.Relocated ((StackCall.grow 200).run jitState elsewhere).1 ∧
    jitState.JitKept ((StackCall.grow 200).run jitState elsewhere).1 := by
  have callable : (StackCall.grow 200).Callable jitState := (by decide : 8 * (47 + 200 + 40 + 1 + 7) < 2 ^ 31)
  have met : (StackCall.grow 200).Met jitState elsewhere := ⟨callable, fun _ _ _ => .inr (by decide)⟩
  exact ⟨(stack_runs jitState_sound (.call elsewhere met (.done _))).1.2.1,
    ((stack_runs jitState_sound (.done _)).2 _ _ met).1⟩

/-- In a growth to 102 slots a pointer at 160 bytes is not relocated. -/
theorem jit_base_lost : jitState.Sound ∧ (StackCall.grow 10).Callable jitState ∧
    ((StackCall.grow 10).run jitState elsewhere).2 = none ∧ jitState.Inside jitState.jit_base ∧
    ((StackCall.grow 10).run jitState elsewhere).1.offset
      ((StackCall.grow 10).run jitState elsewhere).1.jit_base ≠ jitState.offset jitState.jit_base := by
  exact ⟨jitState_sound, (by decide : 8 * (47 + 10 + 40 + 1 + 7) < 2 ^ 31), by decide,
    (by decide : 160 < 8 * 47), by decide⟩

end

end TvmJit.Stack
