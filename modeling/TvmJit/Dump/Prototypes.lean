import TvmJit.Dump.Tables
import TvmJit.Foundation.Bytes
import TvmJit.Bytecode

/-! Bytecode dumps: `lj_bcwrite` and `lj_bcread`. -/

namespace TvmJit.Dump

open Foundation Function Tab

/-! ## Prototypes -/

/-- A constant of 64 bits, or a complex number. -/
inductive CData
  | int64 (lo hi : BitVec 32)
  | uint64 (lo hi : BitVec 32)
  | complex (rlo rhi ilo ihi : BitVec 32)

/-- What is at `lineinfo`: a cell for each instruction, and then the names. The names of the upvalues
and of the variables start at the given offsets. -/
structure DebugInfo where
  lines : List (BitVec 32)
  names : GCstr
  uvinfo : Nat
  varinfo : Nat

/-- A prototype without its collectable constants. The first instruction is apart from the others. -/
structure ProtoInfo where
  flags : UInt8
  numparams : UInt8
  framesize : UInt8
  trace : BitVec 16
  head : BitVec 32
  bc : List (BitVec 32)
  uv : List (BitVec 16)
  kn : List Num
  chunkname : GCstr
  firstline : BitVec 32
  numline : BitVec 32
  lineinfo : Option DebugInfo

mutual

inductive GCproto
  | mk (info : ProtoInfo) (kgc : KGcs)

/-- The collectable constants, in the order of their addresses. -/
inductive KGcs
  | nil
  | child (pt : GCproto) (kgc : KGcs)
  | tab (t : Tab.GCtab) (kgc : KGcs)
  | cdata (cd : CData) (kgc : KGcs)
  | str (s : GCstr) (kgc : KGcs)

end

def PROTO_CHILD : UInt8 := 0x01
def PROTO_VARARG : UInt8 := 0x02
def PROTO_FFI : UInt8 := 0x04
def PROTO_ILOOP : UInt8 := 0x10

def KGcs.length : KGcs → Nat
  | .nil => 0
  | .child _ kgc => kgc.length + 1
  | .tab _ kgc => kgc.length + 1
  | .cdata _ kgc => kgc.length + 1
  | .str _ kgc => kgc.length + 1

/-! ## Memory -/

/-- A word as it is in memory. -/
def memBytes (be : Bool) (n w : Nat) : GCstr := if be then (ofWord n w).reverse else ofWord n w

def memWord (be : Bool) (bytes : GCstr) : Nat := word (if be then bytes.reverse else bytes)

/-- `lj_bswap`, and the same for other sizes. -/
def bswap (n w : Nat) : Nat := word (ofWord n w).reverse

/-- The size of a line cell, as a shift. -/
def lineShift (numline : BitVec 32) : Nat := if numline.toInt < 256 then 0 else if numline.toInt < 65536 then 1 else 2

/-! ## Writing -/

/-- What a build fixes: `LJ_BE` and `LJ_FR2`. -/
structure Build where
  be : Bool
  fr2 : Bool

/-- The context of a dump. `startins` is the original instruction of a trace. -/
structure BCWriteCtx where
  build : Build
  strip : Bool
  startins : BitVec 16 → BitVec 32

def CData.write : CData → GCstr
  | .int64 lo hi => lj_strfmt_wuleb128 2 ++ lj_strfmt_wuleb128 lo ++ lj_strfmt_wuleb128 hi
  | .uint64 lo hi => lj_strfmt_wuleb128 3 ++ lj_strfmt_wuleb128 lo ++ lj_strfmt_wuleb128 hi
  | .complex rlo rhi ilo ihi =>
      lj_strfmt_wuleb128 4 ++ lj_strfmt_wuleb128 rlo ++ lj_strfmt_wuleb128 rhi ++
        lj_strfmt_wuleb128 ilo ++ lj_strfmt_wuleb128 ihi

def BCDUMP_KGC_STR : BitVec 32 := 5

def bcwrite_kgc : KGcs → GCstr
  | .nil => []
  | .child _ kgc => lj_strfmt_wuleb128 0 ++ bcwrite_kgc kgc
  | .tab t kgc => lj_strfmt_wuleb128 1 ++ bcwrite_ktab t ++ bcwrite_kgc kgc
  | .cdata cd kgc => cd.write ++ bcwrite_kgc kgc
  | .str s kgc => lj_strfmt_wuleb128 (BCDUMP_KGC_STR + .ofNat 32 s.length) ++ s ++ bcwrite_kgc kgc

/-- A number constant, narrowed if it has the value of an integer. -/
def narrowed (n : Num) : KNum :=
  if n.eq (.ofInt n.num2int) then .int (.ofInt 32 n.num2int) else .num (n.extractLsb' 0 32) (n.extractLsb' 32 32)

/-- `bc_op`. -/
def bc_op (ins : BitVec 32) : Nat := (ins &&& 0xff).toNat

def setbc_op (ins : BitVec 32) (op : Nat) : BitVec 32 := ins &&& 0xffffff00 ||| .ofNat 32 op

/-- An instruction that was patched for a trace is written as it was. -/
def unpatch (startins : BitVec 16 → BitVec 32) (ins : BitVec 32) : BitVec 32 :=
  let op := bc_op ins
  if op = BCOp.iforl.code ∨ op = BCOp.iiterl.code ∨ op = BCOp.iloop.code ∨ op = BCOp.jfori.code then
    setbc_op ins (op + BCOp.forl.code - BCOp.iforl.code)
  else if op = BCOp.jforl.code ∨ op = BCOp.jiterl.code ∨ op = BCOp.jloop.code then
    let start := startins ((ins >>> 16).setWidth 16)
    setbc_op (ins &&& 0xffff ||| start &&& 0xffff0000) (op + BCOp.forl.code - BCOp.jforl.code)
  else ins

section

variable (ctx : BCWriteCtx)

def written (info : ProtoInfo) : List (BitVec 32) :=
  if info.flags &&& PROTO_ILOOP ≠ 0 ∨ info.trace ≠ 0 then info.bc.map (unpatch ctx.startins) else info.bc

def bcwrite_bytecode (info : ProtoInfo) : GCstr :=
  (written ctx info).flatMap fun ins => memBytes ctx.build.be 4 ins.toNat

/-- The memory from `lineinfo` to the end of the prototype. -/
def debugBytes (numline : BitVec 32) (dbg : DebugInfo) : GCstr :=
  dbg.lines.flatMap (fun line => memBytes ctx.build.be (2 ^ lineShift numline) line.toNat) ++ dbg.names

def debugPart (info : ProtoInfo) : GCstr :=
  if ctx.strip then [] else (info.lineinfo.map (debugBytes ctx info.numline)).getD []

/-- The size of the debug information, and its lines. -/
def debugHead (info : ProtoInfo) : GCstr :=
  if ctx.strip then []
  else
    let sizedbg := (debugPart ctx info).length
    lj_strfmt_wuleb128 (.ofNat 32 sizedbg) ++
      if sizedbg ≠ 0 then lj_strfmt_wuleb128 info.firstline ++ lj_strfmt_wuleb128 info.numline else []

/-- What follows the size of a prototype. -/
def protoData (info : ProtoInfo) (kgc : KGcs) : GCstr :=
  [info.flags &&& (PROTO_CHILD ||| PROTO_VARARG ||| PROTO_FFI), info.numparams, info.framesize,
      .ofNat info.uv.length] ++
    lj_strfmt_wuleb128 (.ofNat 32 kgc.length) ++ lj_strfmt_wuleb128 (.ofNat 32 info.kn.length) ++
    lj_strfmt_wuleb128 (.ofNat 32 info.bc.length) ++ debugHead ctx info ++ bcwrite_bytecode ctx info ++
    info.uv.flatMap (fun uv => memBytes ctx.build.be 2 uv.toNat) ++ bcwrite_kgc kgc ++
    bcwrite_knum (info.kn.map narrowed) ++ debugPart ctx info

/-- The size is filled in so that it ends where the data starts. -/
def sized (data : GCstr) : GCstr :=
  let n := BitVec.ofNat 32 data.length
  (lj_strfmt_wuleb128 n ++ data).take ((prefixSize n).toNat + data.length)

mutual

def bcwrite_proto : GCproto → GCstr
  | .mk info kgc =>
      (if info.flags &&& PROTO_CHILD ≠ 0 then bcwrite_children kgc else []) ++ sized (protoData ctx info kgc)

/-- The children come first, from the last one on. -/
def bcwrite_children : KGcs → GCstr
  | .nil => []
  | .child pt kgc => bcwrite_children kgc ++ bcwrite_proto pt
  | .tab _ kgc => bcwrite_children kgc
  | .cdata _ kgc => bcwrite_children kgc
  | .str _ kgc => bcwrite_children kgc

end

def BCDUMP_HEAD1 : UInt8 := 0x1b
def BCDUMP_HEAD2 : UInt8 := 0x4c
def BCDUMP_HEAD3 : UInt8 := 0x4a
def BCDUMP_VERSION : UInt8 := 2
def BCDUMP_F_BE : UInt8 := 0x01
def BCDUMP_F_STRIP : UInt8 := 0x02
def BCDUMP_F_FFI : UInt8 := 0x04
def BCDUMP_F_FR2 : UInt8 := 0x08
def BCDUMP_F_KNOWN : UInt8 := BCDUMP_F_FR2 * 2 - 1

def dumpFlags (info : ProtoInfo) : UInt8 :=
  (if ctx.strip then BCDUMP_F_STRIP else 0) + (if ctx.build.be then BCDUMP_F_BE else 0) +
    (if info.flags &&& PROTO_FFI ≠ 0 then BCDUMP_F_FFI else 0) + (if ctx.build.fr2 then BCDUMP_F_FR2 else 0)

def bcwrite_header (info : ProtoInfo) : GCstr :=
  [BCDUMP_HEAD1, BCDUMP_HEAD2, BCDUMP_HEAD3, BCDUMP_VERSION, dumpFlags ctx info] ++
    if ctx.strip then []
    else lj_strfmt_wuleb128 (.ofNat 32 info.chunkname.length) ++ info.chunkname

/-- What the writer function is given, when it takes everything. -/
def lj_bcwrite : GCproto → GCstr
  | .mk info kgc => bcwrite_header ctx info ++ bcwrite_proto ctx (.mk info kgc) ++ [0]

end

/-! ## Reading -/

/-- The prototypes that have been read, the last one first. -/
abbrev BcStack := List GCproto

/-- The build that reads, the flags of the dump and the name of the chunk. -/
structure BCReadCtx where
  build : Build
  flags : UInt8
  chunkname : GCstr

def getStack : BcReader BcStack BcStack := fun s => .ok s.2 s

def setStack (stack : BcStack) : BcReader BcStack Unit := fun s => .ok () (s.1, stack)

/-- How much input there is. -/
def remaining : BcReader BcStack Nat := fun s => .ok s.1.length s

def bcread_need (len : Nat) : BcReader BcStack Unit := do
  if len > (← remaining) then throw .bcbad

section

variable [StrHash] (depth : Nat) (ctx : BCReadCtx)

/-- `bcread_swap`. -/
def bcread_swap : Bool := (ctx.flags &&& BCDUMP_F_BE != 0) != ctx.build.be

/-- A word of a block that is copied, and swapped where the byte order is the other one. -/
def bcread_word (n : Nat) : BcReader BcStack Nat := do
  let w := memWord ctx.build.be (← bcread_mem n)
  return if bcread_swap ctx then bswap n w else w

def bcread_bytecode (sizebc : Nat) : BcReader BcStack (List (BitVec 32)) := do
  return (← Reader.many (bcread_word ctx 4) sizebc).map (.ofNat 32)

def bcread_uv (sizeuv : Nat) : BcReader BcStack (List (BitVec 16)) := do
  return (← Reader.many (bcread_word ctx 2) sizeuv).map (.ofNat 16)

def bcread_cdata (tp : BitVec 32) : BcReader BcStack CData := do
  let lo ← bcread_uleb128
  let hi ← bcread_uleb128
  if tp = 4 then do
    let ilo ← bcread_uleb128
    let ihi ← bcread_uleb128
    return .complex lo hi ilo ihi
  else return if tp = 2 then .int64 lo hi else .uint64 lo hi

def popChild : BcReader BcStack GCproto := do
  match ← getStack with
  | [] => throw .bcbad
  | pt :: stack => do
      setStack stack
      return pt

def bcread_kgc : Nat → BcReader BcStack KGcs
  | 0 => return .nil
  | n + 1 => do
      let tp ← bcread_uleb128
      if tp ≥ BCDUMP_KGC_STR then do
        let s ← bcread_mem (tp - BCDUMP_KGC_STR).toNat
        return .str s (← bcread_kgc n)
      else if tp = 1 then do
        let t ← bcread_ktab depth
        return .tab t (← bcread_kgc n)
      else if tp ≠ 0 then do
        let cd ← bcread_cdata tp
        return .cdata cd (← bcread_kgc n)
      else do
        let pt ← popChild
        return .child pt (← bcread_kgc n)

def constValue : KNum → Num
  | .int k => .ofInt k.toInt
  | .num lo hi => hi ++ lo

def bcread_kn (sizekn : Nat) : BcReader BcStack (List Num) := do
  return (← Reader.ofInput .overread (bcread_knum sizekn)).map constValue

/-- How many bytes the names of so many upvalues take. -/
def bcread_varinfo : Nat → GCstr → Nat
  | 0, _ => 0
  | _, [] => 0
  | n + 1, b :: p => if b ≠ 0 then bcread_varinfo (n + 1) p + 1 else bcread_varinfo n p + 1

/-- `bcread_dbg`, with the pointers to the names. Bytes need not be swapped. -/
def bcread_dbg (sizedbg sizebc sizeuv : Nat) (numline : BitVec 32) : BcReader BcStack DebugInfo := do
  let size := 2 ^ lineShift numline
  let lines ← Reader.many (bcread_word ctx size) sizebc
  let names ← bcread_mem (sizedbg - sizebc * size)
  return { lines := lines.map (.ofNat 32), names, uvinfo := sizebc * size,
           varinfo := sizebc * size + bcread_varinfo sizeuv names }

/-- `BCINS_AD`. -/
def BCINS_AD (op : BCOp) (a : UInt8) : BitVec 32 := .ofNat 32 op.code ||| a.toBitVec.setWidth 32 <<< 8

def headOf (flags framesize : UInt8) : BitVec 32 :=
  BCINS_AD (if flags &&& PROTO_VARARG ≠ 0 then .funcv else .funcf) framesize

/-- The size of the debug information, with the first line and the number of lines. -/
def readDebugHead : BcReader BcStack (Nat × BitVec 32 × BitVec 32) := do
  if ctx.flags &&& BCDUMP_F_STRIP = 0 then do
    let sizedbg ← bcread_uleb128
    if sizedbg ≠ 0 then do
      let firstline ← bcread_uleb128
      let numline ← bcread_uleb128
      return (sizedbg.toNat, firstline, numline)
    else return (0, 0, 0)
  else return (0, 0, 0)

def readDebug (sizedbg sizebc sizeuv : Nat) (numline : BitVec 32) : BcReader BcStack (Option DebugInfo) := do
  if sizedbg ≠ 0 then return some (← bcread_dbg ctx sizedbg sizebc sizeuv numline)
  else return none

def lj_bcread_proto : BcReader BcStack GCproto := do
  let flags ← bcread_byte
  let numparams ← bcread_byte
  let framesize ← bcread_byte
  let sizeuv ← bcread_byte
  let sizekgc ← bcread_uleb128
  let sizekn ← bcread_uleb128
  let sizebc ← bcread_uleb128
  let dbg ← readDebugHead ctx
  let bc ← bcread_bytecode ctx sizebc.toNat
  let uv ← bcread_uv ctx sizeuv.toNat
  let kgc ← bcread_kgc depth sizekgc.toNat
  let kn ← bcread_kn sizekn.toNat
  let lineinfo ← readDebug ctx dbg.1 sizebc.toNat sizeuv.toNat dbg.2.2
  return .mk { flags, numparams, framesize, trace := 0, head := headOf flags framesize, bc, uv, kn,
               chunkname := ctx.chunkname, firstline := dbg.2.1, numline := dbg.2.2, lineinfo } kgc

/-- The loop of `lj_bcread`, which takes some input in every round. -/
def bcread_protos : Nat → BcReader BcStack Unit
  | 0 => throw .overread
  | fuel + 1 => do
      let len ← bcread_uleb128
      if len = 0 then return
      else do
        bcread_need len.toNat
        let start ← remaining
        let pt ← lj_bcread_proto depth ctx
        if (← remaining) + len.toNat ≠ start then throw .bcbad
        else do
          setStack (pt :: (← getStack))
          bcread_protos fuel

/-- `bcread_header`, from the second byte on: the flags and the name of the chunk. -/
def bcread_header (build : Build) (chunkarg : GCstr) : BcReader BcStack BCReadCtx := do
  let head2 ← bcread_byte
  let head3 ← bcread_byte
  let version ← bcread_byte
  if head2 ≠ BCDUMP_HEAD2 ∨ head3 ≠ BCDUMP_HEAD3 ∨ version ≠ BCDUMP_VERSION then throw .bcfmt
  else do
    let flags ← bcread_uleb128
    if flags &&& ~~~(BCDUMP_F_KNOWN.toBitVec.setWidth 32) ≠ 0 then throw .bcfmt
    else do
      let flags := UInt8.ofBitVec (flags.setWidth 8)
      if (flags &&& BCDUMP_F_FR2 != 0) != build.fr2 then throw .bcfmt
      else if flags &&& BCDUMP_F_STRIP ≠ 0 then return { build, flags, chunkname := chunkarg }
      else do
        let len ← bcread_uleb128
        bcread_need len.toNat
        return { build, flags, chunkname := ← bcread_mem len.toNat }

/-- `lj_bcread`, for all of the dump behind its first byte. -/
def lj_bcread (build : Build) (chunkarg : GCstr) : BcReader BcStack GCproto := do
  let ctx ← bcread_header build chunkarg
  bcread_protos depth ctx ((← remaining) + 1)
  if (2 * BitVec.ofNat 32 (← remaining)).toInt > 0 then throw .bcbad
  else
    match ← getStack with
    | [pt] => do
        setStack []
        return pt
    | _ => throw .bcbad

end

/-! ## Words -/

section

variable {be be' : Bool} {stack : BcStack}

@[simp] theorem length_memBytes (n w : Nat) : (memBytes be n w).length = n := by
  cases be <;> simp [memBytes]

/-- A word that is read in the other byte order is swapped. -/
theorem memWord_memBytes {n w : Nat} (fits : w < 256 ^ n) :
    (if be != be' then bswap n (memWord be' (memBytes be n w)) else memWord be' (memBytes be n w)) = w := by
  have value : word (ofWord n w) = w := by rw [word_ofWord, Nat.mod_eq_of_lt fits]
  have swapped : bswap n (word (ofWord n w).reverse) = w := by
    have length : (ofWord n w).reverse.length = n := by simp
    have same := ofWord_word (ofWord n w).reverse
    rw [length] at same
    rw [bswap, same, List.reverse_reverse, value]
  cases be <;> cases be' <;> simp [memBytes, memWord, value, swapped]

/-- The dump is that of a build with this byte order. -/
def Flagged (be : Bool) (ctx : BCReadCtx) : Prop := (ctx.flags &&& BCDUMP_F_BE != 0) = be

variable {ctx : BCReadCtx}

theorem word_decodes (flagged : Flagged be ctx) {n w : Nat} (fits : w < 256 ^ n) :
    Decodes (bcread_word ctx n) (memBytes be n w) stack w stack := by
  apply (mem_decodes (length_memBytes n w)).bind_nil
  rw [bcread_swap, flagged]
  simp only [memWord_memBytes fits]
  exact Decodes.pure

theorem words_decodes (flagged : Flagged be ctx) {n bits : Nat} {words : List (BitVec bits)}
    (fits : ∀ w ∈ words, w.toNat < 256 ^ n) :
    Decodes (Reader.many (bcread_word ctx n) words.length) (words.flatMap fun w => memBytes be n w.toNat) stack
      (words.map BitVec.toNat) stack :=
  Decodes.many fun w member => word_decodes flagged (fits w member)

theorem map_ofNat_toNat {bits : Nat} (words : List (BitVec bits)) :
    (words.map BitVec.toNat).map (.ofNat bits) = words := by
  rw [List.map_map]
  apply List.map_id''
  intro w
  simp

/-! ## Parts of a prototype -/

variable {info : ProtoInfo}

theorem bytecode_decodes (flagged : Flagged be ctx) (words : List (BitVec 32)) :
    Decodes (bcread_bytecode ctx words.length) (words.flatMap fun ins => memBytes be 4 ins.toNat) stack words stack := by
  apply (words_decodes flagged fun w _ => w.isLt).bind_nil
  rw [map_ofNat_toNat]
  exact Decodes.pure

theorem uv_decodes (flagged : Flagged be ctx) (words : List (BitVec 16)) :
    Decodes (bcread_uv ctx words.length) (words.flatMap fun uv => memBytes be 2 uv.toNat) stack words stack := by
  apply (words_decodes flagged fun w _ => w.isLt).bind_nil
  rw [map_ofNat_toNat]
  exact Decodes.pure

/-- A number constant loses the sign of a zero. -/
def storedNum (n : Num) : Num := if n.isMzero then 0 else n

theorem value_narrowed (n : Num) : constValue (narrowed n) = storedNum n := by
  have stored : Tab.TValue.num (constValue (narrowed n)) = (Tab.TValue.num n).stored := by
    rw [narrowed]
    split
    · next integer => exact narrow_value integer
    · next different =>
        rw [stored_of_ne different, constValue, append_halves]
  exact Tab.TValue.num.inj stored

theorem kn_decodes (kn : List Num) :
    Decodes (bcread_kn kn.length) (bcwrite_knum (kn.map narrowed)) stack (kn.map storedNum) stack := by
  have reads : Decodes (Reader.ofInput .overread (bcread_knum kn.length) : BcReader BcStack (List KNum))
      (bcwrite_knum (kn.map narrowed)) stack (kn.map narrowed) stack := by
    apply Decodes.ofInput
    intro rest
    have read := knum_bcwrite (kn.map narrowed) rest
    rwa [List.length_map] at read
  apply reads.bind_nil
  have values : (kn.map narrowed).map constValue = kn.map storedNum := by
    rw [List.map_map]
    exact List.map_congr_left fun n _ => value_narrowed n
  rw [values]
  exact Decodes.pure

theorem uleb128_small {n : Nat} (small : n < 2 ^ 32) : (BitVec.ofNat 32 n).toNat = n := by
  rw [BitVec.toNat_ofNat, Nat.mod_eq_of_lt small]

theorem cdata_decodes (cd : CData) :
    ∃ tp : BitVec 32, ∃ data, cd.write = lj_strfmt_wuleb128 tp ++ data ∧ ¬tp ≥ BCDUMP_KGC_STR ∧ tp ≠ 1 ∧ tp ≠ 0 ∧
      ∀ stack, Decodes (bcread_cdata tp) data stack cd stack := by
  cases cd with
  | int64 lo hi =>
      refine ⟨2, _, List.append_assoc .., by decide, by decide, by decide, fun stack => ?_⟩
      exact (uleb128_decodes lo).bind ((uleb128_decodes hi).bind_nil Decodes.pure)
  | uint64 lo hi =>
      refine ⟨3, _, List.append_assoc .., by decide, by decide, by decide, fun stack => ?_⟩
      exact (uleb128_decodes lo).bind ((uleb128_decodes hi).bind_nil Decodes.pure)
  | complex rlo rhi ilo ihi =>
      refine ⟨4, lj_strfmt_wuleb128 rlo ++ (lj_strfmt_wuleb128 rhi ++ (lj_strfmt_wuleb128 ilo ++
        lj_strfmt_wuleb128 ihi)), ?_, by decide, by decide, by decide, fun stack => ?_⟩
      · simp [CData.write]
      · apply (uleb128_decodes rlo).bind
        apply (uleb128_decodes rhi).bind
        exact (uleb128_decodes ilo).bind ((uleb128_decodes ihi).bind_nil Decodes.pure)

/-! ## What is loaded -/

/-- The pointers to the names are those that the reader computes. -/
def DebugInfo.loaded (dbg : DebugInfo) (sizeuv : Nat) (numline : BitVec 32) : DebugInfo :=
  let sizeli := dbg.lines.length * 2 ^ lineShift numline
  { dbg with uvinfo := sizeli, varinfo := sizeli + bcread_varinfo sizeuv dbg.names }

/-- There is debug information in the dump. -/
def hasDebug (ctx : BCWriteCtx) (info : ProtoInfo) : Bool := (debugPart ctx info).length ≠ 0

/-- What of a prototype is in the dump. -/
def ProtoInfo.loaded (ctx : BCWriteCtx) (chunkname : GCstr) (info : ProtoInfo) : ProtoInfo where
  flags := info.flags &&& (PROTO_CHILD ||| PROTO_VARARG ||| PROTO_FFI)
  numparams := info.numparams
  framesize := info.framesize
  trace := 0
  head := headOf (info.flags &&& (PROTO_CHILD ||| PROTO_VARARG ||| PROTO_FFI)) info.framesize
  bc := written ctx info
  uv := info.uv
  kn := info.kn.map storedNum
  chunkname
  firstline := if hasDebug ctx info then info.firstline else 0
  numline := if hasDebug ctx info then info.numline else 0
  lineinfo :=
    if hasDebug ctx info then info.lineinfo.map (·.loaded info.uv.length info.numline) else none

section

variable [StrHash]

mutual

/-- The second prototype is what is loaded from a dump of the first one. -/
def GCproto.Loaded (ctx : BCWriteCtx) (chunkname : GCstr) : GCproto → GCproto → Prop
  | .mk info kgc, .mk info' kgc' => info' = info.loaded ctx chunkname ∧ kgc.Loaded ctx chunkname kgc'

def KGcs.Loaded (ctx : BCWriteCtx) (chunkname : GCstr) : KGcs → KGcs → Prop
  | .nil, .nil => True
  | .child pt kgc, .child pt' kgc' => pt.Loaded ctx chunkname pt' ∧ kgc.Loaded ctx chunkname kgc'
  | .tab t kgc, .tab t' kgc' => Loads t t' ∧ kgc.Loaded ctx chunkname kgc'
  | .cdata cd kgc, .cdata cd' kgc' => cd' = cd ∧ kgc.Loaded ctx chunkname kgc'
  | .str s kgc, .str s' kgc' => s' = s ∧ kgc.Loaded ctx chunkname kgc'
  | _, _ => False

end

def KGcs.children : KGcs → List GCproto
  | .nil => []
  | .child pt kgc => pt :: kgc.children
  | .tab _ kgc => kgc.children
  | .cdata _ kgc => kgc.children
  | .str _ kgc => kgc.children

/-- The sizes of a prototype have 32 bits, and its upvalues 8. -/
structure Fits (ctx : BCWriteCtx) (info : ProtoInfo) (kgc : KGcs) : Prop where
  sizeuv : info.uv.length < 2 ^ 8
  sizekgc : kgc.length < 2 ^ 32
  sizekn : info.kn.length < 2 ^ 32
  sizebc : info.bc.length < 2 ^ 32
  size : (protoData ctx info kgc).length < 2 ^ 32
  lines : ∀ dbg ∈ info.lineinfo, dbg.lines.length = info.bc.length ∧
    ∀ line ∈ dbg.lines, line.toNat < 256 ^ 2 ^ lineShift info.numline
  children : info.flags &&& PROTO_CHILD = 0 → kgc.children = []

mutual

/-- All prototypes of a tree can be dumped. -/
def GCproto.Dumpable (ctx : BCWriteCtx) : GCproto → Prop
  | .mk info kgc => Fits ctx info kgc ∧ kgc.Dumpable ctx

def KGcs.Dumpable (ctx : BCWriteCtx) : KGcs → Prop
  | .nil => True
  | .child pt kgc => pt.Dumpable ctx ∧ kgc.Dumpable ctx
  | .tab t kgc => Template t ∧ kgc.Dumpable ctx
  | .cdata _ kgc => kgc.Dumpable ctx
  | .str s kgc => s.length < 2 ^ 31 ∧ kgc.Dumpable ctx

end

variable {wctx : BCWriteCtx} {chunkname : GCstr}

omit [StrHash] in
theorem popChild_decodes {pt : GCproto} : Decodes popChild [] (pt :: stack) pt stack := fun _ => rfl

/-- The children that have been read are taken off the stack, the first one first. -/
theorem kgc_decodes (depth : Nat) : (kgc : KGcs) → kgc.Dumpable wctx → (cs : BcStack) →
    List.Forall₂ (GCproto.Loaded wctx chunkname) kgc.children cs →
    ∃ kgc', (∀ stack, Decodes (bcread_kgc (depth + 1) kgc.length) (bcwrite_kgc kgc) (cs ++ stack) kgc' stack) ∧
      kgc.Loaded wctx chunkname kgc'
  | .nil, _, cs, loaded => by
      cases loaded
      exact ⟨.nil, fun _ => Decodes.pure, trivial⟩
  | .child pt kgc, dumpable, cs, loaded => by
      cases loaded with
      | cons first rest =>
          obtain ⟨kgc', decodes, isLoaded⟩ := kgc_decodes depth kgc dumpable.2 _ rest
          refine ⟨.child _ kgc', fun stack => ?_, first, isLoaded⟩
          rw [bcwrite_kgc, KGcs.length, bcread_kgc]
          apply (uleb128_decodes 0).bind
          exact popChild_decodes.nil_bind ((decodes stack).bind_nil Decodes.pure)
  | .tab t kgc, dumpable, cs, loaded => by
      obtain ⟨kgc', decodes, isLoaded⟩ := kgc_decodes depth kgc dumpable.2 cs loaded
      obtain ⟨t', table, same⟩ := @ktab_decodes BcStack _ depth _ dumpable.1
      refine ⟨.tab t' kgc', fun stack => ?_, same, isLoaded⟩
      rw [bcwrite_kgc, KGcs.length, bcread_kgc, List.append_assoc]
      apply (uleb128_decodes 1).bind
      exact (table _).bind ((decodes stack).bind_nil Decodes.pure)
  | .cdata cd kgc, dumpable, cs, loaded => by
      obtain ⟨kgc', decodes, isLoaded⟩ := kgc_decodes depth kgc dumpable cs loaded
      obtain ⟨tp, data, isData, notStr, notTab, notChild, reads⟩ := cdata_decodes cd
      refine ⟨.cdata cd kgc', fun stack => ?_, rfl, isLoaded⟩
      rw [bcwrite_kgc, KGcs.length, bcread_kgc, isData, List.append_assoc]
      apply (uleb128_decodes tp).bind
      rw [if_neg notStr, if_neg notTab, if_pos notChild]
      exact (reads _).bind ((decodes stack).bind_nil Decodes.pure)
  | .str text kgc, dumpable, cs, loaded => by
      obtain ⟨kgc', decodes, isLoaded⟩ := kgc_decodes depth kgc dumpable.2 cs loaded
      have isType := str_type dumpable.1
      refine ⟨.str text kgc', fun stack => ?_, rfl, isLoaded⟩
      rw [bcwrite_kgc, KGcs.length, bcread_kgc, List.append_assoc]
      apply (uleb128_decodes _).bind
      rw [BCDUMP_KGC_STR, if_pos isType.1, isType.2]
      exact (mem_decodes rfl).bind ((decodes stack).bind_nil Decodes.pure)

/-- The context of the reader is that of a dump. -/
structure Reads (wctx : BCWriteCtx) (chunkname : GCstr) (ctx : BCReadCtx) : Prop where
  flagged : Flagged wctx.build.be ctx
  strip : ctx.flags &&& BCDUMP_F_STRIP = 0 ↔ wctx.strip = false
  chunkname : ctx.chunkname = chunkname

omit [StrHash] in
theorem debugHead_decodes (reads : Reads wctx chunkname ctx) (small : (debugPart wctx info).length < 2 ^ 32) :
    Decodes (readDebugHead ctx) (debugHead wctx info) stack
      ((debugPart wctx info).length, if hasDebug wctx info then info.firstline else 0,
        if hasDebug wctx info then info.numline else 0) stack := by
  cases strip : wctx.strip with
  | true =>
      have isStripped : ¬ctx.flags &&& BCDUMP_F_STRIP = 0 := by simp [reads.strip, strip]
      rw [readDebugHead, if_neg isStripped]
      simp only [hasDebug, debugHead, debugPart, strip, if_true]
      exact Decodes.pure
  | false =>
      rw [readDebugHead, if_pos (reads.strip.mpr strip), debugHead, strip, if_neg Bool.false_ne_true]
      have isLength := uleb128_small small
      apply (uleb128_decodes _).bind
      by_cases none : (debugPart wctx info).length = 0
      · simp only [hasDebug, none]
        exact Decodes.pure
      · have notZero : BitVec.ofNat 32 (debugPart wctx info).length ≠ 0 := by
          intro zero
          rw [zero] at isLength
          exact none isLength.symm
        rw [if_pos none, if_pos notZero]
        apply (uleb128_decodes _).bind
        apply (uleb128_decodes _).bind_nil
        rw [isLength]
        simp only [hasDebug, none, ne_eq, not_false_eq_true, decide_true, if_true]
        exact Decodes.pure

omit [StrHash] in
theorem readDebug_decodes (reads : Reads wctx chunkname ctx) {numline : BitVec 32}
    (isNumline : hasDebug wctx info = true → numline = info.numline)
    (lines : ∀ dbg ∈ info.lineinfo, dbg.lines.length = info.bc.length ∧
      ∀ line ∈ dbg.lines, line.toNat < 256 ^ 2 ^ lineShift info.numline) :
    Decodes (readDebug ctx (debugPart wctx info).length info.bc.length info.uv.length numline)
      (debugPart wctx info) stack (info.loaded wctx chunkname).lineinfo stack := by
  rw [readDebug, ProtoInfo.loaded]
  by_cases none : (debugPart wctx info).length = 0
  · have empty : debugPart wctx info = [] := List.length_eq_zero_iff.mp none
    simp only [hasDebug, empty]
    exact Decodes.pure
  · have isDebug : hasDebug wctx info = true := by simp [hasDebug, none]
    rw [isNumline isDebug, if_pos none]
    dsimp only
    rw [if_pos isDebug]
    cases found : info.lineinfo with
    | none => simp [debugPart, found] at none
    | some dbg =>
        obtain ⟨sizebc, fits⟩ := lines dbg (by rw [found]; rfl)
        have part : debugPart wctx info = debugBytes wctx info.numline dbg := by
          cases strip : wctx.strip with
          | true => simp [debugPart, strip] at none
          | false => simp [debugPart, strip, found]
        have names : (debugBytes wctx info.numline dbg).length - info.bc.length * 2 ^ lineShift info.numline =
            dbg.names.length := by
          simp [debugBytes, List.length_flatMap, sizebc]
        rw [part]
        have decodes : Decodes (bcread_dbg ctx (debugBytes wctx info.numline dbg).length info.bc.length
            info.uv.length info.numline) (debugBytes wctx info.numline dbg) stack
            (dbg.loaded info.uv.length info.numline) stack := by
          rw [bcread_dbg, names, ← sizebc]
          apply (words_decodes reads.flagged fits).bind
          apply (mem_decodes rfl).bind_nil
          rw [map_ofNat_toNat]
          exact Decodes.pure
        exact decodes.bind_nil Decodes.pure

omit [StrHash] in
theorem protoData_eq (kgc : KGcs) : protoData wctx info kgc =
    [info.flags &&& (PROTO_CHILD ||| PROTO_VARARG ||| PROTO_FFI)] ++ ([info.numparams] ++ ([info.framesize] ++
      ([.ofNat info.uv.length] ++ (lj_strfmt_wuleb128 (.ofNat 32 kgc.length) ++
      (lj_strfmt_wuleb128 (.ofNat 32 info.kn.length) ++ (lj_strfmt_wuleb128 (.ofNat 32 info.bc.length) ++
      (debugHead wctx info ++ (bcwrite_bytecode wctx info ++
      (info.uv.flatMap (fun uv => memBytes wctx.build.be 2 uv.toNat) ++ (bcwrite_kgc kgc ++
      (bcwrite_knum (info.kn.map narrowed) ++ debugPart wctx info))))))))))) := by
  simp [protoData]

omit [StrHash] in
theorem length_written : (written wctx info).length = info.bc.length := by
  rw [written]
  split
  · exact List.length_map _
  · rfl

/-- A prototype is read with the children that are on the stack. -/
theorem proto_decodes (depth : Nat) {kgc : KGcs} (reads : Reads wctx chunkname ctx) (fits : Fits wctx info kgc)
    (dumpable : kgc.Dumpable wctx) {cs : BcStack}
    (loaded : List.Forall₂ (GCproto.Loaded wctx chunkname) kgc.children cs) :
    ∃ pt', (∀ stack, Decodes (lj_bcread_proto (depth + 1) ctx) (protoData wctx info kgc) (cs ++ stack) pt' stack) ∧
      (GCproto.mk info kgc).Loaded wctx chunkname pt' := by
  obtain ⟨kgc', constants, isLoaded⟩ := kgc_decodes depth kgc dumpable cs loaded
  have debugSize : (debugPart wctx info).length < 2 ^ 32 := by
    have size := fits.size
    rw [protoData] at size
    simp only [List.length_append] at size
    omega
  have sizeuv : (UInt8.ofNat info.uv.length).toNat = info.uv.length := by
    have small := fits.sizeuv
    rw [UInt8.toNat_ofNat']
    omega
  refine ⟨.mk (info.loaded wctx chunkname) kgc', fun stack => ?_, rfl, isLoaded⟩
  rw [protoData_eq, lj_bcread_proto]
  apply (byte_decodes _).bind
  apply (byte_decodes _).bind
  apply (byte_decodes _).bind
  apply (byte_decodes _).bind
  apply (uleb128_decodes _).bind
  apply (uleb128_decodes _).bind
  apply (uleb128_decodes _).bind
  rw [uleb128_small fits.sizekgc, uleb128_small fits.sizekn, uleb128_small fits.sizebc, sizeuv]
  apply (debugHead_decodes reads debugSize).bind
  rw [← @length_written info wctx]
  apply (bytecode_decodes reads.flagged (written wctx info)).bind
  apply (uv_decodes reads.flagged info.uv).bind
  apply (constants stack).bind
  apply (kn_decodes info.kn).bind
  rw [length_written]
  have debug := @readDebug_decodes stack _ _ _ chunkname reads (if hasDebug wctx info then info.numline else 0)
    (fun isDebug => if_pos isDebug) fits.lines
  apply debug.bind_nil
  rw [reads.chunkname]
  exact Decodes.pure

/-! ## Dumps -/

omit [StrHash] in
/-- Filling in the size leaves no gap. -/
theorem sized_eq {data : GCstr} (some : data ≠ []) (small : data.length < 2 ^ 32) :
    sized data = lj_strfmt_wuleb128 (.ofNat 32 data.length) ++ data := by
  have notZero : BitVec.ofNat 32 data.length ≠ 0 := by
    intro zero
    have isLength := uleb128_small small
    rw [zero] at isLength
    exact some (List.length_eq_zero_iff.mp isLength.symm)
  rw [sized, prefixSize_eq_length _ notZero]
  apply List.take_of_length_le
  simp

/-- The loop of the reader takes the word off the input, and leaves these prototypes on the stack. -/
def Pushes (depth : Nat) (ctx : BCReadCtx) (word : GCstr) (pts : BcStack) : Prop :=
  ∃ rounds ≤ word.length, ∀ fuel rest stack,
    bcread_protos depth ctx (fuel + rounds) (word ++ rest, stack) = bcread_protos depth ctx fuel (rest, pts ++ stack)

theorem Pushes.nil (depth : Nat) : Pushes depth ctx [] [] := ⟨0, le_rfl, fun _ _ _ => rfl⟩

theorem Pushes.append {depth : Nat} {word word' : GCstr} {pts pts' : BcStack} (first : Pushes depth ctx word pts)
    (second : Pushes depth ctx word' pts') : Pushes depth ctx (word ++ word') (pts' ++ pts) := by
  obtain ⟨rounds, few, first⟩ := first
  obtain ⟨rounds', few', second⟩ := second
  refine ⟨rounds' + rounds, ?_, fun fuel rest stack => ?_⟩
  · rw [List.length_append]
    omega
  · rw [List.append_assoc, List.append_assoc, ← Nat.add_assoc, first, second]

omit [StrHash] in
theorem bcread_need_ok {len : Nat} {s : GCstr × BcStack} (enough : len ≤ s.1.length) : bcread_need len s = .ok () s := by
  have run : remaining s = .ok s.1.length s := rfl
  rw [bcread_need, bind_of_ok run, if_neg (Nat.not_lt.mpr enough)]
  rfl

/-- One round reads one prototype, and replaces its children by it. -/
theorem Pushes.proto {depth : Nat} {data word : GCstr} {cs : BcStack} {pt : GCproto} (some : data ≠ [])
    (small : data.length < 2 ^ 32) (children : Pushes depth ctx word cs)
    (decodes : ∀ stack, Decodes (lj_bcread_proto depth ctx) data (cs ++ stack) pt stack) :
    Pushes depth ctx (word ++ sized data) [pt] := by
  obtain ⟨rounds, few, children⟩ := children
  have isLength := uleb128_small small
  have notZero : BitVec.ofNat 32 data.length ≠ 0 := by
    intro zero
    rw [zero] at isLength
    exact some (List.length_eq_zero_iff.mp isLength.symm)
  have positive := List.length_pos_of_ne_nil some
  refine ⟨1 + rounds, ?_, fun fuel rest stack => ?_⟩
  · rw [sized_eq some small, List.length_append, List.length_append]
    omega
  · rw [List.append_assoc, ← Nat.add_assoc, children, bcread_protos, sized_eq some small, List.append_assoc]
    have size := uleb128_decodes (s := cs ++ stack) (BitVec.ofNat 32 data.length) (data ++ rest)
    have needed : bcread_need data.length (data ++ rest, cs ++ stack) = .ok () (data ++ rest, cs ++ stack) :=
      bcread_need_ok (by simp)
    have start : remaining (data ++ rest, cs ++ stack) = .ok (data.length + rest.length) (data ++ rest, cs ++ stack) := by
      rw [← List.length_append]
      rfl
    have left : remaining (rest, stack) = .ok rest.length (rest, stack) := rfl
    have onStack : getStack (rest, stack) = .ok stack (rest, stack) := rfl
    have stored : setStack (pt :: stack) (rest, stack) = .ok () (rest, pt :: stack) := rfl
    rw [bind_of_ok size, if_neg notZero, isLength, bind_of_ok needed, bind_of_ok start, bind_of_ok (decodes stack rest),
      bind_of_ok left, if_neg (by omega), bind_of_ok onStack, bind_of_ok stored]
    rfl

omit [StrHash] in
theorem protoData_ne_nil (kgc : KGcs) : protoData wctx info kgc ≠ [] := by
  rw [protoData_eq]
  exact List.cons_ne_nil _ _

mutual

/-- The loop reads a prototype behind its children. -/
theorem proto_pushes (depth : Nat) (reads : Reads wctx chunkname ctx) : (pt : GCproto) → pt.Dumpable wctx →
    ∃ pt', Pushes (depth + 1) ctx (bcwrite_proto wctx pt) [pt'] ∧ pt.Loaded wctx chunkname pt'
  | .mk info kgc, dumpable => by
      obtain ⟨cs, pushes, loaded⟩ := children_push depth reads kgc dumpable.2
      obtain ⟨pt', decodes, isLoaded⟩ := proto_decodes depth reads dumpable.1 dumpable.2 loaded
      refine ⟨pt', ?_, isLoaded⟩
      rw [bcwrite_proto]
      apply Pushes.proto (protoData_ne_nil kgc) dumpable.1.size _ decodes
      split
      · exact pushes
      · next noChild =>
          have none := dumpable.1.children (by simpa using noChild)
          rw [none] at loaded
          cases loaded
          exact .nil _

theorem children_push (depth : Nat) (reads : Reads wctx chunkname ctx) : (kgc : KGcs) → kgc.Dumpable wctx →
    ∃ cs, Pushes (depth + 1) ctx (bcwrite_children wctx kgc) cs ∧
      List.Forall₂ (GCproto.Loaded wctx chunkname) kgc.children cs
  | .nil, _ => ⟨[], .nil _, .nil⟩
  | .child pt kgc, dumpable => by
      obtain ⟨pt', first, isLoaded⟩ := proto_pushes depth reads pt dumpable.1
      obtain ⟨cs, rest, loaded⟩ := children_push depth reads kgc dumpable.2
      refine ⟨pt' :: cs, ?_, .cons isLoaded loaded⟩
      rw [bcwrite_children]
      exact rest.append first
  | .tab _ kgc, dumpable => children_push depth reads kgc dumpable.2
  | .cdata _ kgc, dumpable => children_push depth reads kgc dumpable
  | .str _ kgc, dumpable => children_push depth reads kgc dumpable.2

end

/-! ## The round trip -/

omit [StrHash] in
/-- The flags of a dump are read as they are written. -/
theorem dumpFlags_spec : dumpFlags wctx info < 0x80 ∧
    (dumpFlags wctx info).toBitVec.setWidth 32 &&& ~~~(BCDUMP_F_KNOWN.toBitVec.setWidth 32) = 0 ∧
    UInt8.ofBitVec (((dumpFlags wctx info).toBitVec.setWidth 32).setWidth 8) = dumpFlags wctx info ∧
    (dumpFlags wctx info &&& BCDUMP_F_FR2 != 0) = wctx.build.fr2 ∧
    (dumpFlags wctx info &&& BCDUMP_F_STRIP = 0 ↔ wctx.strip = false) ∧
    (dumpFlags wctx info &&& BCDUMP_F_BE != 0) = wctx.build.be := by
  have ffi : (if info.flags &&& PROTO_FFI ≠ 0 then BCDUMP_F_FFI else 0) = BCDUMP_F_FFI ∨
      (if info.flags &&& PROTO_FFI ≠ 0 then BCDUMP_F_FFI else 0) = 0 := by
    split
    · exact .inl rfl
    · exact .inr rfl
  rw [dumpFlags]
  rcases ffi with isFfi | noFfi
  · rw [isFfi]
    cases wctx.strip <;> cases wctx.build.be <;> cases wctx.build.fr2 <;> decide
  · rw [noFfi]
    cases wctx.strip <;> cases wctx.build.be <;> cases wctx.build.fr2 <;> decide

/-- The name of a chunk that is loaded. -/
def chunknameOf (wctx : BCWriteCtx) (chunkarg : GCstr) (info : ProtoInfo) : GCstr :=
  if wctx.strip then chunkarg else info.chunkname

omit [StrHash] in
theorem bcread_need_decodes {len : Nat} {word : GCstr} {a : α} {f : Unit → BcReader BcStack α}
    (enough : len ≤ word.length) (next : Decodes (f ()) word stack a stack) :
    Decodes (bcread_need len >>= f) word stack a stack := by
  intro rest
  have needed : bcread_need len (word ++ rest, stack) = .ok () (word ++ rest, stack) :=
    bcread_need_ok (by simp; omega)
  rw [bind_of_ok needed]
  exact next rest

omit [StrHash] in
theorem header_decodes (build : Build) (chunkarg : GCstr) (fr2 : build.fr2 = wctx.build.fr2)
    (short : info.chunkname.length < 2 ^ 31) :
    ∃ ctx, Reads wctx (chunknameOf wctx chunkarg info) ctx ∧
      Decodes (bcread_header build chunkarg) (bcwrite_header wctx info).tail stack ctx stack := by
  obtain ⟨small, known, same, isFr2, isStrip, isBe⟩ := @dumpFlags_spec info wctx
  refine ⟨{ build, flags := dumpFlags wctx info, chunkname := chunknameOf wctx chunkarg info },
    ⟨isBe, isStrip, rfl⟩, ?_⟩
  have parts : (bcwrite_header wctx info).tail = [BCDUMP_HEAD2] ++ ([BCDUMP_HEAD3] ++ ([BCDUMP_VERSION] ++
      ([dumpFlags wctx info] ++ (if wctx.strip then []
        else lj_strfmt_wuleb128 (.ofNat 32 info.chunkname.length) ++ info.chunkname)))) := rfl
  rw [parts, bcread_header]
  apply (byte_decodes _).bind
  apply (byte_decodes _).bind
  apply (byte_decodes _).bind
  rw [if_neg (by simp)]
  apply (type_decodes _ small).bind
  rw [if_neg (by simp [known])]
  simp only [same, isFr2, fr2, bne_self_eq_false, Bool.false_eq_true, if_false, ne_eq, isStrip, chunknameOf]
  cases strip : wctx.strip with
  | true =>
      simp only [Bool.true_eq_false, not_false_eq_true, if_true]
      exact Decodes.pure
  | false =>
      simp only [not_true_eq_false, if_false, Bool.false_eq_true]
      apply (uleb128_decodes _).bind
      rw [uleb128_small (by omega)]
      exact bcread_need_decodes le_rfl ((mem_decodes rfl).bind_nil Decodes.pure)

/-- A dump that is loaded gives the prototype again, whatever the byte orders of the two builds are:
what `ProtoInfo.loaded` says is not in the dump is lost. -/
theorem bcread_bcwrite (depth : Nat) (wctx : BCWriteCtx) (build : Build) (chunkarg : GCstr) (info : ProtoInfo)
    (kgc : KGcs) (fr2 : build.fr2 = wctx.build.fr2) (dumpable : (GCproto.mk info kgc).Dumpable wctx)
    (short : info.chunkname.length < 2 ^ 31) :
    ∃ pt, lj_bcread (depth + 1) build chunkarg ((lj_bcwrite wctx (.mk info kgc)).tail, []) = .ok pt ([], []) ∧
      (GCproto.mk info kgc).Loaded wctx (chunknameOf wctx chunkarg info) pt := by
  obtain ⟨ctx, reads, header⟩ := @header_decodes [] _ _ build chunkarg fr2 short
  obtain ⟨pt, pushes, loaded⟩ := proto_pushes depth reads (.mk info kgc) dumpable
  obtain ⟨rounds, few, pushes⟩ := pushes
  refine ⟨pt, ?_, loaded⟩
  have input : (lj_bcwrite wctx (.mk info kgc)).tail =
      (bcwrite_header wctx info).tail ++ (bcwrite_proto wctx (.mk info kgc) ++ [0]) := by
    rw [lj_bcwrite, List.append_assoc]
    rfl
  have start : remaining (bcwrite_proto wctx (.mk info kgc) ++ [0], []) =
      .ok ((bcwrite_proto wctx (.mk info kgc)).length + 1) (bcwrite_proto wctx (.mk info kgc) ++ [0], []) := by
    simp [remaining]
  have zero : bcread_uleb128 ([0], [pt]) = .ok 0 ([], [pt]) := by rfl
  have finish (fuel : Nat) : bcread_protos (depth + 1) ctx (fuel + 1) ([0], [pt]) = .ok () ([], [pt]) := by
    rw [bcread_protos, bind_of_ok zero, if_pos rfl]
    rfl
  have loop : bcread_protos (depth + 1) ctx ((bcwrite_proto wctx (.mk info kgc)).length + 1 + 1)
      (bcwrite_proto wctx (.mk info kgc) ++ [0], []) = .ok () ([], [pt]) := by
    have enough : (bcwrite_proto wctx (.mk info kgc)).length + 1 + 1 =
        (bcwrite_proto wctx (.mk info kgc)).length - rounds + 1 + 1 + rounds := by omega
    rw [enough, pushes]
    exact finish _
  have left : remaining ([], [pt]) = .ok 0 ([], [pt]) := rfl
  have onStack : getStack ([], [pt]) = .ok [pt] ([], [pt]) := rfl
  rw [input, lj_bcread, bind_of_ok (header _), bind_of_ok start, bind_of_ok loop, bind_of_ok left, if_neg (by decide),
    bind_of_ok onStack]
  rfl

end

end

/-- A function that returns. -/
def leafInfo : ProtoInfo where
  flags := 0
  numparams := 1
  framesize := 2
  trace := 0
  head := headOf 0 2
  bc := [0x0001004c]
  uv := [0x8000]
  kn := []
  chunkname := [64, 97]
  firstline := 1
  numline := 1
  lineinfo := none

/-- A function with the first one and a string as its constants. -/
def outerInfo : ProtoInfo :=
  { leafInfo with flags := PROTO_CHILD, lineinfo := some { lines := [1], names := [0], uvinfo := 1, varinfo := 1 } }

def outerProto : KGcs := .child (.mk leafInfo .nil) (.str [97] .nil)

theorem bcread_bcwrite_outer :
    ∃ pt, @lj_bcread ⟨fun _ => 0⟩ (0 + 1) ⟨true, true⟩ []
        ((lj_bcwrite ⟨⟨false, true⟩, false, fun _ => 0⟩ (.mk outerInfo outerProto)).tail, []) = .ok pt ([], []) ∧
      @GCproto.Loaded ⟨fun _ => 0⟩ ⟨⟨false, true⟩, false, fun _ => 0⟩
        (chunknameOf ⟨⟨false, true⟩, false, fun _ => 0⟩ [] outerInfo) (.mk outerInfo outerProto) pt := by
  have leaf : Fits ⟨⟨false, true⟩, false, fun _ => 0⟩ leafInfo .nil := by
    refine ⟨by decide, by decide, by decide, by decide, ?_, by simp [leafInfo], fun _ => rfl⟩
    simp [protoData, leafInfo, debugHead, debugPart, bcwrite_bytecode, bcwrite_kgc, bcwrite_knum, KGcs.length,
      lj_strfmt_wuleb128, written, PROTO_ILOOP]
  have outer : Fits ⟨⟨false, true⟩, false, fun _ => 0⟩ outerInfo outerProto := by
    refine ⟨by decide, by decide, by decide, by decide, ?_, ?_, fun noChild => absurd noChild (by decide)⟩
    · simp [protoData, leafInfo, outerInfo, outerProto, debugHead, debugPart, debugBytes, bcwrite_bytecode,
        bcwrite_kgc, bcwrite_knum, KGcs.length, lj_strfmt_wuleb128, written, PROTO_ILOOP, PROTO_CHILD, lineShift,
        BCDUMP_KGC_STR]
      decide
    · simp [outerInfo, leafInfo, lineShift]
  exact @bcread_bcwrite ⟨fun _ => 0⟩ 0 ⟨⟨false, true⟩, false, fun _ => 0⟩ ⟨true, true⟩ [] outerInfo outerProto rfl
    ⟨outer, ⟨leaf, trivial⟩, by decide, trivial⟩ (by decide)

end TvmJit.Dump
