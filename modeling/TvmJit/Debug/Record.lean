import TvmJit.Literals

/-! The debug information of a prototype: what the compiler recorded about the
function and the bytes and cells that encode it. -/

namespace TvmJit

open Foundation

def GCproto.sizebc (pt : GCproto) : Nat := pt.bc.length

/-- The bytes of a name. -/
def VarName.bytes : VarName → GCstr
  | .str s => s ++ [0]
  | .small n => [UInt8.ofNat n]

/-- The entries of local variables, the last one before them starting at
`lastpc`. -/
def encodeVars : BitVec 32 → List LocVar → GCstr
  | _, [] => [0]
  | lastpc, v :: vars =>
      v.name.bytes ++ wuleb128 (v.startpc - lastpc).toNat ++ wuleb128 (v.endpc - v.startpc).toNat ++
        encodeVars v.startpc vars

/-- The cells of the lines: each relative to the first line and cut to the width
of a cell. -/
def encodeLine (first numline line : BCLine) : Nat :=
  let width : Int := if numline < 256 then 256 else if numline < 65536 then 65536 else 4294967296
  ((line - first) % width).toNat

/-- The debug information is the one of the record. -/
structure GCproto.Encoded (pt : GCproto) : Prop where
  sizebc : pt.sizebc = pt.record.lines.length + 1
  lineinfo : pt.lineinfo = pt.record.lines.map (encodeLine pt.firstline pt.numline)
  varinfo : pt.varinfo = encodeVars 0 pt.record.vars
  uvinfo : pt.uvinfo = pt.record.uvnames.flatMap (· ++ [0])

theorem u32_sub (a b : Nat) : u32 ((a : Int) - b) = (BitVec.ofNat 32 a - BitVec.ofNat 32 b).toNat := by
  rw [BitVec.toNat_sub, BitVec.toNat_ofNat, BitVec.toNat_ofNat, u32]
  omega

theorem varinfoFrom_eq (vstack : Nat → VarInfo) (lastpc : BCPos) (idxs : List VarIndex) :
    varinfoFrom vstack lastpc idxs =
      encodeVars (.ofNat 32 lastpc) (idxs.filterMap fun idx =>
        let v := vstack idx
        if v.isgoto ∨ v.islabel then none
        else some ⟨v.name, v.slot, .ofNat 32 v.startpc, .ofNat 32 v.endpc⟩) := by
  induction idxs generalizing lastpc with
  | nil => rfl
  | cons idx idxs induction =>
      rw [varinfoFrom]
      by_cases isGola : (vstack idx).isgoto = true ∨ (vstack idx).islabel = true
      · simp only [isGola, if_true, List.filterMap_cons, induction]
      · simp only [isGola, if_false, List.filterMap_cons, induction, encodeVars, u32_sub]
        cases (vstack idx).name <;> rfl

theorem LexState.toProto_encoded (ls : LexState) (numline : BCLine) :
    (ls.toProto numline).Encoded where
  sizebc := by
    simp [GCproto.sizebc, toProto, FuncState.fixupBc, debugRecord]
  lineinfo := by
    simp [toProto, FuncState.fixupLine, debugRecord, encodeLine]
  varinfo := varinfoFrom_eq ls.vstack 0 _
  uvinfo := by
    change ls.prepUvinfo = ls.debugRecord.uvnames.flatMap _
    unfold prepUvinfo debugRecord
    rw [List.flatMap_map]
    congr 1
    funext vidx
    cases (ls.vstack vidx).name <;> rfl

/-! ## Every prototype of a compilation -/

theorem fsFixupUv2_encoded {vstack : Nat → VarInfo} {pt : GCproto} (encoded : pt.Encoded) :
    (fsFixupUv2 vstack pt).Encoded :=
  ⟨encoded.sizebc, encoded.lineinfo, encoded.varinfo, encoded.uvinfo⟩

/-- The prototypes finished so far have the debug information of their records. -/
def LexState.Encoded (ls : LexState) : Prop := ∀ pt ∈ ls.protos, pt.Encoded

theorem Step.encoded {ls ls' : LexState} (step : Step ls ls') (encoded : ls.Encoded) :
    ls'.Encoded := by
  cases step with
  | token =>
      unfold LexState.next
      split <;> exact encoded
  | finish numline small =>
      intro pt member
      rcases List.mem_append.mp member with child | new
      · obtain ⟨id, inside, rfl⟩ := List.mem_mapIdx.mp child
        have before : (ls.protos[id]).Encoded := encoded _ (List.getElem_mem inside)
        split
        · exact fsFixupUv2_encoded before
        · exact before
      · rw [List.mem_singleton.mp new]
        exact ls.toProto_encoded numline
  | _ => exact encoded

theorem ParseStep.encoded {s s' : ParseState} (step : ParseStep s s') (encoded : s.ls.Encoded) :
    s'.ls.Encoded := by
  cases step with
  | emit step => exact step.encoded encoded
  | consume consumed => exact encoded
  | level level => exact encoded

theorem finishedProtos_encoded [Vm] (chunkname : GCstr) (items : List LexItem) :
    ∀ pt ∈ finishedProtos chunkname items, pt.Encoded := by
  have start : (LexState.start chunkname items).Encoded := fun pt member => nomatch member
  exact parseMain_moves.invariant
    (fun _ _ step (encoded : LexState.Encoded _) => step.encoded encoded) start

end TvmJit
