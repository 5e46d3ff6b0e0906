import TvmJit.Parse.Steps

/-! The numbers of a program as the finished prototypes hold them. A number
reaches its instruction through an integer or through a table of constants that
is keyed by value, and is read back when the prototype is built; the only number
that does not survive this is the negative zero. -/

namespace TvmJit

open Foundation

/-! ## What an operand denotes -/

def Num.mzero : Num := 0x8000000000000000

/-- A number as the compiler keeps it. -/
def Num.kept (n : Num) : Num := if n = mzero then 0 else n

/-- The number the interpreter reads from an operand, given the number constants
of the prototype. Slots go to 16 bit fields. -/
def NumOperand.denote (kn : List Num) : NumOperand → Option Num
  | .short d => some (.ofInt (if d < 32768 then d else d - 65536))
  | .slot idx => kn[idx % 65536]?
  | .byte c => some (.ofInt c)
  | .key k => some k.number
  | .value (.num n) => some n
  | .value _ => none

/-- A value of a template table is stored as it is. -/
def NumOperand.isValue : NumOperand → Bool
  | .value _ => true
  | _ => false

/-- What is kept of the number of a use. -/
def NumUse.kept (use : NumUse) : Num :=
  if use.operand.isValue then use.literal else use.literal.kept

/-- Every number of the prototype is read back as it was written, and two of
them share a constant only if they are the same number. -/
def GCproto.KeepsLiterals (pt : GCproto) : Prop :=
  (∀ use ∈ pt.uses, use.operand.denote pt.kn = some use.literal) ∧
    ∀ use ∈ pt.uses, ∀ use' ∈ pt.uses, ∀ idx,
      use.operand = .slot idx → use'.operand = .slot idx → use.literal = use'.literal

/-! ## Numbers read back from integers and keys -/

theorem Num.isZero_of_ne_mzero {n : Num} (zero : n.isZero = true) (notMzero : n ≠ mzero) :
    n = 0 := by
  rcases isZero_iff.mp zero with isZero | isMzero
  · exact isZero
  · exact absurd isMzero notMzero

/-- A number equal to its 32 bit integer is the double of that integer, but for
the sign of zero. -/
theorem Num.ofInt_num2int {n : Num} (integer : n.eq (.ofInt n.num2int) = true) :
    ofInt n.num2int = n.kept := by
  by_cases isMzero : n = mzero
  · subst isMzero
    decide
  rw [kept, if_neg isMzero]
  obtain ⟨-, -, same | ⟨zero, -⟩⟩ := eq_true_iff.mp integer
  · exact same.symm
  · rw [isZero_of_ne_mzero zero isMzero]
    decide

theorem tabKey_number {n : Num} {key : TabKey} (isKey : tabKey (.num n) = .ok key) :
    key.number = n.kept := by
  simp only [tabKey] at isKey
  split at isKey
  · next integer =>
      obtain rfl := Except.ok.inj isKey
      exact Num.ofInt_num2int integer
  · next notInteger =>
      split at isKey
      · cases isKey
      · obtain rfl := Except.ok.inj isKey
        have notMzero : n ≠ Num.mzero := by
          rintro rfl
          exact notInteger (by decide)
        rw [Num.kept, if_neg notMzero]
        rfl

theorem short_signed {k : Int} (fits : checki16 k = true) :
    (if (k % 65536).toNat < 32768 then ((k % 65536).toNat : Int)
      else (k % 65536).toNat - 65536) = k := by
  simp only [checki16, Bool.and_eq_true, decide_eq_true_eq] at fits
  split <;> omega

/-! ## The table of constants -/

/-- The key of a number constant. -/
def TabKey.isNumber : TabKey → Bool
  | .obj _ => false
  | _ => true

theorem tabKey_isNumber {n : Num} {key : TabKey} (isKey : tabKey (.num n) = .ok key) :
    key.isNumber = true := by
  simp only [tabKey] at isKey
  split at isKey
  · obtain rfl := Except.ok.inj isKey
    rfl
  · split at isKey
    · cases isKey
    · obtain rfl := Except.ok.inj isKey
      rfl

/-- The number slots are handed out in order, each to one key. -/
structure Consts.Ok (consts : Consts) : Prop where
  bounded : ∀ entry ∈ consts.kt, entry.1.isNumber = true → entry.2 < consts.nkn
  distinct : ∀ entry ∈ consts.kt, ∀ entry' ∈ consts.kt, entry.1.isNumber = true →
    entry'.1.isNumber = true → entry.2 = entry'.2 → entry.1 = entry'.1

theorem Consts.Ok.new {consts consts' : Consts} (ok : consts.Ok) (new : NewConst consts consts') :
    consts'.Ok := by
  cases new with
  | @number key n numeric fresh =>
      constructor
      · intro entry member isNumber
        rcases List.mem_cons.mp member with rfl | member
        · exact Nat.lt_succ_self _
        · exact Nat.lt_succ_of_lt (ok.bounded entry member isNumber)
      · intro entry member entry' member' isNumber isNumber' same
        rcases List.mem_cons.mp member with rfl | member <;>
          rcases List.mem_cons.mp member' with rfl | member'
        · rfl
        · exact absurd same.symm (ok.bounded entry' member' isNumber').ne
        · exact absurd same (ok.bounded entry member isNumber).ne
        · exact ok.distinct entry member entry' member' isNumber isNumber' same
  | object o fresh =>
      constructor
      · intro entry member isNumber
        rcases List.mem_cons.mp member with rfl | member
        · cases isNumber
        · exact ok.bounded entry member isNumber
      · intro entry member entry' member' isNumber isNumber' same
        rcases List.mem_cons.mp member with rfl | member
        · cases isNumber
        rcases List.mem_cons.mp member' with rfl | member'
        · cases isNumber'
        · exact ok.distinct entry member entry' member' isNumber isNumber' same

theorem NewConst.grows {consts consts' : Consts} (new : NewConst consts consts') :
    ∀ entry ∈ consts.kt, entry ∈ consts'.kt := by
  cases new <;> exact fun _ member => .tail _ member

theorem NumUse.Grounded.grow {consts consts' : Consts} {use : NumUse}
    (grounded : use.Grounded consts) (grows : ∀ entry ∈ consts.kt, entry ∈ consts'.kt) :
    use.Grounded consts' := by
  unfold NumUse.Grounded at *
  cases operand : use.operand with
  | slot idx =>
      rw [operand] at grounded
      obtain ⟨key, isKey, member⟩ := grounded
      exact ⟨key, isKey, grows _ member⟩
  | _ =>
      rw [operand] at grounded
      exact grounded

/-- `fs_fixup_k` reads back the number of the key that owns the slot. -/
theorem Consts.fixupKn_slot {consts : Consts} (ok : consts.Ok) {key : TabKey} {idx : Nat}
    (member : (key, idx) ∈ consts.kt) (isNumber : key.isNumber = true) :
    consts.fixupKn[idx]? = some key.number := by
  have bound : idx < consts.nkn := ok.bounded _ member isNumber
  let owns (entry : TabKey × Nat) : Bool := entry.2 == idx && entry.1.isNumber
  have same : consts.fixupKn[idx]? =
      some (((consts.kt.find? owns).map fun entry => entry.1.number).getD 0) := by
    rw [fixupKn, List.getElem?_map, List.getElem?_range bound]
    simp only [Option.map_some, owns]
    congr 4
  have found : (consts.kt.find? owns).isSome := by
    rw [List.find?_isSome]
    exact ⟨_, member, by simp [owns, isNumber]⟩
  obtain ⟨entry, entry_eq⟩ := Option.isSome_iff_exists.mp found
  have owned : entry.2 = idx ∧ entry.1.isNumber = true := by
    simpa [owns] using List.find?_some entry_eq
  have sameKey : entry.1 = key :=
    ok.distinct entry (List.mem_of_find?_eq_some entry_eq) _ member owned.2 isNumber owned.1
  rw [same, entry_eq, ← sameKey]
  rfl

/-- Once the constants fit their 16 bit field, an operand denotes what is kept of
its number. -/
theorem NumUse.Grounded.denote {consts : Consts} {use : NumUse} (grounded : use.Grounded consts)
    (ok : consts.Ok) (fits : consts.nkn ≤ BCMAX_D + 1) :
    use.operand.denote consts.fixupKn = some use.kept := by
  obtain ⟨literal, operand⟩ := use
  cases operand <;> simp only [NumUse.Grounded] at grounded
  case short d =>
      obtain ⟨small, integer, rfl⟩ := grounded
      simp only [NumOperand.denote, short_signed small, Num.ofInt_num2int integer]
      rfl
  case slot idx =>
      obtain ⟨key, isKey, member⟩ := grounded
      have isNumber := tabKey_isNumber isKey
      have bound : idx < 65536 := (ok.bounded _ member isNumber).trans_le fits
      simp only [NumOperand.denote, Nat.mod_eq_of_lt bound]
      rw [Consts.fixupKn_slot ok member isNumber, tabKey_number isKey]
      rfl
  case byte c =>
      obtain ⟨small, integer, rfl⟩ := grounded
      have nonneg : 0 ≤ literal.num2int := by
        simp only [checku8, Bool.and_eq_true, decide_eq_true_eq] at small
        exact small.1
      simp only [NumOperand.denote, Int.toNat_of_nonneg nonneg, Num.ofInt_num2int integer]
      rfl
  case key key =>
      simp only [NumOperand.denote, tabKey_number grounded]
      rfl
  case value value =>
      rw [grounded]
      rfl

/-! ## Every state of a compilation -/

/-- The numbers a function has used so far are grounded in its constants. -/
structure FuncState.Ok (fs : FuncState) : Prop where
  consts : fs.consts.Ok
  uses : ∀ use ∈ fs.uses, use.Grounded fs.consts

/-- The prototype reads back what was kept of its numbers. -/
def GCproto.Reads (pt : GCproto) : Prop :=
  ∀ use ∈ pt.uses, use.operand.denote pt.kn = some use.kept

structure LexState.Ok (ls : LexState) : Prop where
  fs : ls.fs.Ok
  prev : ∀ fs ∈ ls.prev, fs.Ok
  protos : ∀ pt ∈ ls.protos, pt.Reads

theorem FuncState.Ok.fresh (vbase bcofs : Nat) (line : BCLine) : (FuncState.fresh vbase bcofs line).Ok where
  consts := ⟨fun _ member => (by cases member), fun _ member => (by cases member)⟩
  uses _ member := by cases member

theorem FuncState.Ok.captures {fs fs' : FuncState} (ok : fs.Ok) (captures : fs.Captures fs') :
    fs'.Ok := by
  obtain ⟨bl, uvmap, uvtmp, rfl⟩ := captures
  exact ⟨ok.consts, ok.uses⟩

theorem FuncState.Ok.allCaptures {prev prev' : List FuncState} (ok : ∀ fs ∈ prev, fs.Ok)
    (captures : List.Forall₂ FuncState.Captures prev prev') : ∀ fs ∈ prev', fs.Ok := by
  induction captures with
  | nil => exact ok
  | cons head _ induction =>
      intro fs member
      rcases List.mem_cons.mp member with rfl | member
      · exact (ok _ (.head _)).captures head
      · exact induction (fun fs member => ok fs (.tail _ member)) fs member

theorem FuncState.Ok.newConst {fs : FuncState} {consts : Consts} (ok : fs.Ok)
    (new : NewConst fs.consts consts) : ({ fs with consts := consts } : FuncState).Ok where
  consts := ok.consts.new new
  uses use member := (ok.uses use member).grow new.grows

theorem FuncState.Ok.newUse {fs : FuncState} {use : NumUse} (ok : fs.Ok)
    (grounded : use.Grounded fs.consts) : ({ fs with uses := use :: fs.uses } : FuncState).Ok where
  consts := ok.consts
  uses use' member := by
    rcases List.mem_cons.mp member with rfl | member
    · exact grounded
    · exact ok.uses use' member

/-- The prototype of a function reads back its numbers. -/
theorem LexState.Ok.toProto {ls : LexState} (ok : ls.Ok) (numline : BCLine)
    (fits : ls.fs.consts.nkn ≤ BCMAX_D + 1) : (ls.toProto numline).Reads :=
  fun use member => (ok.fs.uses use member).denote ok.fs.consts fits

/-- Fixing up the upvalues of the children leaves their numbers alone. -/
theorem LexState.Ok.fixupChildren {ls : LexState} (ok : ls.Ok) :
    ∀ pt ∈ ls.fixupChildren, pt.Reads := by
  intro pt member
  obtain ⟨id, inside, rfl⟩ := List.mem_mapIdx.mp member
  have reads : (ls.protos[id]).Reads := ok.protos _ (List.getElem_mem inside)
  split
  · exact reads
  · exact reads

theorem LexState.Ok.finish {ls : LexState} (ok : ls.Ok) (numline : BCLine)
    (fits : ls.fs.consts.nkn ≤ BCMAX_D + 1) : (ls.popFunction (ls.toProto numline)).Ok where
  fs := by
    change (ls.prev.headD ls.fs).Ok
    cases rest : ls.prev with
    | nil => exact ok.fs
    | cons fs prev => exact ok.prev fs (by rw [rest]; exact .head _)
  prev fs member := ok.prev fs (List.mem_of_mem_tail member)
  protos pt member := by
    rcases List.mem_append.mp member with member | member
    · exact ok.fixupChildren pt member
    · rw [List.mem_singleton.mp member]
      exact ok.toProto numline fits

theorem Step.ok {ls ls' : LexState} (step : Step ls ls') (ok : ls.Ok) : ls'.Ok := by
  cases step with
  | token =>
      unfold LexState.next
      split <;> exact ⟨ok.fs, ok.prev, ok.protos⟩
  | const new => exact ⟨ok.fs.newConst new, ok.prev, ok.protos⟩
  | use grounded => exact ⟨ok.fs.newUse grounded, ok.prev, ok.protos⟩
  | capture captures outer =>
      exact ⟨ok.fs.captures captures, FuncState.Ok.allCaptures ok.prev outer, ok.protos⟩
  | enter line =>
      refine ⟨.fresh _ _ _, fun fs member => ?_, ok.protos⟩
      rcases List.mem_cons.mp member with rfl | member
      · exact ok.fs
      · exact ok.prev fs member
  | finish numline fits => exact ok.finish numline fits
  | _ => exact ⟨⟨ok.fs.consts, ok.fs.uses⟩, ok.prev, ok.protos⟩

theorem ParseStep.ok {s s' : ParseState} (step : ParseStep s s') (ok : s.ls.Ok) : s'.ls.Ok := by
  cases step with
  | emit step => exact step.ok ok
  | consume consumed => exact ok
  | level level => exact ⟨ok.fs, ok.prev, ok.protos⟩

theorem LexState.start_ok (chunkname : GCstr) (items : List LexItem) :
    (start chunkname items).Ok where
  fs := ⟨(FuncState.Ok.fresh 0 0 0).consts, (FuncState.Ok.fresh 0 0 0).uses⟩
  prev _ member := by cases member
  protos _ member := by cases member

/-- The prototypes a compilation has finished when it ends, with or without an
error. -/
def finishedProtos [Vm] (chunkname : GCstr) (items : List LexItem) : List GCproto :=
  (finalState (ljParse chunkname items)).ls.protos

theorem finishedProtos_read [Vm] (chunkname : GCstr) (items : List LexItem) :
    ∀ pt ∈ finishedProtos chunkname items, pt.Reads :=
  (parseMain_moves.invariant
    (fun _ _ step (ok : LexState.Ok _) => step.ok ok) (LexState.start_ok chunkname items)).protos

/-! ## The literals that survive -/

theorem NumUse.kept_eq_iff (use : NumUse) :
    use.kept = use.literal ↔ (use.literal = Num.mzero → use.operand.isValue = true) := by
  unfold kept
  split
  · next isValue => simp [isValue]
  · next notValue =>
      by_cases isMzero : use.literal = Num.mzero
      · simp [Num.kept, isMzero, notValue, Num.mzero]
      · simp [Num.kept, isMzero]

theorem GCproto.Reads.kept_iff {pt : GCproto} (reads : pt.Reads) :
    pt.KeepsLiterals ↔
      ∀ use ∈ pt.uses, use.literal = Num.mzero → use.operand.isValue = true := by
  constructor
  · intro keeps use member
    have same := keeps.1 use member
    rw [reads use member] at same
    exact use.kept_eq_iff.mp (Option.some.inj same)
  · intro noMzero
    have readBack : ∀ use ∈ pt.uses, use.operand.denote pt.kn = some use.literal := by
      intro use member
      rw [reads use member, use.kept_eq_iff.mpr (noMzero use member)]
    refine ⟨readBack, fun use member use' member' idx slot slot' => ?_⟩
    have left := readBack use member
    have right := readBack use' member'
    rw [slot] at left
    rw [slot'] at right
    exact Option.some.inj (left.symm.trans right)

end TvmJit
