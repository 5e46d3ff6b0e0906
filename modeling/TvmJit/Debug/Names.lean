import TvmJit.Debug.Record
import Mathlib.Tactic.Ring
import Mathlib.Tactic.GCongr

/-! The names of local variables and upvalues, as `lj_debug.c` reads them. -/

namespace TvmJit

/-! ## Reading the names -/

/-- The part of `lj_buf_ruleb128` after a first byte that is not the last:
the bits so far, the shift of the last ones and the bytes. -/
def ruleb128Loop : Nat → Nat → GCstr → Nat × GCstr
  | v, _, [] => (v, [])
  | v, sh, b :: p =>
      let v := v ||| (b.toNat &&& 0x7f) <<< (sh + 7) % 2 ^ 32
      if b.toNat ≥ 0x80 then ruleb128Loop v (sh + 7) p else (v, p)

/-- `lj_buf_ruleb128`: the number at a pointer and the pointer behind it. -/
def ljBufRuleb128 : GCstr → Nat × GCstr
  | [] => (0, [])
  | b :: p => if b.toNat ≥ 0x80 then ruleb128Loop (b.toNat &&& 0x7f) 0 p else (b.toNat, p)

/-- `VARNAMEDEF`: the names of hidden variables, by their codes from 1 on. -/
def varnames : List GCstr :=
  ["(for index)", "(for limit)", "(for step)", "(for generator)", "(for state)",
    "(for control)"].map .ofString

def VARNAME_MAX : Nat := 7

/-- The loop of `debug_varname`. Every entry takes a byte at least, so there are
no more rounds than bytes. -/
def debugVarnameFrom (pc : BitVec 32) : Nat → BitVec 32 → GCstr → Nat → Option GCstr
  | 0, _, _, _ => none
  | _, _, [], _ => none
  | fuel + 1, lastpc, vn :: p, slot =>
      if vn = 0 then none  -- End of varinfo.
      else
        let hidden := vn.toNat < VARNAME_MAX
        let name := if hidden then varnames.getD (vn.toNat - 1) [] else vn :: p.takeWhile (· != 0)
        let p := if hidden then p else (p.dropWhile (· != 0)).tail  -- Skip over variable name.
        let (delta, p) := ljBufRuleb128 p
        let startpc := lastpc + .ofNat 32 delta
        if startpc > pc then none
        else
          let (range, p) := ljBufRuleb128 p
          let endpc := startpc + .ofNat 32 range
          if pc < endpc then
            if slot = 0 then some name else debugVarnameFrom pc fuel startpc p (slot - 1)
          else debugVarnameFrom pc fuel startpc p slot

/-- `debug_varname`. -/
def debugVarname (pt : GCproto) (pc : BitVec 32) (slot : Nat) : Option GCstr :=
  debugVarnameFrom pc pt.varinfo.length 0 pt.varinfo slot

/-- The pointer behind the next `idx` zero bytes. -/
def skipNames : Nat → GCstr → GCstr
  | 0, p => p
  | _, [] => []
  | idx + 1, b :: p => if b ≠ 0 then skipNames (idx + 1) p else skipNames idx p

/-- `lj_debug_uvname`. -/
def ljDebugUvname (pt : GCproto) (idx : Nat) : GCstr :=
  (skipNames idx pt.uvinfo).takeWhile (· != 0)

/-! ## Numbers in the byte stream -/

theorem or_shiftLeft {acc bits k : Nat} (small : acc < 2 ^ k) (fits : acc + bits * 2 ^ k < 2 ^ 32) :
    acc ||| bits <<< k % 2 ^ 32 = acc + bits * 2 ^ k := by
  have noOverflow : bits * 2 ^ k < 2 ^ 32 := by omega
  rw [Nat.shiftLeft_eq, Nat.mod_eq_of_lt noOverflow, Nat.or_comm,
    or_eq_add k (Nat.dvd_mul_left _ _) small, Nat.add_comm]

theorem ruleb128Loop_wuleb128 (u : Nat) (rest : GCstr) {acc sh : Nat} (small : acc < 2 ^ (sh + 7))
    (fits : acc + u * 2 ^ (sh + 7) < 2 ^ 32) :
    ruleb128Loop acc sh (wuleb128 u ++ rest) = (acc + u * 2 ^ (sh + 7), rest) := by
  induction u using wuleb128.induct generalizing acc sh with
  | case1 u last =>
      have byte : (UInt8.ofNat u).toNat = u := by
        rw [UInt8.toNat_ofNat']; omega
      have bits : u &&& 0x7f = u := by
        rw [Nat.and_two_pow_sub_one_eq_mod u 7]; omega
      rw [wuleb128, if_pos last, List.singleton_append, ruleb128Loop, byte, bits,
        or_shiftLeft small fits, if_neg (by omega)]
  | case2 u more induction =>
      have byte : (UInt8.ofNat (u % 128 + 128)).toNat = u % 128 + 128 := by
        rw [UInt8.toNat_ofNat']; omega
      have bits : (u % 128 + 128) &&& 0x7f = u % 128 := by
        rw [Nat.and_two_pow_sub_one_eq_mod _ 7]; omega
      have split : u % 128 * 2 ^ (sh + 7) + u / 128 * 2 ^ (sh + 7 + 7) = u * 2 ^ (sh + 7) := by
        rw [Nat.pow_add 2 (sh + 7) 7]
        conv_rhs => rw [← Nat.mod_add_div u 128]
        ring
      have step : u % 128 * 2 ^ (sh + 7) ≤ 127 * 2 ^ (sh + 7) := by gcongr; omega
      have wide : 2 ^ (sh + 7 + 7) = 128 * 2 ^ (sh + 7) := by rw [Nat.pow_add]; ring
      have low : acc + u % 128 * 2 ^ (sh + 7) < 2 ^ 32 := by omega
      rw [wuleb128, if_neg more, List.cons_append, ruleb128Loop, byte, bits,
        or_shiftLeft small low, if_pos (by omega), induction (by omega) (by omega), Nat.add_assoc,
        split]

theorem ljBufRuleb128_wuleb128 (v : BitVec 32) (rest : GCstr) :
    ljBufRuleb128 (wuleb128 v.toNat ++ rest) = (v.toNat, rest) := by
  have bound := v.isLt
  generalize v.toNat = u at bound
  rw [wuleb128]
  by_cases last : u < 128
  · have byte : (UInt8.ofNat u).toNat = u := by
      rw [UInt8.toNat_ofNat']; omega
    rw [if_pos last, List.singleton_append, ljBufRuleb128, byte, if_neg (by omega)]
  · have byte : (UInt8.ofNat (u % 128 + 128)).toNat = u % 128 + 128 := by
      rw [UInt8.toNat_ofNat']; omega
    have bits : (u % 128 + 128) &&& 0x7f = u % 128 := by
      rw [Nat.and_two_pow_sub_one_eq_mod _ 7]; omega
    have whole : u % 128 + u / 128 * 2 ^ 7 = u := by omega
    rw [if_neg last, List.cons_append, ljBufRuleb128, byte, bits, if_pos (by omega),
      ruleb128Loop_wuleb128 _ _ (by omega) (by omega), whole]

/-! ## What the names should be -/

/-- The name of a variable, as it is shown. -/
def VarName.display : VarName → GCstr
  | .str s => s
  | .small n => if n = 0 then [] else varnames.getD (n - 1) []

/-- A name that reads as one: neither empty nor starting like a hidden variable,
and without a zero byte. -/
def PlainName : GCstr → Prop
  | [] => False
  | b :: s => VARNAME_MAX ≤ b.toNat ∧ 0 ∉ s

instance : DecidablePred PlainName
  | [] => inferInstanceAs (Decidable False)
  | _ :: _ => inferInstanceAs (Decidable (_ ∧ _))

def LocVar.Plain (v : LocVar) : Prop := PlainName v.name.display

def LocVar.ActiveAt (pc : BitVec 32) (v : LocVar) : Prop := v.startpc ≤ pc ∧ pc < v.endpc

instance (pc : BitVec 32) : DecidablePred (LocVar.ActiveAt pc) := fun _ =>
  inferInstanceAs (Decidable (_ ∧ _))

def activeAt (pc : BitVec 32) (vars : List LocVar) : List LocVar := vars.filter (LocVar.ActiveAt pc)

def namesOf (vars : List LocVar) : List GCstr := vars.map (·.name.display)

/-- The names of the local variables active at `pc`, in the order of their
slots. -/
def DebugRecord.activeNames (record : DebugRecord) (pc : BitVec 32) : List GCstr :=
  namesOf ((activeAt pc record.vars).mergeSort (·.slot ≤ ·.slot))

/-- No variable that becomes active stands behind one that starts later. -/
def StartsOrdered (vars : List LocVar) : Prop :=
  vars.Pairwise fun v w => w.startpc < w.endpc → v.startpc ≤ w.startpc

/-- The variables active at one position stand in the order of their slots, as
far as their names tell. -/
def SlotsOrdered (record : DebugRecord) : Prop :=
  ∀ pc, namesOf (activeAt pc record.vars) = record.activeNames pc

/-! ## The search for a local variable -/

/-- The active variables the search meets before it gives up. -/
def searched (pc : BitVec 32) (vars : List LocVar) : List LocVar :=
  (vars.takeWhile (·.startpc ≤ pc)).filter (pc < ·.endpc)

theorem PlainName.ne_zero {s : GCstr} (plain : PlainName s) : ∀ b ∈ s, b ≠ 0 := by
  cases s with
  | nil => cases plain
  | cons first s =>
      intro b member isZero
      rw [isZero] at member
      rcases List.mem_cons.mp member with isFirst | inside
      · have low := plain.1
        rw [← isFirst] at low
        exact absurd low (by decide)
      · exact plain.2 inside

theorem takeWhile_name {s : GCstr} (noZero : ∀ b ∈ s, b ≠ 0) (rest : GCstr) :
    (s ++ 0 :: rest).takeWhile (· != 0) = s ∧ (s ++ 0 :: rest).dropWhile (· != 0) = 0 :: rest := by
  induction s with
  | nil => exact ⟨rfl, rfl⟩
  | cons b s induction =>
      have step : (b != 0) = true := by simpa using noZero b (.head _)
      have ⟨name, behind⟩ := induction fun b member => noZero b (.tail _ member)
      rw [List.cons_append, List.takeWhile_cons, List.dropWhile_cons, if_pos step, if_pos step, name,
        behind]
      exact ⟨rfl, rfl⟩

theorem VarName.small_of_plain {n : Nat} (plain : PlainName (VarName.small n).display) :
    0 < n ∧ n < VARNAME_MAX := by
  by_contra outside
  have empty : (VarName.small n).display = [] := by
    by_cases isZero : n = 0
    · rw [isZero]; rfl
    · have large : varnames.length ≤ n - 1 := by
        change 6 ≤ n - 1
        unfold VARNAME_MAX at outside
        omega
      rw [VarName.display, if_neg isZero, List.getD_eq_getElem?_getD, List.getElem?_eq_none large]
      rfl
  rw [empty] at plain
  exact plain

/-- The search behind the name of an entry. -/
theorem debugVarnameFrom_cons (pc : BitVec 32) (fuel : Nat) (lastpc : BitVec 32) (vn : UInt8)
    (p : GCstr) (slot : Nat) (inside : vn ≠ 0) (name behind : GCstr)
    (isName : (if vn.toNat < VARNAME_MAX then varnames.getD (vn.toNat - 1) []
      else vn :: p.takeWhile (· != 0)) = name)
    (isBehind : (if vn.toNat < VARNAME_MAX then p else (p.dropWhile (· != 0)).tail) = behind) :
    debugVarnameFrom pc (fuel + 1) lastpc (vn :: p) slot =
      let (delta, p) := ljBufRuleb128 behind
      let startpc := lastpc + .ofNat 32 delta
      if startpc > pc then none
      else
        let (range, p) := ljBufRuleb128 p
        let endpc := startpc + .ofNat 32 range
        if pc < endpc then
          if slot = 0 then some name else debugVarnameFrom pc fuel startpc p (slot - 1)
        else debugVarnameFrom pc fuel startpc p slot := by
  subst isName isBehind
  rw [debugVarnameFrom, if_neg inside]

theorem add_ofNat_sub (a b : BitVec 32) : a + .ofNat 32 (b - a).toNat = b := by
  rw [BitVec.ofNat_toNat, BitVec.setWidth_eq, BitVec.add_comm, BitVec.sub_add_cancel]

/-- A plain name is read back. -/
theorem readName {name : VarName} (plain : PlainName name.display) (behind : GCstr) :
    ∃ vn p, name.bytes ++ behind = vn :: p ∧ vn ≠ 0 ∧
      (if vn.toNat < VARNAME_MAX then varnames.getD (vn.toNat - 1) []
        else vn :: p.takeWhile (· != 0)) = name.display ∧
      (if vn.toNat < VARNAME_MAX then p else (p.dropWhile (· != 0)).tail) = behind := by
  cases name with
  | small n =>
      obtain ⟨low, high⟩ := VarName.small_of_plain plain
      have byte : (UInt8.ofNat n).toNat = n := by
        unfold VARNAME_MAX at high
        rw [UInt8.toNat_ofNat']; omega
      refine ⟨.ofNat n, behind, rfl, fun isZero => ?_, ?_, ?_⟩
      · rw [isZero] at byte
        exact low.ne byte
      · rw [byte, if_pos high, VarName.display, if_neg (by omega)]
      · rw [byte, if_pos high]
  | str s =>
      cases s with
      | nil => cases plain
      | cons b s =>
          have noZero := plain.ne_zero
          obtain ⟨nameRead, rest⟩ := takeWhile_name (fun b member => noZero b (.tail _ member)) behind
          have visible : ¬b.toNat < VARNAME_MAX := Nat.not_lt.mpr plain.1
          refine ⟨b, s ++ 0 :: behind, ?_, noZero b (.head _), ?_, ?_⟩
          · simp [VarName.bytes]
          · rw [if_neg visible, nameRead]
            rfl
          · rw [if_neg visible, rest]
            rfl

/-- One entry of the stream. -/
theorem debugVarnameFrom_entry (pc : BitVec 32) (fuel : Nat) (lastpc : BitVec 32) {v : LocVar}
    (plain : v.Plain) (rest : GCstr) (slot : Nat) :
    debugVarnameFrom pc (fuel + 1) lastpc
        (v.name.bytes ++ wuleb128 (v.startpc - lastpc).toNat ++
          wuleb128 (v.endpc - v.startpc).toNat ++ rest) slot =
      if v.startpc > pc then none
      else if pc < v.endpc then
        if slot = 0 then some v.name.display
        else debugVarnameFrom pc fuel v.startpc rest (slot - 1)
      else debugVarnameFrom pc fuel v.startpc rest slot := by
  have ⟨vn, p, bytes, inside, isName, isBehind⟩ := readName plain
    (wuleb128 (v.startpc - lastpc).toNat ++ (wuleb128 (v.endpc - v.startpc).toNat ++ rest))
  rw [List.append_assoc, List.append_assoc, bytes,
    debugVarnameFrom_cons pc fuel lastpc vn p slot inside _ _ isName isBehind]
  simp only [ljBufRuleb128_wuleb128, add_ofNat_sub]

theorem searched_cons (pc : BitVec 32) (v : LocVar) (vars : List LocVar) :
    searched pc (v :: vars) =
      if v.startpc > pc then []
      else if pc < v.endpc then v :: searched pc vars
      else searched pc vars := by
  unfold searched
  by_cases late : v.startpc > pc
  · rw [if_pos late, List.takeWhile_cons, if_neg (by simpa using late), List.filter_nil]
  · rw [if_neg late, List.takeWhile_cons, if_pos (by simpa using late), List.filter_cons]
    simp only [decide_eq_true_eq]

/-- The search finds the variables up to the first that starts behind `pc`. -/
theorem debugVarnameFrom_encodeVars (pc : BitVec 32) {vars : List LocVar}
    (plain : ∀ v ∈ vars, v.Plain) (fuel : Nat) (lastpc : BitVec 32) (slot : Nat)
    (enough : vars.length < fuel) :
    debugVarnameFrom pc fuel lastpc (encodeVars lastpc vars) slot =
      (namesOf (searched pc vars))[slot]? := by
  induction vars generalizing fuel lastpc slot with
  | nil =>
      cases fuel with
      | zero => cases enough
      | succ fuel => rfl
  | cons v vars induction =>
      cases fuel with
      | zero => cases enough
      | succ fuel =>
          have rest := fun slot => induction (fun w member => plain w (.tail _ member)) fuel v.startpc
            slot (Nat.lt_of_succ_lt_succ enough)
          rw [encodeVars, debugVarnameFrom_entry pc fuel lastpc (plain v (.head _)), searched_cons,
            rest, rest]
          by_cases late : v.startpc > pc
          · rw [if_pos late, if_pos late]
            rfl
          · rw [if_neg late, if_neg late]
            by_cases active : pc < v.endpc
            · rw [if_pos active, if_pos active]
              cases slot <;> rfl
            · rw [if_neg active, if_neg active]

theorem length_lt_encodeVars (lastpc : BitVec 32) (vars : List LocVar) :
    vars.length < (encodeVars lastpc vars).length := by
  induction vars generalizing lastpc with
  | nil => exact Nat.zero_lt_one
  | cons v vars induction =>
      have rest := induction v.startpc
      have nonempty : 0 < v.name.bytes.length := by
        cases v.name <;> simp [VarName.bytes]
      simp only [encodeVars, List.length_append, List.length_cons]
      omega

theorem debugVarname_eq {pt : GCproto} (encoded : pt.Encoded)
    (plain : ∀ v ∈ pt.record.vars, v.Plain) (pc : BitVec 32) (slot : Nat) :
    debugVarname pt pc slot = (namesOf (searched pc pt.record.vars))[slot]? := by
  unfold debugVarname
  rw [encoded.varinfo]
  exact debugVarnameFrom_encodeVars pc plain _ 0 slot (length_lt_encodeVars 0 _)

/-! ## What the search finds is plain -/

theorem varnames_plain {code : Nat} (low : 0 < code) (high : code < VARNAME_MAX) :
    PlainName (varnames.getD (code - 1) []) := by
  have all : ∀ i < 6, PlainName (varnames.getD i []) := by decide +kernel
  exact all (code - 1) (by unfold VARNAME_MAX at high; omega)

theorem entryName_plain {vn : UInt8} (inside : vn ≠ 0) (p : GCstr) :
    PlainName (if vn.toNat < VARNAME_MAX then varnames.getD (vn.toNat - 1) []
      else vn :: p.takeWhile (· != 0)) := by
  split
  · next hidden =>
      have positive : 0 < vn.toNat := Nat.pos_of_ne_zero fun isZero =>
        inside (UInt8.toNat_inj.mp isZero)
      exact varnames_plain positive hidden
  · next visible =>
      refine ⟨Nat.not_lt.mp visible, fun member => ?_⟩
      have holds := List.all_eq_true.mp List.all_takeWhile 0 member
      cases holds

theorem debugVarnameFrom_plain {pc : BitVec 32} {fuel : Nat} {lastpc : BitVec 32} {p : GCstr}
    {slot : Nat} {name : GCstr} (found : debugVarnameFrom pc fuel lastpc p slot = some name) :
    PlainName name := by
  induction fuel generalizing lastpc p slot with
  | zero => cases found
  | succ fuel induction =>
      cases p with
      | nil => cases found
      | cons vn p =>
          by_cases isEnd : vn = 0
          · rw [debugVarnameFrom, if_pos isEnd] at found
            cases found
          · have plain := entryName_plain isEnd p
            rw [debugVarnameFrom_cons pc fuel lastpc vn p slot isEnd _ _ rfl rfl] at found
            revert plain found
            generalize (if vn.toNat < VARNAME_MAX then varnames.getD (vn.toNat - 1) []
              else vn :: p.takeWhile (· != 0)) = entryName
            generalize (if vn.toNat < VARNAME_MAX then p else (p.dropWhile (· != 0)).tail) = behind
            intro found plain
            dsimp only at found
            split at found
            · cases found
            · split at found
              · split at found
                · rw [← Option.some.inj found]
                  exact plain
                · exact induction found
              · exact induction found

/-! ## When the search finds the right variable -/

theorem searched_sublist (pc : BitVec 32) (vars : List LocVar) :
    (searched pc vars).Sublist (activeAt pc vars) := by
  induction vars with
  | nil => exact .slnil
  | cons v vars induction =>
      rw [searched_cons]
      unfold activeAt
      rw [List.filter_cons]
      by_cases late : v.startpc > pc
      · rw [if_pos late]
        exact List.nil_sublist _
      · rw [if_neg late]
        by_cases before : pc < v.endpc
        · have active : decide (v.ActiveAt pc) = true := decide_eq_true ⟨BitVec.not_lt.mp late, before⟩
          rw [if_pos before, if_pos active]
          exact .cons_cons _ induction
        · have idle : ¬decide (v.ActiveAt pc) = true := fun active =>
            before (of_decide_eq_true active).2
          rw [if_neg before, if_neg idle]
          exact induction

theorem activeAt_cons (pc : BitVec 32) (v : LocVar) (vars : List LocVar) :
    activeAt pc (v :: vars) = if v.ActiveAt pc then v :: activeAt pc vars else activeAt pc vars := by
  unfold activeAt
  rw [List.filter_cons]
  simp only [decide_eq_true_eq]

/-- The search gives up nowhere too early exactly if the starts are ordered. -/
theorem searched_eq_iff (vars : List LocVar) :
    (∀ pc, searched pc vars = activeAt pc vars) ↔ StartsOrdered vars := by
  induction vars with
  | nil => exact ⟨fun _ => .nil, fun _ _ => rfl⟩
  | cons v vars induction =>
      have late_iff {pc : BitVec 32} (late : v.startpc > pc) : ¬v.ActiveAt pc := fun active =>
        BitVec.not_lt.mpr active.1 late
      unfold StartsOrdered
      rw [List.pairwise_cons]
      constructor
      · intro same
        constructor
        · intro w member nonempty
          by_contra behind
          have late : v.startpc > w.startpc := BitVec.not_le.mp behind
          have none := same w.startpc
          rw [searched_cons, if_pos late, activeAt_cons, if_neg (late_iff late)] at none
          have active : w ∈ activeAt w.startpc vars :=
            List.mem_filter.mpr ⟨member, decide_eq_true ⟨BitVec.le_refl _, nonempty⟩⟩
          rw [← none] at active
          cases active
        · refine induction.mp fun pc => ?_
          have here := same pc
          rw [searched_cons, activeAt_cons] at here
          by_cases late : v.startpc > pc
          · rw [if_pos late, if_neg (late_iff late)] at here
            have sub := searched_sublist pc vars
            rw [← here] at sub ⊢
            exact List.sublist_nil.mp sub
          · rw [if_neg late] at here
            by_cases before : pc < v.endpc
            · rw [if_pos before, if_pos ⟨BitVec.not_lt.mp late, before⟩] at here
              exact (List.cons.inj here).2
            · rw [if_neg before, if_neg fun active => before active.2] at here
              exact here
      · rintro ⟨first, rest⟩ pc
        have same := induction.mpr rest pc
        rw [searched_cons, activeAt_cons]
        by_cases late : v.startpc > pc
        · rw [if_pos late, if_neg (late_iff late)]
          refine (List.filter_eq_nil_iff.mpr fun w member => ?_).symm
          intro active
          have active : w.ActiveAt pc := of_decide_eq_true active
          have nonempty : w.startpc < w.endpc := Nat.lt_of_le_of_lt active.1 active.2
          exact BitVec.not_le.mpr late (BitVec.le_trans (first w member nonempty) active.1)
        · rw [if_neg late, same]
          by_cases before : pc < v.endpc
          · rw [if_pos before, if_pos ⟨BitVec.not_lt.mp late, before⟩]
          · rw [if_neg before, if_neg fun active => before active.2]

theorem names_searched_iff (record : DebugRecord) :
    (∀ pc, namesOf (searched pc record.vars) = record.activeNames pc) ↔
      StartsOrdered record.vars ∧ SlotsOrdered record := by
  constructor
  · intro same
    have whole (pc : BitVec 32) : searched pc record.vars = activeAt pc record.vars := by
      have count : (searched pc record.vars).length = (activeAt pc record.vars).length := by
        have lengths := congrArg List.length (same pc)
        simpa [DebugRecord.activeNames, namesOf] using lengths
      exact (searched_sublist pc _).eq_of_length count
    exact ⟨(searched_eq_iff _).mp whole, fun pc => whole pc ▸ same pc⟩
  · rintro ⟨starts, slots⟩ pc
    rw [(searched_eq_iff _).mpr starts pc, slots pc]

/-- A variable that becomes active is shown where it starts. -/
theorem name_shown {record : DebugRecord} {v : LocVar} (member : v ∈ record.vars)
    (nonempty : v.startpc < v.endpc) : v.name.display ∈ record.activeNames v.startpc := by
  refine List.mem_map_of_mem (List.mem_mergeSort.mpr ?_)
  exact List.mem_filter.mpr ⟨member, decide_eq_true ⟨BitVec.le_refl _, nonempty⟩⟩

/-- `debug_varname` shows the active variables exactly if their names are plain and
the variables stand in order. -/
theorem debugVarname_iff {pt : GCproto} (encoded : pt.Encoded) :
    ((∀ pc slot, debugVarname pt pc slot = (pt.record.activeNames pc)[slot]?) ∧
        ∀ v ∈ pt.record.vars, v.endpc ≤ v.startpc → v.Plain) ↔
      (∀ v ∈ pt.record.vars, v.Plain) ∧ StartsOrdered pt.record.vars ∧ SlotsOrdered pt.record := by
  constructor
  · rintro ⟨shown, idle⟩
    have plain : ∀ v ∈ pt.record.vars, v.Plain := by
      intro v member
      by_cases nonempty : v.startpc < v.endpc
      · obtain ⟨slot, inside, isName⟩ := List.mem_iff_getElem.mp (name_shown member nonempty)
        have found := shown v.startpc slot
        rw [List.getElem?_eq_getElem inside, isName] at found
        exact debugVarnameFrom_plain found
      · exact idle v member (BitVec.not_lt.mp nonempty)
    refine ⟨plain, (names_searched_iff _).mp fun pc => List.ext_getElem? fun slot => ?_⟩
    rw [← debugVarname_eq encoded plain, shown]
  · rintro ⟨plain, ordered⟩
    refine ⟨fun pc slot => ?_, fun v member _ => plain v member⟩
    rw [debugVarname_eq encoded plain, (names_searched_iff _).mpr ordered pc]

/-! ## The names of upvalues -/

theorem skipNames_name {name : GCstr} (noZero : ∀ b ∈ name, b ≠ 0) (idx : Nat) (rest : GCstr) :
    skipNames (idx + 1) (name ++ 0 :: rest) = skipNames idx rest := by
  induction name with
  | nil => simp [skipNames]
  | cons b name induction =>
      rw [List.cons_append, skipNames, if_pos (noZero b (.head _)),
        induction fun b member => noZero b (.tail _ member)]

theorem takeWhile_no_zero (p : GCstr) : 0 ∉ p.takeWhile (· != 0) := by
  intro member
  have holds := List.all_eq_true.mp List.all_takeWhile 0 member
  cases holds

/-- The names read back exactly if none has a zero byte. -/
theorem skipNames_iff (names : List GCstr) :
    (∀ idx (inside : idx < names.length),
      (skipNames idx (names.flatMap (· ++ [0]))).takeWhile (· != 0) = names[idx]) ↔
      ∀ name ∈ names, 0 ∉ name := by
  induction names with
  | nil => simp
  | cons name names induction =>
      have stream : (name :: names).flatMap (· ++ [0]) = name ++ 0 :: names.flatMap (· ++ [0]) := by
        simp
      rw [List.forall_mem_cons, ← induction, stream]
      constructor
      · intro shown
        have noZero : 0 ∉ name := by
          have first := shown 0 (Nat.zero_lt_succ _)
          rw [skipNames, List.getElem_cons_zero] at first
          rw [← first]
          exact takeWhile_no_zero _
        refine ⟨noZero, fun idx inside => ?_⟩
        have next := shown (idx + 1) (Nat.succ_lt_succ inside)
        rw [skipNames_name fun b member isZero => noZero (isZero ▸ member)] at next
        exact next
      · rintro ⟨noZero, rest⟩ idx inside
        have nonzero : ∀ b ∈ name, b ≠ 0 := fun b member isZero => noZero (isZero ▸ member)
        cases idx with
        | zero =>
            rw [skipNames, List.getElem_cons_zero]
            exact (takeWhile_name nonzero _).1
        | succ idx =>
            rw [skipNames_name nonzero]
            exact rest idx (Nat.lt_of_succ_lt_succ inside)

theorem ljDebugUvname_iff {pt : GCproto} (encoded : pt.Encoded) :
    (∀ idx (inside : idx < pt.record.uvnames.length),
      ljDebugUvname pt idx = pt.record.uvnames[idx]) ↔ ∀ name ∈ pt.record.uvnames, 0 ∉ name := by
  unfold ljDebugUvname
  rw [encoded.uvinfo]
  exact skipNames_iff _

/-! ## Every prototype of a compilation -/

/-- The functions of `lj_debug.c` show the names of this prototype. -/
structure GCproto.ShowsNames (pt : GCproto) : Prop where
  locals : ∀ pc slot, debugVarname pt pc slot = (pt.record.activeNames pc)[slot]?
  upvalues : ∀ idx (inside : idx < pt.record.uvnames.length),
    ljDebugUvname pt idx = pt.record.uvnames[idx]

/-- Only variables that are active nowhere may have names that are not plain. -/
def GCproto.IdlePlain (pt : GCproto) : Prop :=
  ∀ v ∈ pt.record.vars, v.endpc ≤ v.startpc → v.Plain

/-- The names of a program are shown, and its idle variables are plain, exactly if
all its names are plain and the variables of each function stand in order. -/
theorem showsNames_iff [Vm] (chunkname : GCstr) (items : List LexItem) :
    (∀ pt ∈ finishedProtos chunkname items, pt.ShowsNames ∧ pt.IdlePlain) ↔
      ∀ pt ∈ finishedProtos chunkname items,
        (∀ v ∈ pt.record.vars, v.Plain) ∧ StartsOrdered pt.record.vars ∧ SlotsOrdered pt.record ∧
          ∀ name ∈ pt.record.uvnames, 0 ∉ name := by
  refine forall₂_congr fun pt member => ?_
  have encoded := finishedProtos_encoded chunkname items pt member
  have locals := debugVarname_iff encoded
  have upvalues := ljDebugUvname_iff encoded
  constructor
  · rintro ⟨shows, idle⟩
    have ⟨plain, starts, slots⟩ := locals.mp ⟨shows.locals, idle⟩
    exact ⟨plain, starts, slots, upvalues.mp shows.upvalues⟩
  · rintro ⟨plain, starts, slots, noZero⟩
    have ⟨shown, idle⟩ := locals.mpr ⟨plain, starts, slots⟩
    exact ⟨⟨shown, upvalues.mpr noZero⟩, idle⟩

/-- `(!let x (!do (!let y 1) (!do (!let z 2) (!call f z)) (!call g))) (!call g x y)`:
while `z` is active the search stops at `y`, which starts later. -/
theorem nested_variable_hidden :
    ¬∀ (_ : Vm) (chunkname : GCstr) (items : List LexItem),
      ∀ pt ∈ finishedProtos chunkname items, pt.ShowsNames := by
  intro claim
  have lost := claim ⟨fun _ n _ => n⟩ [] <| List.map (⟨·, 0⟩) <|
    [.lparen, .name (.ofString "!let"), .name (.ofString "x"),
      .lparen, .name (.ofString "!do"),
        .lparen, .name (.ofString "!let"), .name (.ofString "y"), .number (.ofInt 1), .rparen,
        .lparen, .name (.ofString "!do"),
          .lparen, .name (.ofString "!let"), .name (.ofString "z"), .number (.ofInt 2), .rparen,
          .lparen, .name (.ofString "!call"), .name (.ofString "f"), .name (.ofString "z"), .rparen,
        .rparen,
        .lparen, .name (.ofString "!call"), .name (.ofString "g"), .rparen,
      .rparen, .rparen,
      .lparen, .name (.ofString "!call"), .name (.ofString "g"), .name (.ofString "x"),
        .name (.ofString "y"), .rparen]
  have shown := fun pt member => (lost pt member).locals 3 0
  revert shown
  decide +kernel

end TvmJit
