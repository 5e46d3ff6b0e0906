import TvmJit.Flow
import TvmJit.Parse.Operators

/-! The state of a function while the code of an expression is emitted, and the
emission of one instruction. -/

namespace TvmJit

open Foundation

/-! ## Reported errors -/

/-- The error is one the compiler reports: the run does not end because it has no
meaning, nor because the bound of the model is used up. -/
def ParseError.Reported (e : ParseError) : Prop := e ≠ .stuck ∧ e ≠ .outOfFuel

abbrev EmitSpec (m : EmitM α) (ls : LexState) (post : α → LexState → Prop) : Prop :=
  wp m ls post fun e _ => e.Reported

theorem EmitSpec.bind {m : EmitM α} {next : α → EmitM β} {ls : LexState} {Q : α → LexState → Prop}
    {post : β → LexState → Prop} (first : EmitSpec m ls Q)
    (rest : ∀ value ls', Q value ls' → EmitSpec (next value) ls' post) :
    EmitSpec (m >>= next) ls post := by
  rw [EmitSpec, wp_bind]
  exact first.mono rest fun _ _ h => h

theorem EmitSpec.mono {m : EmitM α} {ls : LexState} {post post' : α → LexState → Prop}
    (spec : EmitSpec m ls post) (implies : ∀ value ls', post value ls' → post' value ls') :
    EmitSpec m ls post' :=
  wp.mono spec implies fun _ _ h => h

theorem codeError_reported (ls : LexState) {e : CodeError} (notStuck : e ≠ .stuck) :
    (ls.codeError e).Reported := by
  cases e with
  | syn em => exact ⟨nofun, nofun⟩
  | limit limit what => exact ⟨nofun, nofun⟩
  | stuck => exact absurd rfl notStuck

theorem CodeSpec.lift {m : CodeM α} {ls : LexState} {post : α → Code → Prop}
    (spec : CodeSpec m ls.fs.code post) {post' : α → LexState → Prop}
    (implies : ∀ value code, post value code → post' value (ls.setCode code)) :
    EmitSpec (liftM m : EmitM α) ls post' := by
  change wp (inCode m) ls _ _
  rw [wp_inCode]
  exact spec.mono implies fun e _ notStuck => codeError_reported ls notStuck

theorem bcAt_emit {ls : LexState} {pc : BCPos} (inside : pc < ls.fs.code.pc) :
    EmitSpec (liftM (bcAt pc) : EmitM BCIns) ls fun i ls' => i = ls.fs.code.ins pc ∧ ls = ls' :=
  (bcAt_spec inside ⟨rfl, rfl⟩ : CodeSpec (bcAt pc) ls.fs.code
    fun i c => i = ls.fs.code.ins pc ∧ c = ls.fs.code).lift
    fun _ _ ⟨isIns, same⟩ => ⟨isIns, by rw [same]; rfl⟩

theorem setBc_emit {ls : LexState} {pc : BCPos} {i : BCIns} (inside : pc < ls.fs.code.pc) :
    EmitSpec (liftM (setBc pc i) : EmitM Unit) ls fun _ ls' =>
      ls' = ls.setCode (ls.fs.code.setIns pc i) :=
  (setBc_spec inside rfl : CodeSpec (setBc pc i) ls.fs.code
    fun _ c => c = ls.fs.code.setIns pc i).lift
    fun _ _ same => by rw [same]

theorem changeIns_spec {ls : LexState} {pc : BCPos} {change : BCIns → BCIns}
    (inside : pc < ls.fs.code.pc) :
    EmitSpec (changeIns pc change) ls fun _ ls' =>
      ls' = ls.setCode (ls.fs.code.setIns pc (change (ls.fs.code.ins pc))) := by
  unfold changeIns
  refine (bcAt_emit inside).bind ?_
  rintro _ _ ⟨rfl, rfl⟩
  exact setBc_emit inside

@[simp] theorem wp_getFs (ls : LexState) (post : FuncState → LexState → Prop)
    (stop : ParseError → LexState → Prop) : wp getFs ls post stop ↔ post ls.fs ls := Iff.rfl

/-! ## The state between two emissions -/

/-- The registers an instruction sets to nil are registers of a frame, or the
register is still open. -/
structure BCIns.NilsFit (i : BCIns) : Prop where
  kpri : i.op = .kpri → i.a < LJ_MAX_SLOTS ∨ i.a = NO_REG
  knil : i.op = .knil → i.a < LJ_MAX_SLOTS ∧ i.d < LJ_MAX_SLOTS

theorem BCIns.NilsFit.other {i : BCIns} (notKpri : i.op ≠ .kpri) (notKnil : i.op ≠ .knil) : i.NilsFit :=
  ⟨fun isKpri => absurd isKpri notKpri, fun isKnil => absurd isKnil notKnil⟩

theorem BCIns.NilsFit.jmp {i : BCIns} (isJmp : i.op = .jmp) : i.NilsFit :=
  .other (by simp [isJmp]) (by simp [isJmp])

/-- A jump may follow the instruction: it is no `UCLO`, and its register is not open. -/
def BCIns.Plain (i : BCIns) : Prop := i.op ≠ .uclo ∧ i.valued = false

theorem BCIns.plain_of {i : BCIns} (notUclo : i.op ≠ .uclo) (noCopy : i.copies = false)
    (real : i.a ≠ NO_REG) : i.Plain :=
  ⟨notUclo, by simp [valued, noCopy, real]⟩

theorem BCIns.Plain.congr {i i' : BCIns} (plain : i.Plain) (op : i'.op = i.op) (a : i'.a = i.a) :
    i'.Plain := by
  simp only [Plain, valued, copies, op, a] at plain ⊢
  exact plain

theorem Code.Pending.plain {c : Code} {j : BCPos} (pending : c.Pending j) : (c.ins j).Plain :=
  ⟨by simp [pending.isJmp], pending.not_valued⟩

/-- A jump may follow the code, unless nothing has been added to it. -/
def Tidy (c c' : Code) : Prop :=
  (c'.ins (c'.pc - 1)).Plain ∨ (c'.pc = c.pc ∧ (c'.ins (c'.pc - 1)).op = (c.ins (c.pc - 1)).op ∧
    (c'.ins (c'.pc - 1)).a = (c.ins (c.pc - 1)).a)

namespace Tidy

variable {c c' c'' : Code}

theorem refl (c : Code) : Tidy c c := .inr ⟨rfl, rfl, rfl⟩

theorem trans (first : Tidy c c') (second : Tidy c' c'') : Tidy c c'' := by
  rcases second with plain | ⟨pc, op, a⟩
  · exact .inl plain
  rcases first with plain | ⟨pc', op', a'⟩
  · exact .inl (plain.congr op a)
  · exact .inr ⟨pc.trans pc', op.trans op', a.trans a'⟩

theorem plain (tidy : Tidy c c') (before : (c.ins (c.pc - 1)).Plain) : (c'.ins (c'.pc - 1)).Plain := by
  rcases tidy with plain | ⟨-, op, a⟩
  · exact plain
  · exact before.congr op a

theorem emitted (tidy : Tidy c c') (longer : c.pc < c'.pc) : (c'.ins (c'.pc - 1)).Plain :=
  tidy.resolve_right fun same => longer.ne same.1.symm

theorem closed (tidy : Tidy c c') (before : (c.ins (c.pc - 1)).valued = false) :
    (c'.ins (c'.pc - 1)).valued = false := by
  rcases tidy with plain | ⟨-, op, a⟩
  · exact plain.2
  · simp only [BCIns.valued, BCIns.copies, op, a] at before ⊢
    exact before

end Tidy

/-- The code and the registers are in order: `js` are the jumps that wait for the
next instruction, and the jumps of `S` have their target. -/
structure Ground (ls : LexState) (S : BCPos → Prop) (js : List BCPos) : Prop where
  pos : 1 ≤ ls.fs.code.pc
  small : ls.fs.code.Small
  here : Threads ls.fs.code ls.fs.code.jpc js
  marked : js ≠ [] → ls.fs.code.lasttarget = ls.fs.code.pc
  allSettled : AllSettled ls.fs.code S
  unsettled : ∀ j ∈ js, ¬S j
  nils : ls.fs.code.lasttarget < ls.fs.code.pc → (ls.fs.code.ins (ls.fs.code.pc - 1)).NilsFit
  nactvar : ls.fs.regs.nactvar ≤ ls.fs.regs.freereg
  freereg : ls.fs.regs.freereg ≤ ls.fs.regs.framesize
  framesize : ls.fs.regs.framesize < LJ_MAX_SLOTS

/-- What emitting code leaves alone: the input, the variables and the constants
there are. -/
structure Emits (ls ls' : LexState) : Prop where
  tok : ls'.tok = ls.tok
  rest : ls'.rest = ls.rest
  vstack : ls'.vstack = ls.vstack
  prev : ls'.prev = ls.prev
  varmap : ls'.fs.varmap = ls.fs.varmap
  nactvar : ls'.fs.regs.nactvar = ls.fs.regs.nactvar
  grows : ∀ entry ∈ ls.fs.consts.kt, entry ∈ ls'.fs.consts.kt

theorem Emits.refl (ls : LexState) : Emits ls ls :=
  ⟨rfl, rfl, rfl, rfl, rfl, rfl, fun _ member => member⟩

theorem Emits.trans {ls ls' ls'' : LexState} (first : Emits ls ls') (second : Emits ls' ls'') :
    Emits ls ls'' where
  tok := second.tok.trans first.tok
  rest := second.rest.trans first.rest
  vstack := second.vstack.trans first.vstack
  prev := second.prev.trans first.prev
  varmap := second.varmap.trans first.varmap
  nactvar := second.nactvar.trans first.nactvar
  grows entry member := second.grows entry (first.grows entry member)

/-- From one state in order to another one, the code before `m` framed. -/
structure Move [Lua] (m : BCPos) (ls : LexState) (S : BCPos → Prop) (js : List BCPos) (ls' : LexState)
    (S' : BCPos → Prop) (js' : List BCPos) : Prop where
  ground : Ground ls' S' js'
  frame : Frame m ls.fs.code S js ls'.fs.code S'
  longer : ls.fs.code.pc ≤ ls'.fs.code.pc
  fresh : ∀ j ∈ js', j ∈ js ∨ m ≤ j
  emits : Emits ls ls'

theorem Frame.refl [Lua] {m : BCPos} {c : Code} (S : BCPos → Prop) (js : List BCPos) (le : m ≤ c.pc) :
    Frame m c S js c S where
  pc := le
  settled _ isSettled := ⟨isSettled, rfl⟩
  pending _ _ _ notSettled _ := ⟨notSettled, rfl⟩
  jumps _ _ pending := pending
  tests _ _ _ _ := rfl
  flow := .refl _ _ _

theorem Frame.congr [Lua] {m : BCPos} {c c' c'' : Code} {S S' : BCPos → Prop} {js : List BCPos}
    (frame : Frame m c S js c' S') (pc : c''.pc = c'.pc) (same : c''.ins = c'.ins) :
    Frame m c S js c'' S' where
  pc := pc ▸ frame.pc
  settled := same ▸ frame.settled
  pending := same ▸ frame.pending
  jumps j below pending := (frame.jumps j below pending).of_eq pc.ge (congrFun same j)
  tests := same ▸ frame.tests
  flow := same ▸ frame.flow

/-- Nothing emitted so far has changed. -/
theorem keepsFlow_old [Lua] {c c' : Code} {S S' : BCPos → Prop} (allSettled : AllSettled c S)
    (old : ∀ p < c.pc, c'.ins p = c.ins p) (more : ∀ p, S p → S' p) :
    KeepsFlow c.pc c.ins S c'.ins S' :=
  keepsFlow_of (fun p isSettled => ⟨more p isSettled, old p (allSettled p isSettled).1⟩)
    fun p below => .inl (old p below)

namespace Move

variable [Lua] {m m' : BCPos} {ls ls' ls'' : LexState} {S S' S'' : BCPos → Prop}
  {js js' js'' : List BCPos}

theorem trans (first : Move m ls S js ls' S' js') (second : Move m' ls' S' js' ls'' S'' js'')
    (le : m ≤ m') : Move m ls S js ls'' S'' js'' where
  ground := second.ground
  frame := first.frame.trans second.frame le fun j member below =>
    (first.fresh j member).resolve_right (Nat.not_le.mpr below)
  longer := first.longer.trans second.longer
  fresh j member := by
    rcases second.fresh j member with older | newer
    · exact first.fresh j older
    · exact .inr (le.trans newer)
  emits := first.emits.trans second.emits

theorem mono (move : Move m ls S js ls' S' js') (le : m' ≤ m) : Move m' ls S js ls' S' js' where
  ground := move.ground
  frame := move.frame.mono le
  longer := move.longer
  fresh j member := (move.fresh j member).imp id le.trans
  emits := move.emits

/-- A step that leaves the code alone. -/
theorem of_code (ground : Ground ls' S js) (same : ls'.fs.code = ls.fs.code) (le : m ≤ ls.fs.code.pc)
    (emits : Emits ls ls') : Move m ls S js ls' S js where
  ground := ground
  frame := by rw [same]; exact .refl S js le
  longer := by rw [same]
  fresh _ member := .inl member
  emits := emits

theorem refl (ground : Ground ls S js) (le : m ≤ ls.fs.code.pc) : Move m ls S js ls S js :=
  of_code ground rfl le (.refl ls)

end Move

/-! ## Emitting an instruction -/

structure Emitted [Lua] (ls : LexState) (S : BCPos → Prop) (js : List BCPos) (i : BCIns)
    (ls' : LexState) (S' : BCPos → Prop) : Prop where
  move : Move ls.fs.code.pc ls S js ls' S' []
  pc : ls'.fs.code.pc = ls.fs.code.pc + 1
  lasttarget : ls'.fs.code.lasttarget = ls.fs.code.lasttarget
  ins : ls'.fs.code.ins ls.fs.code.pc = i
  regs : ls'.fs.regs = ls.fs.regs
  consts : ls'.fs.consts = ls.fs.consts
  unsettled : ¬S' ls.fs.code.pc
  alone : js = [] → (∀ p < ls.fs.code.pc, ls'.fs.code.ins p = ls.fs.code.ins p) ∧ ∀ p, S' p → S p
  arrive : ∀ K start R, Here K ls.fs.code S js start R →
    Reach K ls'.fs.code.ins S' start (ls.fs.code.pc, R)

theorem bcemitINS_spec [Lua] {ls : LexState} {S : BCPos → Prop} {js : List BCPos} {i : BCIns}
    (ground : Ground ls S js) (fit : i.NilsFit) :
    EmitSpec (bcemitINS i) ls fun pos ls' =>
      pos = ls.fs.code.pc ∧ ∃ S', Emitted ls S js i ls' S' := by
  unfold bcemitINS
  rw [EmitSpec, wp_bind, wp_get]
  refine (emitIns_spec ground.here ground.small).lift ?_
  rintro _ c ⟨rfl, pushed⟩
  have frame := pushed.frame ground.here ground.allSettled ground.unsettled
  have longer : ls.fs.code.pc ≤ c.pc := by rw [pushed.pc]; exact Nat.le_succ _
  refine ⟨rfl, settledAfter ls.fs.code S js c, ?_⟩
  have ground' : Ground (ls.setCode c) (settledAfter ls.fs.code S js c) [] := by
    refine ⟨ground.pos.trans longer, pushed.small, ?_, fun h => absurd rfl h,
      pushed.allSettled ground.here ground.allSettled ground.unsettled,
      fun _ member => (by cases member), fun _ => ?_, ground.nactvar, ground.freereg,
      ground.framesize⟩
    · change Threads c c.jpc []
      rw [pushed.jpc]
      exact .nil
    · have isLast : c.pc - 1 = ls.fs.code.pc := by rw [pushed.pc]; rfl
      simp only [LexState.setCode, isLast, pushed.ins]
      exact fit
  refine ⟨⟨ground', frame, longer, fun _ member => (by cases member),
    ⟨rfl, rfl, rfl, rfl, rfl, rfl, fun _ member => member⟩⟩, pushed.pc, pushed.lasttarget, pushed.ins,
    rfl, rfl, ?_, ?_, fun K start R arrives =>
      pushed.arrive ground.here ground.allSettled ground.unsettled arrives⟩
  rintro (isSettled | member | ⟨next, -, -⟩)
  · exact Nat.lt_irrefl _ (ground.allSettled _ isSettled).1
  · exact Nat.lt_irrefl _ (ground.here.pending _ member).inside
  · exact absurd (ground.here.pending _ next).inside (by lia)
  · rintro rfl
    refine ⟨fun p below => pushed.others p below List.not_mem_nil List.not_mem_nil, fun p isSettled => ?_⟩
    rcases isSettled with isSettled | member | ⟨next, -, -⟩
    · exact isSettled
    · cases member
    · cases next

/-- An instruction that stores a value has been emitted. -/
theorem Emitted.load [Lua] {ls ls' : LexState} {S S' : BCPos → Prop} {js : List BCPos} {i : BCIns}
    (emitted : Emitted ls S js i ls' S') {K : KTable} {start : Config} {R : RegFile} {v : LuaValue}
    (real : i.a ≠ NO_REG) (arrives : Here K ls.fs.code S js start R) (value : valueOf K i R = some v) :
    Here K ls'.fs.code S' [] start (Function.update R i.a v) := by
  have reach := emitted.arrive K start R arrives
  have step : Flow K ls'.fs.code.ins S' (ls.fs.code.pc, R)
      (ls.fs.code.pc + 1, Function.update R i.a v) := by
    rw [← emitted.ins] at real value ⊢
    exact .load real value
  have isLast : ls'.fs.code.pc - 1 = ls.fs.code.pc := by rw [emitted.pc]; rfl
  refine .inl ⟨?_, fun _ _ => ⟨R, ?_, ?_⟩⟩
  · rw [emitted.pc]
    exact reach.tail step
  · rw [isLast]
    exact reach
  · rw [isLast, emitted.pc]
    exact step

end TvmJit
