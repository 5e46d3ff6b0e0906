import TvmJit.Simulation.Values

/-! Jump lists of a descriptor: joining them, and giving them their target. -/

namespace TvmJit

open Foundation

variable [Lua]

/-! ## Code that keeps what runs find -/

/-- A run that takes the jump at `j` still does when the code before is kept. -/
theorem Exit.keep {K : KTable} {c c' : Code} {S S' : BCPos → Prop} {start : Config} {j : BCPos}
    {R : RegFile} {dflt v : LuaValue} (exit : Exit K c S start j R dflt v)
    (flow : KeepsFlow j c.ins S c'.ins S')
    (same : (c.ins (j - 1)).op ≠ .jmp → c'.ins (j - 1) = c.ins (j - 1))
    (plain : (c.ins (j - 1)).op = .jmp → (c.ins (j - 1)).valued = false →
      (c'.ins (j - 1)).valued = false) :
    Exit K c' S' start j R dflt v := by
  rcases exit with ⟨reach, value⟩ | ⟨reach, notValued, rfl⟩
  · refine .inl ⟨reach.keep flow (Nat.sub_le j 1), ?_⟩
    rw [same (exitValue_op value)]
    exact value
  · refine .inr ⟨reach.keep flow le_rfl, ?_, rfl⟩
    by_cases isJmp : (c.ins (j - 1)).op = .jmp
    · exact plain isJmp notValued
    · rw [same isJmp]
      exact notValued

/-! ## Joining lists -/

section

variable {ls : LexState} {S : BCPos → Prop} {js : List BCPos} {lo : BCPos}

/-- The state with the links of some open jumps changed. -/
structure Linked (lo : BCPos) (ls : LexState) (S : BCPos → Prop) (js ks : List BCPos) (ls' : LexState)
    (js' : List BCPos) : Prop where
  move : Move lo ls S js ls' S js'
  regs : ls'.fs.regs = ls.fs.regs
  consts : ls'.fs.consts = ls.fs.consts
  pc : ls'.fs.code.pc = ls.fs.code.pc
  jumps : ∀ j, (ls'.fs.code.ins j).op = (ls.fs.code.ins j).op ∧
    (ls'.fs.code.ins j).a = (ls.fs.code.ins j).a
  others : ∀ p, p ∉ ks → ls'.fs.code.ins p = ls.fs.code.ins p
  flow : KeepsFlow ls.fs.code.pc ls.fs.code.ins S ls'.fs.code.ins S

theorem keepsFlow_relink {m : BCPos} {c c' : Code} {ks : List BCPos}
    (isJmp : ∀ k ∈ ks, (c.ins k).op = .jmp) (open_ : ∀ k ∈ ks, ¬S k)
    (others : ∀ p, p ∉ ks → c'.ins p = c.ins p) : KeepsFlow m c.ins S c'.ins S := by
  refine keepsFlow_of (fun p isSettled => ⟨isSettled, others p fun member => open_ p member isSettled⟩)
    fun p _ => ?_
  by_cases member : p ∈ ks
  · exact .inr (.inl ⟨isJmp p member, open_ p member⟩)
  · exact .inl (others p member)

theorem Linked.exit {ks js' : List BCPos} {ls' : LexState} (linked : Linked lo ls S js ks ls' js')
    (isJmp : ∀ k ∈ ks, (ls.fs.code.ins k).op = .jmp) {K : KTable} {start : Config} {j : BCPos}
    {R : RegFile} {dflt v : LuaValue} (inside : j ≤ ls.fs.code.pc)
    (exit : Exit K ls.fs.code S start j R dflt v) : Exit K ls'.fs.code S start j R dflt v := by
  refine exit.keep (linked.flow.mono inside) (fun notJmp => linked.others _ fun member =>
    notJmp (isJmp _ member)) fun _ notValued => ?_
  have same := linked.jumps (j - 1)
  simp only [BCIns.valued, BCIns.copies, same.1, same.2] at notValued ⊢
  exact notValued

theorem Linked.threads {ks js' : List BCPos} {ls' : LexState} (linked : Linked lo ls S js ks ls' js')
    {l : BCPos} {list : List BCPos} (threads : Threads ls.fs.code l list)
    (apart : ∀ j ∈ list, j ∉ ks) : Threads ls'.fs.code l list :=
  threads.of_eq linked.pc.ge fun j member => linked.others j (apart j member)

omit [Lua] in
/-- The last instruction is the one of before, or a jump. -/
theorem Ground.nils_relink (ground : Ground ls S js) {c' : Code} {ks : List BCPos}
    (pc : c'.pc = ls.fs.code.pc)
    (jumps : ∀ k ∈ ks, (c'.ins k).op = .jmp) (others : ∀ p, p ∉ ks → c'.ins p = ls.fs.code.ins p)
    (after : ls.fs.code.lasttarget < ls.fs.code.pc) : (c'.ins (c'.pc - 1)).NilsFit := by
  rw [pc]
  by_cases member : ls.fs.code.pc - 1 ∈ ks
  · exact .jmp (jumps _ member)
  · rw [others _ member]
    exact ground.nils after

theorem Linked.tidy {ks js' : List BCPos} {ls' : LexState} (linked : Linked lo ls S js ks ls' js') :
    Tidy ls.fs.code ls'.fs.code := by
  rw [Tidy, linked.pc]
  exact .inr ⟨rfl, linked.jumps _⟩

/-- `jmp_append` of open jumps after `lo`. -/
theorem append_spec (ground : Ground ls S js) {l₁ l₂ : BCPos} {ks ms : List BCPos}
    (first : Threads ls.fs.code l₁ ks) (second : Threads ls.fs.code l₂ ms)
    (apart : ∀ k ∈ ks, k ∉ ms) (open_ : ∀ k ∈ ks, ¬S k) (notHere : ∀ k ∈ ks, k ∉ js)
    (after : ∀ k ∈ ks, lo < k) (low : lo ≤ ls.fs.code.pc) :
    EmitSpec (liftM (jmpAppend l₁ l₂) : EmitM BCPos) ls fun l ls' =>
      Threads ls'.fs.code l (ks ++ ms) ∧ Linked lo ls S js ks ls' js ∧
        ls'.fs.code.lasttarget = ls.fs.code.lasttarget := by
  refine (jmpAppend_spec first second apart ground.small).lift ?_
  rintro l c' ⟨joined, relinked⟩
  have isJmp (k : BCPos) (member : k ∈ ks) := (first.pending k member).isJmp
  have flow := keepsFlow_relink (m := ls.fs.code.pc) isJmp open_ relinked.others
  have jumps (p : BCPos) : (c'.ins p).op = (ls.fs.code.ins p).op ∧ (c'.ins p).a = (ls.fs.code.ins p).a := by
    by_cases member : p ∈ ks
    · exact relinked.jumps p member
    · rw [relinked.others p member]
      exact ⟨rfl, rfl⟩
  have stays (k : BCPos) (pending : ls.fs.code.Pending k) : c'.Pending k :=
    ⟨pending.pos, pending.inside.trans_eq relinked.frame.pc.symm, (jumps k).1.trans pending.isJmp,
      (jumps k).2 ▸ pending.real⟩
  refine ⟨joined, ⟨⟨⟨ground.pos.trans_eq relinked.frame.pc.symm, relinked.frame.pc.le.trans ground.small,
    ?_, fun some => ?_, fun p isSettled => ?_, ground.unsettled, fun later => ?_, ground.nactvar,
    ground.freereg, ground.framesize⟩, ⟨low.trans_eq relinked.frame.pc.symm, fun p isSettled => ?_,
    fun j below pending unsettled _ => ?_, fun j _ pending => stays j pending, fun p below _ _ => ?_,
    flow.mono ?_⟩, relinked.frame.pc.ge, fun _ member => .inl member,
    ⟨rfl, rfl, rfl, rfl, rfl, rfl, fun _ member => member⟩⟩, rfl, rfl, relinked.frame.pc, jumps,
    relinked.others, flow⟩, relinked.frame.lasttarget⟩
  · change Threads c' c'.jpc js
    rw [relinked.frame.jpc]
    exact ground.here.of_eq relinked.frame.pc.ge fun j member =>
      relinked.others j fun inKs => notHere j inKs member
  · exact relinked.frame.lasttarget.trans ((ground.marked some).trans relinked.frame.pc.symm)
  · have ⟨inside, isJmp, real⟩ := ground.allSettled p isSettled
    exact ⟨inside.trans_eq relinked.frame.pc.symm, (jumps p).1.trans isJmp, (jumps p).2 ▸ real⟩
  · refine ground.nils_relink relinked.frame.pc (fun k member => (jumps k).1.trans (isJmp k member))
      relinked.others ?_
    have isLast : c'.lasttarget = ls.fs.code.lasttarget := relinked.frame.lasttarget
    change c'.lasttarget < c'.pc at later
    rwa [isLast, relinked.frame.pc] at later
  · exact ⟨isSettled, relinked.others p fun member => open_ p member isSettled⟩
  · exact ⟨unsettled, relinked.others j fun member => Nat.lt_asymm below (after j member)⟩
  · exact relinked.others p fun member => by
      have := after p member
      lia
  · lia

/-- `jmp_tohere` of open jumps after `lo`. -/
theorem tohere_spec (lo : BCPos) (ground : Ground ls S js) {l : BCPos} {ks : List BCPos}
    (threads : Threads ls.fs.code l ks) (open_ : ∀ k ∈ ks, ¬S k) (notHere : ∀ k ∈ ks, k ∉ js)
    (after : ∀ k ∈ ks, lo < k) (low : lo ≤ ls.fs.code.pc) :
    EmitSpec (liftM (jmpTohere l) : EmitM Unit) ls fun _ ls' =>
      Linked lo ls S js js ls' (js ++ ks) ∧ ls'.fs.code.lasttarget = ls'.fs.code.pc := by
  refine (jmpTohere_spec ground.here threads (fun j inJs inKs => notHere j inKs inJs)
    ground.small).lift ?_
  rintro _ c' ⟨joined, pc, bcofs, lasttarget, links, others⟩
  have isJmp (k : BCPos) (member : k ∈ js) := (ground.here.pending k member).isJmp
  have flow := keepsFlow_relink (m := ls.fs.code.pc) isJmp ground.unsettled others
  have jumps (p : BCPos) : (c'.ins p).op = (ls.fs.code.ins p).op ∧ (c'.ins p).a = (ls.fs.code.ins p).a := by
    by_cases member : p ∈ js
    · exact links p member
    · rw [others p member]
      exact ⟨rfl, rfl⟩
  have stays (k : BCPos) (pending : ls.fs.code.Pending k) : c'.Pending k :=
    ⟨pending.pos, pending.inside.trans_eq pc.symm, (jumps k).1.trans pending.isJmp,
      (jumps k).2 ▸ pending.real⟩
  have isLast : c'.lasttarget = c'.pc := lasttarget.trans pc.symm
  refine ⟨⟨⟨⟨ground.pos.trans_eq pc.symm, pc.le.trans ground.small, joined, fun _ => isLast,
    fun p isSettled => ?_, fun j member => ?_, fun later => absurd later isLast.not_lt,
    ground.nactvar, ground.freereg, ground.framesize⟩, ⟨low.trans_eq pc.symm, fun p isSettled => ?_,
    fun j _ _ unsettled other => ⟨unsettled, others j other⟩, fun j _ pending => stays j pending,
    fun p _ other _ => others p other, flow.mono ?_⟩, pc.ge, fun j member => ?_,
    ⟨rfl, rfl, rfl, rfl, rfl, rfl, fun _ member => member⟩⟩, rfl, rfl, pc, jumps, others, flow⟩, isLast⟩
  · have ⟨inside, isJmp, real⟩ := ground.allSettled p isSettled
    exact ⟨inside.trans_eq pc.symm, (jumps p).1.trans isJmp, (jumps p).2 ▸ real⟩
  · exact (List.mem_append.mp member).elim (ground.unsettled j) (open_ j)
  · exact ⟨isSettled, others p fun member => ground.unsettled p member isSettled⟩
  · lia
  · exact (List.mem_append.mp member).imp id fun inKs => (after j inKs).le

omit [Lua] in
/-- `jmp_tohere` when no other jump waits for the next instruction. -/
theorem tohere_first_spec (ground : Ground ls S []) {l : BCPos} {ks : List BCPos}
    (threads : Threads ls.fs.code l ks) (open_ : ∀ k ∈ ks, ¬S k) :
    EmitSpec (liftM (jmpTohere l) : EmitM Unit) ls fun _ ls' =>
      Ground ls' S ks ∧ ls'.fs.code.ins = ls.fs.code.ins ∧ ls'.fs.code.pc = ls.fs.code.pc ∧
        ls'.fs.regs = ls.fs.regs ∧ ls'.fs.consts = ls.fs.consts ∧ Emits ls ls' := by
  refine (jmpTohere_spec ground.here threads (fun _ member => by cases member) ground.small).lift ?_
  rintro _ c' ⟨joined, pc, -, lasttarget, -, others⟩
  have same : c'.ins = ls.fs.code.ins := funext fun p => others p List.not_mem_nil
  have isLast : c'.lasttarget = c'.pc := lasttarget.trans pc.symm
  refine ⟨⟨ground.pos.trans_eq pc.symm, pc.le.trans ground.small, joined, fun _ => isLast,
    fun p isSettled => ?_, open_, fun later => absurd later isLast.not_lt, ground.nactvar,
    ground.freereg, ground.framesize⟩, same, pc, rfl, rfl,
    ⟨rfl, rfl, rfl, rfl, rfl, rfl, fun _ member => member⟩⟩
  change p < c'.pc ∧ (c'.ins p).op = _ ∧ (c'.ins p).a < _
  rw [same, pc]
  exact ground.allSettled p isSettled

/-- Runs that have arrived at the end of the code still do when more jumps lead there. -/
theorem Linked.here {ks : List BCPos} {ls' : LexState} (linked : Linked lo ls S js js ls' (js ++ ks))
    (ground : Ground ls S js) (marked : ls'.fs.code.lasttarget = ls'.fs.code.pc) {K : KTable}
    {start : Config} {R : RegFile} (here : Here K ls.fs.code S js start R) :
    Here K ls'.fs.code S (js ++ ks) start R := by
  rcases here with ⟨reach, -⟩ | ⟨j, member, v, exit⟩
  · refine .inl ⟨?_, fun later => absurd later marked.not_lt⟩
    rw [linked.pc]
    exact reach.keep linked.flow le_rfl
  · exact .inr ⟨j, List.mem_append_left _ member, v,
      linked.exit (fun k inJs => (ground.here.pending k inJs).isJmp)
        (ground.here.pending j member).inside.le exit⟩

/-! ## Setting the jumps of a list -/

/-- The jumps `ks` have been set, those that bring a value to `vtarget` with the
value in `reg`. -/
structure Resolved (lo : BCPos) (ls : LexState) (S : BCPos → Prop) (js ks : List BCPos)
    (vtarget : BCPos) (reg : BCReg) (dtarget : BCPos) (ls' : LexState) (S' : BCPos → Prop) : Prop where
  move : Move lo ls S js ls' S' js
  regs : ls'.fs.regs = ls.fs.regs
  consts : ls'.fs.consts = ls.fs.consts
  pc : ls'.fs.code.pc = ls.fs.code.pc
  lasttarget : ls'.fs.code.lasttarget = ls.fs.code.lasttarget
  tidy : Tidy ls.fs.code ls'.fs.code
  settled : ∀ p, S' p ↔ S p ∨ p ∈ ks
  flow : KeepsFlow ls.fs.code.pc ls.fs.code.ins S ls'.fs.code.ins S'
  jumps : ∀ p, (ls.fs.code.ins p).op = .jmp → (ls.fs.code.ins p).a < NO_REG → p ∉ ks →
    ls'.fs.code.ins p = ls.fs.code.ins p
  valued : ∀ j, ls.fs.code.Pending j → j ∉ ks →
    (ls'.fs.code.ins (j - 1)).valued = (ls.fs.code.ins (j - 1)).valued
  exits : ∀ (K : KTable) start j R dflt v, ls.fs.code.Pending j → j ∉ ks →
    Exit K ls.fs.code S start j R dflt v → Exit K ls'.fs.code S' start j R dflt v
  resolved : ∀ (K : KTable) start j R dflt v, j ∈ ks → Exit K ls.fs.code S start j R dflt v →
    ((ls.fs.code.ins (j - 1)).valued = true ∧
        Reach K ls'.fs.code.ins S' start (vtarget, Function.update R reg v)) ∨
      ((ls.fs.code.ins (j - 1)).valued = false ∧ v = dflt ∧
        Reach K ls'.fs.code.ins S' start (dtarget, R))

/-- `jmp_patchval` of open jumps after `lo`. -/
theorem patchval_spec (ground : Ground ls S js)
    (marked : ls.fs.code.lasttarget = ls.fs.code.pc) {l vtarget dtarget : BCPos} {reg : BCReg}
    {ks : List BCPos} (threads : Threads ls.fs.code l ks) (open_ : ∀ k ∈ ks, ¬S k)
    (notHere : ∀ k ∈ ks, k ∉ js) (after : ∀ k ∈ ks, lo < k) (low : lo ≤ ls.fs.code.pc)
    (isReg : reg < LJ_MAX_SLOTS) (vInside : vtarget ≤ ls.fs.code.pc) (vAhead : ∀ k ∈ ks, k < vtarget)
    (dInside : ∀ k ∈ ks, (ls.fs.code.ins (k - 1)).valued = false →
      k < dtarget ∧ dtarget ≤ ls.fs.code.pc) :
    EmitSpec (liftM (jmpPatchval l vtarget reg dtarget) : EmitM Unit) ls fun _ ls' =>
      ∃ S', Resolved lo ls S js ks vtarget reg dtarget ls' S' := by
  have dBelow : (∃ k ∈ ks, (ls.fs.code.ins (k - 1)).valued = false) → dtarget ≤ ls.fs.code.pc := by
    rintro ⟨k, member, notValued⟩
    exact (dInside k member notValued).2
  refine (jmpPatchval_spec threads ground.small (.inr isReg) vInside dBelow).lift ?_
  rintro _ c' patched
  have realReg : reg ≠ NO_REG := (isReg.trans (by decide)).ne
  have pc := patched.frame.pc
  -- Open jumps other than those of the list are left alone, and so are set ones.
  have jump_eq (p : BCPos) (isJmp : (ls.fs.code.ins p).op = .jmp) (real : (ls.fs.code.ins p).a < NO_REG)
      (other : p ∉ ks) : c'.ins p = ls.fs.code.ins p := by
    by_cases next : p + 1 ∈ ks
    · have notValued : (ls.fs.code.ins p).valued = false := by
        simp [BCIns.valued, BCIns.copies, isJmp, real.ne]
      rw [patched.tests p other next, BCIns.patchTest_of_not_valued notValued]
    · exact patched.others p other next
  have settled_eq (p : BCPos) (isSettled : S p) : c'.ins p = ls.fs.code.ins p := by
    obtain ⟨_, isJmp, real⟩ := ground.allSettled p isSettled
    exact jump_eq p isJmp real fun member => open_ p member isSettled
  have stays (j : BCPos) (pending : ls.fs.code.Pending j) : c'.Pending j := by
    by_cases member : j ∈ ks
    · exact patched.jumps j member
    · exact pending.of_eq pc.ge (jump_eq j pending.isJmp pending.real member)
  have flow : KeepsFlow ls.fs.code.pc ls.fs.code.ins S c'.ins fun p => S p ∨ p ∈ ks := by
    refine keepsFlow_of (fun p isSettled => ⟨.inl isSettled, settled_eq p isSettled⟩) fun p _ => ?_
    by_cases member : p ∈ ks
    · exact .inr (.inl ⟨(threads.pending p member).isJmp, open_ p member⟩)
    · by_cases next : p + 1 ∈ ks
      · exact .inr (.inr ⟨open_ _ next, _, _, patched.tests p member next⟩)
      · exact .inl (patched.others p member next)
  have isLast : c'.lasttarget = c'.pc := patched.frame.lasttarget.trans (marked.trans pc.symm)
  have tidy : Tidy ls.fs.code c' := by
    rw [Tidy, pc]
    by_cases member : ls.fs.code.pc - 1 ∈ ks
    · exact .inl (patched.jumps _ member).plain
    · have pos := ground.pos
      have noJump : ls.fs.code.pc - 1 + 1 ∉ ks := fun next =>
        absurd (threads.pending _ next).inside (by lia)
      rw [patched.others _ member noJump]
      exact .inr ⟨rfl, rfl, rfl⟩
  refine ⟨fun p => S p ∨ p ∈ ks, ⟨⟨⟨ground.pos.trans_eq pc.symm, pc.le.trans ground.small, ?_,
    fun _ => isLast, ?_, ?_, fun later => absurd later isLast.not_lt, ground.nactvar, ground.freereg,
    ground.framesize⟩, ⟨low.trans_eq pc.symm, fun p isSettled => ⟨.inl isSettled, settled_eq p isSettled⟩,
    fun j below pending unsettled _ => ?_, fun j _ pending => stays j pending, fun p below _ _ => ?_,
    flow.mono ?_⟩, pc.ge, fun _ member => .inl member,
    ⟨rfl, rfl, rfl, rfl, rfl, rfl, fun _ member => member⟩⟩, rfl, rfl, pc, patched.frame.lasttarget,
    tidy, fun _ => Iff.rfl, flow, jump_eq, ?_, ?_, ?_⟩⟩
  · change Threads c' c'.jpc js
    rw [patched.frame.jpc]
    exact ground.here.of_eq pc.ge fun j member =>
      jump_eq j (ground.here.pending j member).isJmp (ground.here.pending j member).real
        fun inKs => notHere j inKs member
  · rintro p (isSettled | member)
    · obtain ⟨inside, isJmp, real⟩ := ground.allSettled p isSettled
      change p < c'.pc ∧ (c'.ins p).op = _ ∧ (c'.ins p).a < _
      rw [settled_eq p isSettled]
      exact ⟨inside.trans_eq pc.symm, isJmp, real⟩
    · have pending := patched.jumps p member
      exact ⟨pending.inside, pending.isJmp, pending.real⟩
  · rintro j member (isSettled | inKs)
    · exact ground.unsettled j member isSettled
    · exact notHere j inKs member
  · have outside : j ∉ ks := fun member => Nat.lt_asymm below (after j member)
    exact ⟨fun isSettled => isSettled.elim unsettled outside,
      jump_eq j pending.isJmp pending.real outside⟩
  · refine patched.others p (fun member => ?_) fun member => ?_
    · have := after p member
      lia
    · have := after _ member
      lia
  · lia
  · intro j pending other
    have next : j - 1 + 1 = j := Nat.sub_add_cancel pending.pos
    by_cases member : j - 1 ∈ ks
    · exact (patched.jumps _ member).not_valued.trans (threads.pending _ member).not_valued.symm
    · change (c'.ins (j - 1)).valued = _
      rw [patched.others _ member (next.symm ▸ other)]
  · intro K start j R dflt v pending other exit
    have next : j - 1 + 1 = j := Nat.sub_add_cancel pending.pos
    refine exit.keep (flow.mono pending.inside.le) (fun notJmp => ?_) fun isJmp notValued => ?_
    · exact patched.others _ (fun member => notJmp (threads.pending _ member).isJmp) (next.symm ▸ other)
    · by_cases member : j - 1 ∈ ks
      · exact (patched.jumps _ member).not_valued
      · change (c'.ins (j - 1)).valued = false
        rw [patched.others _ member (next.symm ▸ other)]
        exact notValued
  · intro K start j R dflt v member exit
    have pending := threads.pending j member
    have next : j - 1 + 1 = j := Nat.sub_add_cancel pending.pos
    have isTest (notJmp : (ls.fs.code.ins (j - 1)).op ≠ .jmp) :
        c'.ins (j - 1) = (ls.fs.code.ins (j - 1)).patchTest reg (ls.fs.code.ins j).a := by
      have tests := patched.tests (j - 1) (fun member => notJmp (threads.pending _ member).isJmp)
        (next.symm ▸ member)
      rwa [next] at tests
    have target := patched.target j member
    have ahead : j < jumpTarget c'.ins j := by
      rw [target]
      split
      · exact vAhead j member
      · next notValued => exact (dInside j member (by simpa using notValued)).1
    obtain ⟨arrived, noValue⟩ := exit.resolve (flow.mono pending.inside.le) pending.pos (.inr isReg)
      pending.real isTest (fun notJmp isJmp => absurd (isTest notJmp ▸ isJmp)
        (BCIns.patchTest_notJmp notJmp realReg)) (.inr member) (patched.jumps j member).isJmp ahead
    rw [target] at arrived
    cases isValued : (ls.fs.code.ins (j - 1)).valued with
    | true =>
        simp only [isValued, if_true, true_and, realReg, ne_eq, not_false_eq_true] at arrived
        exact .inl ⟨rfl, arrived⟩
    | false =>
        simp only [isValued, Bool.false_eq_true, if_false, false_and] at arrived
        exact .inr ⟨rfl, noValue isValued, arrived⟩

/-- Runs that have arrived at the end of the code still do. -/
theorem Resolved.here {ks : List BCPos} {vtarget dtarget : BCPos} {reg : BCReg} {ls' : LexState}
    {S' : BCPos → Prop} (resolved : Resolved lo ls S js ks vtarget reg dtarget ls' S')
    (ground : Ground ls S js) (marked : ls.fs.code.lasttarget = ls.fs.code.pc)
    (notHere : ∀ k ∈ ks, k ∉ js) {K : KTable} {start : Config} {R : RegFile}
    (here : Here K ls.fs.code S js start R) : Here K ls'.fs.code S' js start R := by
  have isLast : ls'.fs.code.lasttarget = ls'.fs.code.pc := by
    rw [resolved.lasttarget, resolved.pc, marked]
  rcases here with ⟨reach, -⟩ | ⟨j, member, v, exit⟩
  · refine .inl ⟨?_, fun later => absurd later isLast.not_lt⟩
    rw [resolved.pc]
    exact reach.keep resolved.flow le_rfl
  · exact .inr ⟨j, member, v, resolved.exits K start j R _ v (ground.here.pending j member)
      (fun inKs => notHere j inKs member) exit⟩

end

end TvmJit
