import TvmJit.Ir.Buffer
import TvmJit.Foundation.Placed

/-! Snapshots of `lj_snap.c`, and their copies of `lj_opt_loop.c`. All snapshots of a trace share one map, and
have 16 bits for their places in it and 8 bits for their sizes. -/

namespace TvmJit.Snap

open Foundation Function

def LJ_MAX_JSLOTS : Nat := 250

def u8 (n : Nat) : Nat := n % 2 ^ 8
def u16 (n : Nat) : Nat := n % 2 ^ 16

/-! ## Entries -/

abbrev TRef := BitVec 32

def TREF_REFMASK : TRef := 0x0000ffff
def TREF_FRAME : TRef := 0x00010000
def TREF_CONT : TRef := 0x00020000

def tref_ref (tr : TRef) : IRRef1 := tr.setWidth 16

/-- Compressed snapshot entry. -/
abbrev SnapEntry := BitVec 32

def SNAP_FRAME : SnapEntry := 0x010000
def SNAP_CONT : SnapEntry := 0x020000
def SNAP_NORESTORE : SnapEntry := 0x040000

def SNAP (slot : Nat) (flags ref : SnapEntry) : SnapEntry := BitVec.ofNat 32 slot <<< 24 + flags + ref

def SNAP_TR (slot : Nat) (tr : TRef) : SnapEntry :=
  BitVec.ofNat 32 slot <<< 24 + (tr &&& (TREF_CONT ||| TREF_FRAME ||| TREF_REFMASK))

def snap_ref (sn : SnapEntry) : IRRef1 := sn.setWidth 16

def snap_slot (sn : SnapEntry) : Nat := (sn >>> 24).toNat

def snap_setref (sn : SnapEntry) (ref : IRRef1) : SnapEntry := (sn &&& (0xffff0000 &&& ~~~SNAP_NORESTORE)) ||| ref.setWidth 32

def IRSLOAD_PARENT : IRRef1 := 0x01
def IRSLOAD_READONLY : IRRef1 := 0x10
def IRSLOAD_INHERIT : IRRef1 := 0x20

/-! ## Snapshots -/

/-- Stack snapshot header. -/
structure SnapShot where
  mapofs : Nat
  ref : Nat
  nslots : Nat
  topslot : Nat
  nent : Nat
  count : Nat

/-- The parts of `jit_State` for snapshots. -/
structure SnapState where
  J : JitState
  snap : Nat → SnapShot
  nsnap : Nat
  nsnapmap : Nat
  snapmap : Nat → SnapEntry
  sizesnap : Nat
  sizesnapmap : Nat
  maxsnap : Nat
  mergesnap : Bool
  guardemit : Bool

def LJ_MIN_VECSZ : Nat := 8

/-- Grow snapshot buffer. There is no result for too many snapshots. -/
def lj_snap_grow_buf (st : SnapState) (need : Nat) : Option SnapState :=
  if st.sizesnap < need then
    if st.maxsnap < need then none
    else some { st with sizesnap := min (max (2 * st.sizesnap) LJ_MIN_VECSZ) st.maxsnap }
  else some st

/-- Grow snapshot map buffer. -/
def lj_snap_grow_map (st : SnapState) (need : Nat) : SnapState :=
  if st.sizesnapmap < need then
    { st with
      sizesnapmap :=
        if need < 2 * st.sizesnapmap then 2 * st.sizesnapmap else if need < 64 then 64 else need }
  else st

/-- A frame above the base, with the top of the frame of the function that is below it. -/
inductive Frame
  | lua (pc : SnapEntry) (top : Nat)
  | cont (ftsz contpc : SnapEntry) (top : Nat)
  | other (ftsz : SnapEntry)

def Frame.links : Frame → List SnapEntry
  | lua pc _ => [pc]
  | cont ftsz contpc _ => [ftsz, contpc]
  | other ftsz => [ftsz]

def Frame.top : Frame → Nat
  | lua _ top | cont _ _ top => top
  | other _ => 0

/-- The stack while it is recorded. -/
structure Recorder where
  slot : Nat → TRef
  baseslot : Nat
  maxslot : Nat
  framedepth : Nat
  pc : SnapEntry
  ftop : Nat
  frames : List Frame
  slots_le : baseslot + maxslot ≤ LJ_MAX_JSLOTS
  framedepth_eq : (frames.flatMap Frame.links).length = framedepth

/-- The entry of a slot, if it is modified. -/
def snapshot_slot (J : JitState) (slot : Nat → TRef) (s : Nat) : Option SnapEntry :=
  let tr := slot s
  let ref := tref_ref tr
  if ref ≠ 0 then
    let sn := SNAP_TR s tr
    let ir := J.IR ref.toNat
    if sn &&& (SNAP_CONT ||| SNAP_FRAME) = 0 ∧ ir.o = .sload ∧ ir.op1.toNat = s ∧ J.chain .retf < ref then
      -- No need to snapshot unmodified non-inherited slots.
      if ir.op2 &&& IRSLOAD_INHERIT = 0 then none
      -- No need to restore readonly slots and unmodified non-parent slots.
      else if ir.op2 &&& (IRSLOAD_READONLY ||| IRSLOAD_PARENT) ≠ IRSLOAD_PARENT then some (sn ||| SNAP_NORESTORE)
      else some sn
    else some sn
  else none

/-- Add all modified slots to the snapshot. -/
def snapshot_slots (J : JitState) (slot : Nat → TRef) (nslots : Nat) : List SnapEntry :=
  (List.range nslots).filterMap (snapshot_slot J slot)

/-- Add frame links at the end of the snapshot. The current PC is always the first entry. -/
def snapshot_framelinks (recorder : Recorder) : List SnapEntry × Nat :=
  (recorder.pc :: recorder.frames.flatMap Frame.links,
    recorder.frames.foldl (fun ftop frame => max ftop frame.top) recorder.ftop)

/-- Take a snapshot of the current stack. -/
def snapshot_stack (recorder : Recorder) (st : SnapState) (snapno nsnapmap : Nat) : SnapState :=
  let nslots := recorder.baseslot + recorder.maxslot
  -- Conservative estimate.
  let st := lj_snap_grow_map st (nsnapmap + nslots + (recorder.framedepth + 1))
  let entries := snapshot_slots st.J recorder.slot nslots
  let (links, top) := snapshot_framelinks recorder
  { st with
    snapmap := written (written st.snapmap nsnapmap entries) (nsnapmap + entries.length) links
    snap := update st.snap snapno
      { mapofs := u16 nsnapmap, ref := u16 st.J.nins, nslots := u8 nslots, topslot := u8 top, nent := u8 entries.length,
        count := 0 }
    nsnapmap := u16 (nsnapmap + (entries.length + links.length)) }

/-- A snapshot of its own. -/
def nomerge (recorder : Recorder) (st : SnapState) : Option SnapState :=
  (lj_snap_grow_buf st (st.nsnap + 1)).map fun st =>
    snapshot_stack recorder { st with nsnap := u16 (st.nsnap + 1), mergesnap := false, guardemit := false } st.nsnap
      st.nsnapmap

/-- Merge if no ins. inbetween or if requested and no guard inbetween. -/
def merges (st : SnapState) : Bool :=
  0 < st.nsnap && (st.snap (st.nsnap - 1)).ref == st.J.nins || st.mergesnap && !st.guardemit

/-- Add or merge a snapshot. -/
def lj_snap_add (recorder : Recorder) (st : SnapState) : Option SnapState :=
  if merges st then
    -- But preserve snap #0 PC.
    if st.nsnap = 1 then nomerge recorder { st with J := (lj_ir_emit st.J ⟨0, IRT_NIL, .nop, 0⟩).1 }
    -- There is no snapshot to merge with.
    else if st.nsnap = 0 then none
    else
      some (snapshot_stack recorder { st with mergesnap := false, guardemit := false } (st.nsnap - 1)
        (st.snap (st.nsnap - 1)).mapofs)
  else nomerge recorder st

/-- What the map of a snapshot holds, from one place to another. -/
def mapEntries (st : SnapState) (first last : Nat) : List SnapEntry := (List.range' first (last - first)).map st.snapmap

/-- Shrink the last snapshot. `used` is what the data-flow analysis of the bytecode keeps of the slots. The map is only
moved down, so an entry is read before its place is written to. -/
def lj_snap_shrink (used : Nat → Bool) (maxslot : Nat) (st : SnapState) : SnapState :=
  let snapno := st.nsnap - 1
  let snap := st.snap snapno
  let kept := (mapEntries st snap.mapofs (snap.mapofs + snap.nent)).filter fun sn => used (snap_slot sn)
  let links := mapEntries st (snap.mapofs + snap.nent) st.nsnapmap
  { st with
    snap := update st.snap snapno { snap with nslots := u8 maxslot, nent := u8 kept.length }
    snapmap := written (written st.snapmap snap.mapofs kept) (snap.mapofs + kept.length) links
    nsnapmap := u16 (snap.mapofs + (kept.length + links.length)) }

/-- Set PC to opposite target to avoid re-recording the comp. in side trace. -/
def rec_comp_fixup (npc : SnapEntry) (used : Nat → Bool) (maxslot : Nat) (st : SnapState) : SnapState :=
  let snap := st.snap (st.nsnap - 1)
  -- Shrink last snapshot if possible.
  lj_snap_shrink used maxslot { st with snapmap := update st.snapmap (snap.mapofs + snap.nent) npc }

/-- The part of `LJ_POST_FIXGUARDSNAP` for the snapshot. -/
def fixguardsnap (st : SnapState) : SnapState :=
  let snap := st.snap (st.nsnap - 1)
  let last := snap.mapofs + snap.nent - 1
  -- False -> true.
  { st with snapmap := update st.snapmap last (st.snapmap last - 1) }

/-! ## Copies for loops -/

/-- The parts of the state of `loop_unroll` that snapshots are copied with. -/
structure LoopState where
  invar : IRRef
  onsnap : Nat
  nsnapmap : Nat
  loopmap : Nat
  psentinel : Nat
  ins : IRRef
  osnap : Nat
  subst : IRRef1 → IRRef1

def SENTINEL : SnapEntry := SNAP 255 0 0

/-- The start of `loop_unroll`, behind a LOOP that is a guard. -/
def loop_unroll_start (st : SnapState) (subst : IRRef1 → IRRef1) : Option (SnapState × LoopState) :=
  let invar := st.J.nins
  let onsnap := st.nsnap
  let st := { st with J := (lj_ir_emit st.J ⟨0, IRT_NIL ||| IRT_GUARD, .loop, 0⟩).1, guardemit := true }
  (lj_snap_grow_buf st (2 * onsnap - 2)).map fun st =>
    let st := lj_snap_grow_map st (st.nsnapmap * 2 + (onsnap - 2) * (st.snap (onsnap - 1)).nent)
    let loopsnap := st.snap (onsnap - 1)
    let psentinel := loopsnap.mapofs + loopsnap.nent
    -- Replace PC with temporary sentinel. Start substitution with snapshot #1 (#0 is empty for root traces).
    ({ st with snapmap := update st.snapmap psentinel SENTINEL },
      ⟨invar, onsnap, st.nsnapmap, loopsnap.mapofs, psentinel, REF_FIRST, 1, subst⟩)

/-- A copied entry. -/
def substEntry (subst : IRRef1 → IRRef1) (osn : SnapEntry) : SnapEntry :=
  if snap_ref osn < IRRef1.of REF_BIAS then osn else snap_setref osn (subst (snap_ref osn))

/-- Substitute snapshot slots. The result is `ln`, `nn` and the map. -/
def substSlots (subst : IRRef1 → IRRef1) (omap loopmap nmap onent : Nat) :
    Nat → Nat → Nat → Nat → (Nat → SnapEntry) → Option (Nat × Nat × (Nat → SnapEntry))
  | 0, _, _, _, _ => none
  | steps + 1, n, ln, nn, map =>
      if n < onent then
        let osn := map (omap + n)
        let lsn := map (loopmap + ln)
        -- Copy slot from loop map.
        if snap_slot lsn < snap_slot osn then
          substSlots subst omap loopmap nmap onent steps n (ln + 1) (nn + 1) (update map (nmap + nn) lsn)
        -- Copy substituted slot from snapshot map.
        else
          let ln := if snap_slot lsn = snap_slot osn then ln + 1 else ln
          substSlots subst omap loopmap nmap onent steps (n + 1) ln (nn + 1)
            (update map (nmap + nn) (substEntry subst osn))
      else some (ln, nn, map)

/-- Copy remaining loop slots. The result is `nn` and the map. -/
def substRest (loopmap nmap nslots : Nat) : Nat → Nat → Nat → (Nat → SnapEntry) → Option (Nat × (Nat → SnapEntry))
  | 0, _, _, _ => none
  | steps + 1, ln, nn, map =>
      if snap_slot (map (loopmap + ln)) < nslots then
        substRest loopmap nmap nslots steps (ln + 1) (nn + 1) (update map (nmap + nn) (map (loopmap + ln)))
      else some (nn, map)

/-- Copy PC + frame links. -/
def copyLinks (omap nmap : Nat) : Nat → (Nat → SnapEntry) → Nat → SnapEntry
  | 0, map => map
  | count + 1, map => copyLinks (omap + 1) (nmap + 1) count (update map nmap (map omap))

/-- `snap_nextofs`. -/
def snap_nextofs (st : SnapState) (snapno : Nat) : Nat :=
  if snapno + 1 = st.nsnap then st.nsnapmap else (st.snap (snapno + 1)).mapofs

/-- The slots of a snapshot are less than 256. -/
def substSteps : Nat := 0x200

/-- Copy-substitute snapshot. -/
def loop_subst_snap (lps : LoopState) (st : SnapState) : Option SnapState := do
  let osnap := st.snap lps.osnap
  let nextmap := snap_nextofs st lps.osnap
  -- Guard inbetween? Otherwise overwrite previous snapshot.
  let snapno := if st.guardemit then st.nsnap else st.nsnap - 1
  let nmapofs := if st.guardemit then st.nsnapmap else (st.snap (st.nsnap - 1)).mapofs
  let nsnap := if st.guardemit then u16 (st.nsnap + 1) else st.nsnap
  let (ln, nn, map) ← substSlots lps.subst osnap.mapofs lps.loopmap nmapofs osnap.nent substSteps 0 0 0 st.snapmap
  let (nn, map) ← substRest lps.loopmap nmapofs osnap.nslots substSteps ln nn map
  let count := nextmap - (osnap.mapofs + osnap.nent)
  return { st with
    nsnap
    guardemit := false
    snap := update st.snap snapno
      { mapofs := u16 nmapofs, ref := u16 st.J.nins, nslots := osnap.nslots, topslot := osnap.topslot, nent := u8 nn,
        count := 0 }
    snapmap := copyLinks (osnap.mapofs + osnap.nent) (nmapofs + nn) count map
    nsnapmap := u16 (nmapofs + nn + count) }

/-- The end of `loop_unroll`. -/
def loop_unroll_end (lps : LoopState) (st : SnapState) : SnapState :=
  -- Drop redundant snapshot.
  let st :=
    if st.guardemit then st
    else { st with nsnap := st.nsnap - 1, nsnapmap := u16 (st.snap (st.nsnap - 1)).mapofs }
  { st with snapmap := update st.snapmap lps.psentinel (st.snapmap (st.snap 0).nent) }

/-- Undo any partial changes made by the loop optimization. -/
def loop_undo (lps : LoopState) (st : SnapState) : SnapState :=
  let snap := st.snap (lps.onsnap - 1)
  { st with
    J := lj_ir_rollback st.J lps.invar
    -- Restore PC.
    snapmap := update st.snapmap (snap.mapofs + snap.nent) (st.snapmap (st.snap 0).nent)
    nsnapmap := u16 lps.nsnapmap
    nsnap := lps.onsnap
    guardemit := false }

end TvmJit.Snap
