import Aso.Bytes
import Aso.Xv6.Param

/-! The disk traffic of log.c. A session holds what `bread` returns, the
in-memory header and every `bwrite` issued so far; after a crash only a prefix
of these writes has reached the disk and the buffers start again from it. -/
namespace Aso.Xv6.Log

abbrev Block := Bytes bsize
abbrev Disk := Nat → Block

/-- The disk after a list of single-block writes, oldest first. -/
def applyWrites (d : Disk) : List (Nat × Block) → Disk
  | [] => d
  | (b, data) :: rest => applyWrites (Function.update d b data) rest

structure Session where
  buf : Nat → Block
  /-- `log.lh.block[0 .. log.lh.n)`. -/
  lh : List Nat
  writes : List (Nat × Block)

/-- Store `data` in the buffer of block `b` and write it through. -/
def bwrite (b : Nat) (data : Block) (s : Session) : Session :=
  { s with buf := Function.update s.buf b data, writes := s.writes ++ [(b, data)] }

def putBlocks (hb : Block) (i : Nat) : List Nat → Block
  | [] => hb
  | b :: rest => putBlocks (hb.setWord (i + 1) b) (i + 1) rest

/-- `hb->n` and `hb->block[0 .. n)`; the rest of the old header block stays. -/
def headBlock (hb : Block) (lh : List Nat) : Block := putBlocks (hb.setWord 0 lh.length) 0 lh

def writeHead (start : Nat) (s : Session) : Session :=
  bwrite start (headBlock (s.buf start) s.lh) s

def readHead (start : Nat) (s : Session) : Session :=
  let hb := s.buf start
  { s with lh := (List.range (int32 (hb.word 0)).toNat).map fun i => hb.word (i + 1) }

def installFrom (start tail : Nat) : List Nat → Session → Session
  | [], s => s
  | b :: rest, s => installFrom start (tail + 1) rest (bwrite b (s.buf (start + tail + 1)) s)

def installTrans (start : Nat) (s : Session) : Session := installFrom start 0 s.lh s

def writeLogFrom (start tail : Nat) : List Nat → Session → Session
  | [], s => s
  | b :: rest, s => writeLogFrom start (tail + 1) rest (bwrite (start + tail + 1) (s.buf b) s)

def writeLog (start : Nat) (s : Session) : Session := writeLogFrom start 0 s.lh s

def clear (s : Session) : Session := { s with lh := [] }

def recoverFromLog (start : Nat) (s : Session) : Session :=
  writeHead start (clear (installTrans start (readHead start s)))

def commit (start : Nat) (s : Session) : Session :=
  if 0 < s.lh.length then
    writeHead start (clear (installTrans start (writeHead start (writeLog start s))))
  else s

/-- Boot on disk `d`: nothing is cached yet. -/
def boot (d : Disk) : Session := ⟨d, [], []⟩

/-- The writes of one complete recovery from disk `d`. -/
def recoveryWrites (start : Nat) (d : Disk) : List (Nat × Block) :=
  (recoverFromLog start (boot d)).writes

/-- Recoveries cut short after the given numbers of writes, one after another. -/
def interrupted (start : Nat) : Disk → List Nat → Disk
  | d, [] => d
  | d, k :: rest => interrupted start (applyWrites d ((recoveryWrites start d).take k)) rest

def recovered (start : Nat) (d : Disk) : Disk := applyWrites d (recoveryWrites start d)

/-- Disks between transactions: after the recovery in `initlog`, and after
every commit that ran to its end. -/
inductive Quiet (start : Nat) : Disk → Prop where
  | booted (d : Disk) : Quiet start (recovered start d)
  | committed {d : Disk} {s : Session} (quiet : Quiet start d) (fresh : s.writes = []) :
      Quiet start (applyWrites d (commit start s).writes)

/-! Writes and their replay. -/

theorem applyWrites_append (d : Disk) (first second : List (Nat × Block)) :
    applyWrites d (first ++ second) = applyWrites (applyWrites d first) second := by
  induction first generalizing d with
  | nil => rfl
  | cons w rest ih => exact ih _

theorem applyWrites_other {d : Disk} {writes : List (Nat × Block)} {b : Nat}
    (untouched : ∀ w ∈ writes, w.1 ≠ b) : applyWrites d writes b = d b := by
  induction writes generalizing d with
  | nil => rfl
  | cons w rest ih =>
    rw [applyWrites, ih (fun w member => untouched w (List.mem_cons_of_mem _ member)),
      Function.update_of_ne (Ne.symm (untouched w List.mem_cons_self))]

/-- Repeating writes that all agree with `v` leaves `v` on every block written. -/
theorem applyWrites_agree {d : Disk} {v : Nat → Block} {writes : List (Nat × Block)} {b : Nat}
    (agree : ∀ w ∈ writes, w.2 = v w.1) (touched : b ∈ writes.map Prod.fst ∨ d b = v b) :
    applyWrites d writes b = v b := by
  induction writes generalizing d with
  | nil => simpa [applyWrites] using touched
  | cons w rest ih =>
    rw [applyWrites]
    apply ih (fun w member => agree w (List.mem_cons_of_mem _ member))
    by_cases same : b = w.1
    · right
      rw [same, Function.update_self]
      exact agree w List.mem_cons_self
    · rw [Function.update_of_ne same]
      simpa [same] using touched

theorem bwrite_buf_other {b c : Nat} {data : Block} {s : Session} (other : c ≠ b) :
    (bwrite b data s).buf c = s.buf c := Function.update_of_ne other _ _

/-! The header block as read back. -/

theorem putBlocks_word_low (hb : Block) (i j : Nat) (blocks : List Nat) (low : j ≤ i) :
    (putBlocks hb i blocks).word j = hb.word j := by
  induction blocks generalizing hb i with
  | nil => rfl
  | cons b rest ih => rw [putBlocks, ih _ _ (by omega), Bytes.word_setWord_other _ (by omega)]

theorem putBlocks_word (hb : Block) (i j : Nat) {blocks : List Nat} (inside : j < blocks.length)
    (room : i + blocks.length < 128) (fits : ∀ b ∈ blocks, b < 2 ^ 32) :
    (putBlocks hb i blocks).word (i + j + 1) = blocks.get ⟨j, inside⟩ := by
  induction blocks generalizing hb i j with
  | nil => simp at inside
  | cons b rest ih =>
    simp only [List.length_cons] at inside room
    rw [putBlocks]
    cases j with
    | zero =>
      rw [putBlocks_word_low _ _ _ _ (by omega), Nat.add_zero]
      exact Bytes.word_setWord_same _ (by simp only [bsize]; omega) (fits b List.mem_cons_self)
    | succ j =>
      have := ih (hb.setWord (i + 1) b) (i + 1) j (by omega) (by omega)
        (fun b member => fits b (List.mem_cons_of_mem _ member))
      rw [show i + (j + 1) + 1 = i + 1 + j + 1 by omega, this]
      rfl

theorem headBlock_word_zero (hb : Block) {lh : List Nat} (short : lh.length < 2 ^ 32) :
    (headBlock hb lh).word 0 = lh.length := by
  rw [headBlock, putBlocks_word_low _ _ _ _ (Nat.le_refl _)]
  exact Bytes.word_setWord_same _ (by simp [bsize]) short

/-- Both `commit` and recovery end by erasing the transaction from the log. -/
theorem erased_empty (d : Disk) (start : Nat) (s : Session) :
    (applyWrites d (writeHead start (clear s)).writes start).word 0 = 0 := by
  simp only [writeHead, clear, bwrite, applyWrites_append, applyWrites, Function.update_self]
  exact headBlock_word_zero _ (by simp)

theorem Quiet.empty {start : Nat} {d : Disk} (quiet : Quiet start d) : (d start).word 0 = 0 := by
  induction quiet with
  | booted d => exact erased_empty d start _
  | @committed d s quiet fresh ih =>
    rw [commit]
    split
    · exact erased_empty d start _
    · simpa only [fresh, applyWrites] using ih

/-- The header read back is the header written, for every transaction that
fits in the header block. -/
theorem readHead_headBlock {start : Nat} {s : Session} {hb : Block} {lh : List Nat}
    (short : lh.length ≤ logSize) (fits : ∀ b ∈ lh, b < 2 ^ 32)
    (stored : s.buf start = headBlock hb lh) : (readHead start s).lh = lh := by
  have small : lh.length ≤ 30 := by simpa [logSize, maxOpBlocks] using short
  have count : (int32 ((s.buf start).word 0)).toNat = lh.length := by
    rw [stored, headBlock_word_zero hb (by omega), int32, if_pos (by omega), Int.toNat_natCast]
  simp only [readHead, count]
  apply List.ext_getElem
  · simp
  · intro i h₁ h₂
    simp only [List.getElem_map, List.getElem_range, stored, headBlock]
    have := putBlocks_word (hb.setWord 0 lh.length) 0 i h₂ (by omega) fits
    simpa only [Nat.zero_add, List.get_eq_getElem] using this

theorem readHead_empty {start : Nat} {s : Session} (empty : (s.buf start).word 0 = 0) :
    (readHead start s).lh = [] := by
  simp [readHead, empty, int32]

end Aso.Xv6.Log
