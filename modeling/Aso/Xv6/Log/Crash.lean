import Aso.Xv6.Log.Commit

/-! Crash atomicity of `commit` under any number of interrupted recoveries.
Two disk predicates carry the argument: the log is empty and the home blocks
hold given contents, or the log holds a complete transaction. Every prefix of
the writes of `commit` and of recovery stays inside one of them. -/
namespace Aso.Xv6.Log

/-- A transaction that `commit` may be called with: distinct home blocks
outside the log area, no more of them than the header and the log can hold. -/
structure Transaction where
  start : Nat
  size : Nat
  lh : List Nat
  distinct : lh.Nodup
  outside : ∀ b ∈ lh, b < start ∨ start + size ≤ b
  uint : ∀ b ∈ lh, b < 2 ^ 32
  header : lh.length ≤ logSize
  room : lh.length < size

namespace Transaction
variable (tx : Transaction)

/-- The on-disk log is empty and the home blocks hold `v`. -/
def Settled (v : Nat → Block) (d : Disk) : Prop :=
  (d tx.start).word 0 = 0 ∧ ∀ b ∈ tx.lh, d b = v b

/-- The on-disk log holds the whole transaction with contents `v`. -/
def Logged (v : Nat → Block) (d : Disk) : Prop :=
  (∃ hb, d tx.start = headBlock hb tx.lh) ∧
    ∀ i, (inside : i < tx.lh.length) → d (tx.start + i + 1) = v (tx.lh.get ⟨i, inside⟩)

/-- The log copies `write_log` makes, in order. -/
def copies (v : Nat → Block) (start tail : Nat) : List Nat → List (Nat × Block)
  | [] => []
  | b :: rest => (start + tail + 1, v b) :: copies v start (tail + 1) rest

def installs (v : Nat → Block) (lh : List Nat) : List (Nat × Block) := lh.map fun b => (b, v b)

variable {tx} {v w : Nat → Block} {d : Disk}

theorem copies_length (v : Nat → Block) (start tail : Nat) (lh : List Nat) :
    (copies v start tail lh).length = lh.length := by
  induction lh generalizing tail with
  | nil => rfl
  | cons b rest ih => simp [copies, ih]

theorem mem_copies {start tail : Nat} {lh : List Nat} {e : Nat × Block}
    (member : e ∈ copies v start tail lh) :
    start + tail < e.1 ∧ e.1 ≤ start + tail + lh.length := by
  induction lh generalizing tail with
  | nil => simp [copies] at member
  | cons b rest ih =>
    simp only [copies, List.mem_cons] at member
    simp only [List.length_cons]
    rcases member with rfl | member
    · constructor <;> simp only <;> omega
    · have := ih member
      omega

theorem applyWrites_copies (v : Nat → Block) (d : Disk) (start tail : Nat) (lh : List Nat) (i : Nat)
    (inside : i < lh.length) :
    applyWrites d (copies v start tail lh) (start + tail + i + 1) = v (lh.get ⟨i, inside⟩) := by
  induction lh generalizing d tail i with
  | nil => simp at inside
  | cons b rest ih =>
    rw [copies, applyWrites]
    cases i with
    | zero =>
      rw [applyWrites_other]
      · simp
      · intro e member
        have := mem_copies member
        simp only [Nat.add_zero]
        omega
    | succ i =>
      have := ih (Function.update d (start + tail + 1) (v b)) (tail + 1) i (by simpa using inside)
      rw [show start + tail + (i + 1) + 1 = start + (tail + 1) + i + 1 by omega, this]
      rfl

/-- A session step that issues exactly the writes `ws`, through the buffers. -/
structure Issues (s : Session) (ws : List (Nat × Block)) (t : Session) : Prop where
  writes : t.writes = s.writes ++ ws
  buf : t.buf = applyWrites s.buf ws

theorem Issues.refl (s : Session) : Issues s [] s := ⟨by simp, rfl⟩

theorem Issues.trans {s t u : Session} {first second : List (Nat × Block)}
    (left : Issues s first t) (right : Issues t second u) : Issues s (first ++ second) u where
  writes := by rw [right.writes, left.writes, List.append_assoc]
  buf := by rw [right.buf, left.buf, applyWrites_append]

theorem bwrite_issues (b : Nat) (data : Block) (s : Session) :
    Issues s [(b, data)] (bwrite b data s) :=
  ⟨rfl, rfl⟩

theorem writeLogFrom_issues (start tail : Nat) (lh : List Nat) (s : Session)
    (contents : ∀ b ∈ lh, s.buf b = v b)
    (apart : ∀ b ∈ lh, b ≤ start + tail ∨ start + tail + lh.length < b) :
    Issues s (copies v start tail lh) (writeLogFrom start tail lh s) ∧
      (writeLogFrom start tail lh s).lh = s.lh := by
  induction lh generalizing tail s with
  | nil => exact ⟨.refl s, rfl⟩
  | cons b rest ih =>
    simp only [List.length_cons] at apart
    have head : s.buf b = v b := contents b List.mem_cons_self
    obtain ⟨issued, lh⟩ := ih (tail + 1) (bwrite (start + tail + 1) (s.buf b) s)
      (fun c member => by
        -- the blocks still to be copied are not the log block just written
        have := apart c (List.mem_cons_of_mem _ member)
        rw [bwrite_buf_other (by omega)]
        exact contents c (List.mem_cons_of_mem _ member))
      (fun c member => by have := apart c (List.mem_cons_of_mem _ member); omega)
    refine ⟨?_, lh⟩
    have first := bwrite_issues (start + tail + 1) (s.buf b) s
    rw [head] at first issued
    simpa only [copies, writeLogFrom, head, List.singleton_append] using first.trans issued

theorem installFrom_issues (start tail : Nat) (lh : List Nat) (s : Session)
    (contents : ∀ i, (inside : i < lh.length) →
      s.buf (start + tail + i + 1) = v (lh.get ⟨i, inside⟩))
    (apart : ∀ b ∈ lh, b ≤ start + tail ∨ start + tail + lh.length < b) :
    Issues s (installs v lh) (installFrom start tail lh s) ∧
      (installFrom start tail lh s).lh = s.lh := by
  induction lh generalizing tail s with
  | nil => exact ⟨.refl s, rfl⟩
  | cons b rest ih =>
    simp only [List.length_cons] at apart
    have head : s.buf (start + tail + 1) = v b := contents 0 (by simp)
    have here := apart b List.mem_cons_self
    obtain ⟨issued, lh⟩ := ih (tail + 1) (bwrite b (s.buf (start + tail + 1)) s)
      (fun i inside => by
        -- the home block just written is not one of the log copies
        rw [bwrite_buf_other (by omega)]
        have := contents (i + 1) (by simpa using inside)
        rw [show start + (tail + 1) + i + 1 = start + tail + (i + 1) + 1 by omega, this]
        rfl)
      (fun c member => by have := apart c (List.mem_cons_of_mem _ member); omega)
    refine ⟨?_, lh⟩
    have first := bwrite_issues b (s.buf (start + tail + 1)) s
    rw [head] at first issued
    simpa only [installs, List.map_cons, installFrom, head, List.singleton_append]
      using first.trans issued

theorem apart (tx : Transaction) :
    ∀ b ∈ tx.lh, b ≤ tx.start + 0 ∨ tx.start + 0 + tx.lh.length < b := by
  intro b member
  have := tx.outside b member
  have := tx.room
  omega

/-- The four phases of `commit`, as one list of writes. -/
theorem commit_writes (tx : Transaction) {s : Session} (lh : s.lh = tx.lh) (fresh : s.writes = [])
    (nonempty : 0 < tx.lh.length) : ∃ hb₁ hb₂,
    (commit tx.start s).writes = copies s.buf tx.start 0 tx.lh ++
      ([(tx.start, headBlock hb₁ tx.lh)] ++
        (installs s.buf tx.lh ++ [(tx.start, headBlock hb₂ [])])) := by
  obtain ⟨logged, logLh⟩ := writeLogFrom_issues tx.start 0 tx.lh s (fun _ _ => rfl) tx.apart
  rw [← lh, ← writeLog, lh] at logged logLh
  have head := bwrite_issues tx.start (headBlock ((writeLog tx.start s).buf tx.start) tx.lh)
    (writeLog tx.start s)
  have headEq :
      bwrite tx.start (headBlock ((writeLog tx.start s).buf tx.start) tx.lh) (writeLog tx.start s) =
      writeHead tx.start (writeLog tx.start s) := by rw [writeHead, logLh]
  rw [headEq] at head
  have headLh : (writeHead tx.start (writeLog tx.start s)).lh = tx.lh := logLh
  obtain ⟨installed, -⟩ :=
    installFrom_issues tx.start 0 tx.lh (writeHead tx.start (writeLog tx.start s))
    (fun i inside => by
      rw [writeHead, bwrite_buf_other (by omega), logged.buf]
      exact applyWrites_copies s.buf s.buf tx.start 0 tx.lh i inside)
    tx.apart
  rw [← headLh, ← installTrans, headLh] at installed
  refine ⟨(writeLog tx.start s).buf tx.start,
    (installTrans tx.start (writeHead tx.start (writeLog tx.start s))).buf tx.start, ?_⟩
  have all := (logged.trans (head.trans installed)).writes
  rw [commit, if_pos (by rw [lh]; exact nonempty)]
  simp only [writeHead, clear, bwrite] at all ⊢
  rw [all, fresh]
  simp only [List.nil_append, List.append_assoc]

theorem recovery_settled (settled : tx.Settled v d) :
    recoveryWrites tx.start d = [(tx.start, headBlock (d tx.start) [])] := by
  have empty : (readHead tx.start (boot d)).lh = [] := readHead_empty settled.1
  have none : installTrans tx.start (readHead tx.start (boot d)) = readHead tx.start (boot d) := by
    rw [installTrans, empty, installFrom]
  simp only [recoveryWrites, recoverFromLog, none, writeHead, clear, bwrite]
  rfl

theorem recovery_logged (logged : tx.Logged v d) : ∃ hb,
    recoveryWrites tx.start d = installs v tx.lh ++ [(tx.start, headBlock hb [])] := by
  obtain ⟨⟨hb, header⟩, stored⟩ := logged
  have lh : (readHead tx.start (boot d)).lh = tx.lh := readHead_headBlock tx.header tx.uint header
  obtain ⟨installed, -⟩ :=
    installFrom_issues tx.start 0 tx.lh (readHead tx.start (boot d)) stored tx.apart
  rw [← lh, ← installTrans, lh] at installed
  refine ⟨(installTrans tx.start (readHead tx.start (boot d))).buf tx.start, ?_⟩
  have all := installed.writes
  simp only [recoveryWrites, recoverFromLog, writeHead, clear, bwrite] at all ⊢
  rw [all]
  rfl

/-! What each disk predicate survives. -/

theorem start_not_home (tx : Transaction) : tx.start ∉ tx.lh := by
  intro member
  have := tx.outside _ member
  have := tx.room
  omega

theorem settled_head (settled : tx.Settled v d) (hb : Block) :
    tx.Settled v (applyWrites d [(tx.start, headBlock hb [])]) := by
  refine ⟨?_, fun b member => ?_⟩
  · simp only [applyWrites, Function.update_self]
    exact headBlock_word_zero hb (by simp)
  · have : b ≠ tx.start := fun same => tx.start_not_home (same ▸ member)
    simpa only [applyWrites, Function.update_of_ne this] using settled.2 b member

/-- Installing any number of home blocks keeps the logged transaction. -/
theorem logged_installs (logged : tx.Logged v d) (k : Nat) :
    tx.Logged v (applyWrites d ((installs v tx.lh).take k)) := by
  have home : ∀ e ∈ (installs v tx.lh).take k, e.1 ∈ tx.lh := by
    intro e member
    obtain ⟨b, home, rfl⟩ := List.mem_map.mp (List.mem_of_mem_take member)
    exact home
  obtain ⟨header, stored⟩ := logged
  constructor
  · rwa [applyWrites_other]
    exact fun e member same => tx.start_not_home (same ▸ home e member)
  · intro i inside
    rw [applyWrites_other, stored i inside]
    intro e member same
    have := tx.outside _ (home e member)
    have := tx.room
    omega

theorem installs_settle (hb : Block) :
    tx.Settled v (applyWrites d (installs v tx.lh ++ [(tx.start, headBlock hb [])])) := by
  rw [applyWrites_append]
  refine ⟨?_, fun b member => ?_⟩
  · simp only [applyWrites, Function.update_self]
    exact headBlock_word_zero hb (by simp)
  · have : b ≠ tx.start := fun same => tx.start_not_home (same ▸ member)
    rw [applyWrites, applyWrites, Function.update_of_ne this]
    apply applyWrites_agree
    · intro e issued
      obtain ⟨b, -, rfl⟩ := List.mem_map.mp issued
      rfl
    · left
      simpa [installs] using member

theorem settled_cut (settled : tx.Settled v d) (k : Nat) :
    tx.Settled v (applyWrites d ((recoveryWrites tx.start d).take k)) := by
  rw [recovery_settled settled]
  cases k with
  | zero => exact settled
  | succ k =>
    rw [List.take_succ_cons, List.take_nil]
    exact settled_head settled _

theorem logged_cut (logged : tx.Logged v d) (k : Nat) :
    tx.Logged v (applyWrites d ((recoveryWrites tx.start d).take k)) ∨
      tx.Settled v (applyWrites d ((recoveryWrites tx.start d).take k)) := by
  obtain ⟨hb, writes⟩ := recovery_logged logged
  rw [writes]
  by_cases inside : k ≤ (installs v tx.lh).length
  · rw [List.take_append_of_le_length inside]
    exact .inl (logged_installs logged k)
  · rw [List.take_of_length_le (by rw [List.length_append, List.length_singleton]; omega)]
    exact .inr (installs_settle hb)

theorem interrupted_settled (settled : tx.Settled v d) (attempts : List Nat) :
    tx.Settled v (interrupted tx.start d attempts) := by
  induction attempts generalizing d with
  | nil => exact settled
  | cons k rest ih => exact ih (settled_cut settled k)

theorem interrupted_logged (logged : tx.Logged v d) (attempts : List Nat) :
    tx.Logged v (interrupted tx.start d attempts) ∨
      tx.Settled v (interrupted tx.start d attempts) := by
  induction attempts generalizing d with
  | nil => exact .inl logged
  | cons k rest ih =>
    rcases logged_cut logged k with logged | settled
    · exact ih logged
    · exact .inr (interrupted_settled settled rest)

theorem recovered_settled (settled : tx.Settled v d) : tx.Settled v (recovered tx.start d) := by
  rw [recovered, recovery_settled settled]
  exact settled_head settled _

theorem recovered_logged (logged : tx.Logged v d) : tx.Settled v (recovered tx.start d) := by
  obtain ⟨hb, writes⟩ := recovery_logged logged
  rw [recovered, writes]
  exact installs_settle hb

/-- Before the header write the home blocks are untouched and the log is
still empty. -/
theorem commit_cut_old (empty : (d tx.start).word 0 = 0) (k : Nat) :
    tx.Settled d (applyWrites d ((copies v tx.start 0 tx.lh).take k)) := by
  refine ⟨?_, fun b member => ?_⟩
  · rwa [applyWrites_other]
    intro e member same
    have := mem_copies (List.mem_of_mem_take member)
    omega
  · apply applyWrites_other
    intro e issued same
    have := mem_copies (List.mem_of_mem_take issued)
    have := tx.outside b member
    have := tx.room
    omega

theorem commit_cut_logged (hb : Block) :
    tx.Logged v
      (applyWrites d (copies v tx.start 0 tx.lh ++ [(tx.start, headBlock hb tx.lh)])) := by
  rw [applyWrites_append]
  refine ⟨⟨hb, by simp [applyWrites]⟩, fun i inside => ?_⟩
  rw [applyWrites, applyWrites, Function.update_of_ne (by omega)]
  exact applyWrites_copies v d tx.start 0 tx.lh i inside

/-- A crash after `k` writes of `commit`, seen through the phase it falls in. -/
theorem commit_cut (tx : Transaction) {s : Session} (lh : s.lh = tx.lh) (fresh : s.writes = [])
    (nonempty : 0 < tx.lh.length) (empty : (d tx.start).word 0 = 0) (k : Nat) :
    (k ≤ tx.lh.length ∧ tx.Settled d (applyWrites d ((commit tx.start s).writes.take k))) ∨
      tx.Logged s.buf (applyWrites d ((commit tx.start s).writes.take k)) ∨
      tx.Settled s.buf (applyWrites d ((commit tx.start s).writes.take k)) := by
  obtain ⟨hb₁, hb₂, writes⟩ := commit_writes tx lh fresh nonempty
  rw [writes]
  have size : (copies s.buf tx.start 0 tx.lh).length = tx.lh.length := copies_length ..
  by_cases log : k ≤ tx.lh.length
  · rw [List.take_append_of_le_length (by omega)]
    exact .inl ⟨log, commit_cut_old empty k⟩
  · obtain ⟨j, rfl⟩ : ∃ j, k = tx.lh.length + (j + 1) := ⟨k - tx.lh.length - 1, by omega⟩
    have logged : tx.Logged s.buf
        (applyWrites d (copies s.buf tx.start 0 tx.lh ++ [(tx.start, headBlock hb₁ tx.lh)])) :=
      commit_cut_logged hb₁
    rw [List.take_append, List.take_of_length_le (by omega), size, Nat.add_sub_cancel_left,
      List.singleton_append, List.take_succ_cons, ← List.singleton_append, ← List.append_assoc,
      applyWrites_append]
    by_cases install : j ≤ (installs s.buf tx.lh).length
    · rw [List.take_append_of_le_length install]
      exact .inr (.inl (logged_installs logged j))
    · rw [List.take_of_length_le (by rw [List.length_append, List.length_singleton]; omega)]
      exact .inr (.inr (installs_settle hb₂))

/-- Crash atomicity. The machine stops after `k` writes of `commit`, recovery
is cut short any number of times and then completes: the log is empty and the
home blocks are all old or all new, and new as soon as the header write of
`commit`, its write number `tx.lh.length`, had reached the disk. -/
theorem crash_atomic (tx : Transaction) (s : Session) (d : Disk) (lh : s.lh = tx.lh)
    (fresh : s.writes = []) (quiet : Quiet tx.start d) (k : Nat) (attempts : List Nat) :
    let crashed := applyWrites d ((commit tx.start s).writes.take k)
    let final := recovered tx.start (interrupted tx.start crashed attempts)
    (final tx.start).word 0 = 0 ∧
      ((∀ b ∈ tx.lh, final b = d b) ∨ ∀ b ∈ tx.lh, final b = s.buf b) ∧
      (tx.lh.length < k → ∀ b ∈ tx.lh, final b = s.buf b) := by
  intro crashed final
  have empty := quiet.empty
  by_cases nonempty : 0 < tx.lh.length
  · rcases commit_cut tx lh fresh nonempty empty k with ⟨before, settled⟩ | logged | settled
    · have last := recovered_settled (interrupted_settled settled attempts)
      exact ⟨last.1, .inl last.2, fun after => by omega⟩
    · have last : tx.Settled s.buf final := by
        rcases interrupted_logged logged attempts with logged | settled
        · exact recovered_logged logged
        · exact recovered_settled settled
      exact ⟨last.1, .inr last.2, fun _ => last.2⟩
    · have last := recovered_settled (interrupted_settled settled attempts)
      exact ⟨last.1, .inr last.2, fun _ => last.2⟩
  · -- an empty transaction issues no write at all
    have none : tx.lh = [] := List.length_eq_zero_iff.mp (by omega)
    have idle : crashed = d := by
      simp only [crashed, commit, lh, none, List.length_nil, lt_self_iff_false, if_false, fresh,
        List.take_nil, applyWrites]
    have settled : tx.Settled d crashed := ⟨by rw [idle]; exact empty, by simp [none]⟩
    have last := recovered_settled (interrupted_settled settled attempts)
    exact ⟨last.1, .inl last.2, by simp [none]⟩

/-- Two blocks rewritten on a disk of zeroes, in the log that mkfs lays out. -/
def twoBlocks : Transaction where
  start := 2
  size := 30
  lh := [100, 101]
  distinct := by decide
  outside := by decide
  uint := by decide
  header := by decide
  room := by decide

/-- The crash comes when one of them is installed, and recovery is cut short twice. -/
theorem crash_atomic_header_written :
    let buf : Nat → Block := fun b _ => if b = 100 then 1 else 2
    let crashed := applyWrites (recovered 2 fun _ => Bytes.zero)
      ((commit 2 ⟨buf, [100, 101], []⟩).writes.take 4)
    let final := recovered 2 (interrupted 2 crashed [1, 0])
    final 100 = (fun _ => 1) ∧ final 101 = fun _ => 2 := by
  intro buf crashed final
  have new :=
    (crash_atomic twoBlocks ⟨buf, [100, 101], []⟩ (recovered 2 fun _ => Bytes.zero) rfl rfl
    (.booted _) 4 [1, 0]).2.2 (by decide)
  exact ⟨new 100 (by decide), new 101 (by decide)⟩

end Transaction
end Aso.Xv6.Log
