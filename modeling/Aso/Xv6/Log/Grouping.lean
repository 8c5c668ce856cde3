import Aso.Xv6.Log.Machine

/-! Commits and operations. One invariant ties `outstanding` to the processes
inside an operation, the in-memory header to the blocks logged since the last
commit, and the progress of a running commit to the header it started from. -/
namespace Aso.Xv6.Log
open Transition

/-- The blocks of `lh` are those logged by the operations `ops`. -/
def Covers (lh : List Nat) (ops : List (List Nat)) : Prop := ∀ b, b ∈ lh ↔ ∃ op ∈ ops, b ∈ op

/-- The commit copied, named in its header and installed each block of its
operations exactly once. -/
structure Commit.Exact (c : Commit) : Prop where
  distinct : c.installed.Nodup
  copied : c.copied = c.installed
  header : c.header = c.installed
  covers : Covers c.installed c.ops

/-- How far a running commit has come. -/
def Stage (lh : List Nat) (c : Commit) : Pc → Prop
  | .commit => Covers lh c.ops ∧ c.copied = [] ∧ c.header = [] ∧ c.installed = []
  | .writeLog tail => Covers lh c.ops ∧ c.copied = lh.take tail ∧ c.installed = []
  | .writeHead => Covers lh c.ops ∧ c.copied = lh ∧ c.installed = []
  | .install tail => Covers lh c.ops ∧ c.copied = lh ∧ c.header = lh ∧ c.installed = lh.take tail
  | .clearHead | .finish => lh = [] ∧ c.Exact
  | _ => True

structure Inv (s : State) : Prop where
  active : ∃ ps : List Nat, ps.Nodup ∧ (∀ q, q ∈ ps ↔ (s.pc q).inOp = true) ∧
    s.outstanding = ps.length
  committer : ∀ q, (s.pc q).inCommit = true → s.committing = true
  unique : ∀ p q, (s.pc p).inCommit = true → (s.pc q).inCommit = true → p = q
  quiet : s.committing = true → s.outstanding = 0
  logged : ∀ q, (s.pc q).inOp = false → s.logged q = []
  distinct : s.lh.Nodup
  blocks : s.committing = false → ∀ b, b ∈ s.lh ↔ (∃ op ∈ s.ended, b ∈ op) ∨ ∃ q, b ∈ s.logged q
  since : s.committing = false → ∀ b, b ∈ s.lh ↔ b ∈ s.since
  ended : s.committing = true → s.ended = [] ∧ s.since = []
  current : s.committing = false → s.current = .start []
  stage : ∀ q, (s.pc q).inCommit = true → Stage s.lh s.current (s.pc q)
  commits : ∀ c ∈ s.commits, c.Exact
  history : s.history = s.commits.flatMap Commit.ops ++ s.current.ops ++ s.ended
  panic : s.panic ≠ some .committing ∧ s.panic ≠ some .outsideTrans

theorem inv_initlog (size : Nat) : Inv (initlog size) where
  active := ⟨[], by simp [initlog, Pc.inOp]⟩
  committer := by simp [initlog, Pc.inCommit]
  unique := by simp [initlog, Pc.inCommit]
  quiet := by simp [initlog]
  logged := by simp [initlog]
  distinct := by simp [initlog]
  blocks := by simp [initlog]
  since := by simp [initlog]
  ended := by simp [initlog]
  current := by simp [initlog]
  stage := by simp [initlog, Pc.inCommit]
  commits := by simp [initlog]
  history := by simp [initlog, Commit.start]
  panic := by simp [initlog]

/-- A block of some operation in progress is one of `p` or of another one. -/
theorem exists_mem_update (logged : Nat → List Nat) (p : Nat) (new : List Nat) (b : Nat) :
    (∃ q, b ∈ Function.update logged p new q) ↔ b ∈ new ∨ ∃ q, q ≠ p ∧ b ∈ logged q := by
  constructor
  · rintro ⟨q, member⟩
    obtain rfl | other := eq_or_ne q p
    · exact .inl (by simpa using member)
    · exact .inr ⟨q, other, by simpa [other] using member⟩
  · rintro (member | ⟨q, other, member⟩)
    · exact ⟨p, by simpa using member⟩
    · exact ⟨q, by simpa [other] using member⟩

theorem exists_mem_logged (logged : Nat → List Nat) (p b : Nat) :
    (∃ q, b ∈ logged q) ↔ b ∈ logged p ∨ ∃ q, q ≠ p ∧ b ∈ logged q := by
  have split := exists_mem_update logged p (logged p) b
  rwa [Function.update_eq_self] at split

namespace Inv
variable {s t : State} {p b : Nat}

/-- A process inside an operation keeps `outstanding` positive, so nobody is
committing. -/
theorem running_excludes (inv : Inv s) (inside : (s.pc p).inOp = true) :
    s.committing = false ∧ 1 ≤ s.outstanding := by
  obtain ⟨ps, -, members, count⟩ := inv.active
  have : 0 < ps.length := List.length_pos_of_mem ((members p).mpr inside)
  have positive : 1 ≤ s.outstanding := by omega
  refine ⟨?_, positive⟩
  cases committing : s.committing with
  | false => rfl
  | true =>
    have := inv.quiet committing
    omega

theorem no_commit (inv : Inv s) (idle : s.committing = false) (q : Nat) :
    (s.pc q).inCommit = false := by
  cases inside : (s.pc q).inCommit with
  | false => rfl
  | true => simpa [idle] using inv.committer q inside

theorem committing_excludes (inv : Inv s) (committing : s.committing = true) (q : Nat) :
    (s.pc q).inOp = false := by
  cases inside : (s.pc q).inOp with
  | false => rfl
  | true =>
    have := (inv.running_excludes inside).1
    simp [committing] at this

/-- Nobody is committing once `p`, who alone could be, is elsewhere. -/
theorem no_commit_setPc {c : Pc} (others : ∀ q, q ≠ p → (s.pc q).inCommit = false)
    (outside : c.inCommit = false) (q : Nat) : ((s.setPc p c).pc q).inCommit = false := by
  obtain rfl | other := eq_or_ne q p
  · simpa [State.setPc] using outside
  · simpa [State.setPc, other] using others q other

/-- Program counters may change within one side of the operation boundary;
those of committers may not. -/
theorem relabel (inv : Inv s) {pc : Nat → Pc} (op : ∀ q, (pc q).inOp = (s.pc q).inOp)
    (commit : ∀ q, (pc q).inCommit = (s.pc q).inCommit)
    (still : ∀ q, (s.pc q).inCommit = true → pc q = s.pc q) : Inv { s with pc := pc } := by
  obtain ⟨ps, distinct, members, count⟩ := inv.active
  refine { inv with
    active := ⟨ps, distinct, fun q => (members q).trans (by rw [op q]), count⟩
    committer := fun q inside => inv.committer q (commit q ▸ inside)
    unique := fun p q left right => inv.unique p q (commit p ▸ left) (commit q ▸ right)
    logged := fun q outside => inv.logged q (op q ▸ outside)
    stage := fun q inside => ?_ }
  have inside : (s.pc q).inCommit = true := commit q ▸ inside
  simpa only [still q inside] using inv.stage q inside

theorem move (inv : Inv s) {c : Pc} (sameOp : c.inOp = (s.pc p).inOp)
    (apart : (s.pc p).inCommit = false) (still : c.inCommit = false) : Inv (s.setPc p c) := by
  apply inv.relabel
  · intro q
    by_cases same : q = p
    · subst q
      simpa using sameOp
    · simp [same]
  · intro q
    by_cases same : q = p
    · subst q
      simp [apart, still]
    · simp [same]
  · intro q inside
    have other : q ≠ p := by
      rintro rfl
      simp [apart] at inside
    simp [other]

theorem wakeup (inv : Inv s) : Inv s.wakeup := by
  apply inv.relabel
  · intro q
    by_cases asleep : s.pc q = .sleeping <;> simp [asleep, Pc.inOp]
  · intro q
    by_cases asleep : s.pc q = .sleeping <;> simp [asleep, Pc.inCommit]
  · intro q inside
    have awake : s.pc q ≠ .sleeping := by
      intro asleep
      simp [asleep, Pc.inCommit] at inside
    simp [awake]

theorem panics (inv : Inv s) {reason : Panic}
    (real : reason ≠ .committing ∧ reason ≠ .outsideTrans) : Inv (s.panics reason) :=
  { inv with panic := by simpa [State.panics] using real }

/-- Entering an operation counts it. -/
theorem enter (inv : Inv s) (here : s.pc p = .entering) : Inv (s.enter p) := by
  have asleep : Inv (s.setPc p .sleeping) := inv.move (by simp [here, Pc.inOp])
    (by simp [here, Pc.inCommit]) (by simp [Pc.inCommit])
  unfold State.enter
  split
  · exact asleep
  · split
    · exact asleep
    · rename_i idle _
      have idle : s.committing = false := by simpa using idle
      obtain ⟨ps, distinct, members, count⟩ := inv.active
      have fresh : p ∉ ps := by simp [members, here, Pc.inOp]
      have pcs : ∀ q, ((s.setPc p .running).pc q).inCommit = false :=
        no_commit_setPc (fun q _ => inv.no_commit idle q) rfl
      exact { inv with
        active := ⟨p :: ps, List.nodup_cons.mpr ⟨fresh, distinct⟩, fun q => by
          by_cases same : q = p <;> simp [State.setPc, same, Pc.inOp, members], by simp [count]⟩
        committer := fun q inside => by simp [pcs q] at inside
        unique := fun q r inside => by simp [pcs q] at inside
        quiet := fun committing => by simp [State.setPc, idle] at committing
        logged := fun q outside => by
          by_cases same : q = p
          · simp [State.setPc, same, Pc.inOp] at outside
          · exact inv.logged q (by simpa [State.setPc, same] using outside)
        stage := fun q inside => by simp [pcs q] at inside }

theorem testSize (inv : Inv s) (here : s.pc p = .running) : Inv (s.testSize p b) := by
  unfold State.testSize
  split
  · exact inv.panics (by decide)
  · exact inv.move (by simp [here, Pc.inOp]) (by simp [here, Pc.inCommit]) (by simp [Pc.inCommit])

theorem testOutstanding (inv : Inv s) (here : s.pc p = .sized b) : Inv (s.testOutstanding p b) := by
  have := (inv.running_excludes (p := p) (by simp [here, Pc.inOp])).2
  rw [State.testOutstanding, if_neg (by omega)]
  exact inv.move (by simp [here, Pc.inOp]) (by simp [here, Pc.inCommit]) (by simp [Pc.inCommit])

/-- Logging `b` puts it in the header once and in the operation's history. -/
theorem absorb (inv : Inv s) (here : s.pc p = .tested b) : Inv (s.absorb p b) := by
  obtain ⟨idle, -⟩ := inv.running_excludes (p := p) (by simp [here, Pc.inOp])
  have moved : Inv (s.setPc p .running) := inv.move (by simp [here, Pc.inOp])
    (by simp [here, Pc.inCommit]) (by simp [Pc.inCommit])
  have nobody : ∀ q, ((s.setPc p .running).pc q).inCommit = false := moved.no_commit idle
  have outsider : ∀ q, ((s.setPc p .running).pc q).inOp = false →
      Function.update s.logged p (s.logged p ++ [b]) q = [] := by
    intro q outside
    have other : q ≠ p := by
      rintro rfl
      simp [State.setPc, Pc.inOp] at outside
    rw [Function.update_of_ne other]
    exact moved.logged q outside
  -- the histories of the operations gain exactly `b`
  have grown (c : Nat) : (∃ q, c ∈ Function.update s.logged p (s.logged p ++ [b]) q) ↔
      (∃ q, c ∈ s.logged q) ∨ c = b := by
    rw [exists_mem_update, exists_mem_logged s.logged p, List.mem_append, List.mem_singleton,
      or_right_comm]
  have blocks := inv.blocks idle
  have since := inv.since idle
  unfold State.absorb
  split
  · rename_i present
    exact { moved with
      logged := outsider
      blocks := fun _ c => by
        simp only [grown, ← or_assoc, State.setPc, ← blocks c]
        exact ⟨.inl, fun known => known.elim id (· ▸ present)⟩
      since := fun _ c => by
        simp only [State.setPc, List.mem_append, List.mem_singleton, ← since c]
        exact ⟨.inl, fun known => known.elim id (· ▸ present)⟩
      ended := fun committing => by simp [State.setPc, idle] at committing }
  · rename_i absent
    split
    · exact inv.panics (by decide)
    · exact { moved with
        logged := outsider
        distinct := by
          simpa [List.nodup_append, inv.distinct] using fun c member (same : c = b) =>
          absent (same ▸ member)
        blocks := fun _ c => by
          simp only [grown, ← or_assoc, State.setPc, List.mem_append, List.mem_singleton, blocks c]
        since := fun _ c => by
          simp only [List.mem_append, List.mem_singleton, since c]
        ended := fun committing => by simp [State.setPc, idle] at committing
        stage := fun q inside => by simp [nobody q] at inside }

/-- The operations in progress without that of `p`. -/
theorem active_without (inv : Inv s) (inside : (s.pc p).inOp = true) :
    ∃ ps : List Nat, ps.Nodup ∧ (ps.length : Int) = s.outstanding - 1 ∧
      ∀ c : Pc, c.inOp = false → ∀ q, q ∈ ps ↔ ((s.setPc p c).pc q).inOp = true := by
  obtain ⟨ps, distinct, members, count⟩ := inv.active
  have inside : p ∈ ps := (members p).mpr inside
  refine ⟨ps.erase p, distinct.erase p, ?_, fun c outside q => ?_⟩
  · have := List.length_pos_of_mem inside
    rw [List.length_erase_of_mem inside, count]
    omega
  · rw [distinct.mem_erase_iff, members]
    by_cases same : q = p <;> simp [State.setPc, same, outside]

theorem logged_without (inv : Inv s) {c : Pc} (q : Nat)
    (outside : ((s.setPc p c).pc q).inOp = false) : Function.update s.logged p [] q = [] := by
  obtain rfl | other := eq_or_ne q p
  · simp
  · rw [Function.update_of_ne other]
    exact inv.logged q (by simpa [State.setPc, other] using outside)

/-- The blocks of `p` move from the operations in progress to those that ended. -/
theorem blocks_without (inv : Inv s) (idle : s.committing = false) (p b : Nat) :
    b ∈ s.lh ↔
      (∃ op ∈ s.ended ++ [s.logged p], b ∈ op) ∨ ∃ q, b ∈ Function.update s.logged p [] q := by
  have moved :
      (∃ op ∈ s.ended ++ [s.logged p], b ∈ op) ↔ (∃ op ∈ s.ended, b ∈ op) ∨ b ∈ s.logged p := by
    simp [or_and_right, exists_or]
  rw [inv.blocks idle, exists_mem_logged s.logged p, exists_mem_update, moved, or_assoc]
  simp

theorem history_without (inv : Inv s) (idle : s.committing = false) (p : Nat) :
    s.history ++ [s.logged p] = s.commits.flatMap Commit.ops ++ (s.ended ++ [s.logged p]) := by
  rw [inv.history, inv.current idle]
  simp [Commit.start]

/-- The last one to leave takes all ended operations into its commit. -/
theorem leave_last (inv : Inv s) (here : s.pc p = .running) (last : s.outstanding - 1 = 0) :
    Inv { s.setPc p .commit with
      outstanding := s.outstanding - 1, committing := true
      logged := Function.update s.logged p []
      since := [], ended := [], history := s.history ++ [s.logged p]
      current := .start (s.ended ++ [s.logged p]) } := by
  obtain ⟨idle, -⟩ := inv.running_excludes (p := p) (by simp [here, Pc.inOp])
  obtain ⟨ps, -, count, left⟩ := inv.active_without (p := p) (by simp [here, Pc.inOp])
  have empty : ps = [] := List.length_eq_zero_iff.mp (by omega)
  have alone (q : Nat) : ((s.setPc p .commit).pc q).inOp = false := by
    cases inside : ((s.setPc p .commit).pc q).inOp with
    | false => rfl
    | true => simpa [empty] using (left .commit rfl q).mpr inside
  have only (q : Nat) (inside : ((s.setPc p .commit).pc q).inCommit = true) : q = p := by
    by_contra other
    simp [State.setPc, other, inv.no_commit idle q] at inside
  exact {
    active := ⟨[], List.nodup_nil, fun q => by simpa using alone q, by simpa using last⟩
    committer := fun _ _ => rfl
    unique := fun q r left right => (only q left).trans (only r right).symm
    quiet := fun _ => last
    logged := fun q _ => inv.logged_without q (alone q)
    distinct := inv.distinct
    blocks := by simp
    since := by simp
    ended := fun _ => ⟨rfl, rfl⟩
    current := by simp
    stage := fun q inside => by
      rw [only q inside]
      simp only [State.setPc, Function.update_self, Stage, Commit.start, and_true]
      intro b
      rw [inv.blocks_without idle p b, or_iff_left]
      rintro ⟨q, member⟩
      rw [inv.logged_without q (alone q)] at member
      cases member
    commits := inv.commits
    history := by simpa [State.setPc, Commit.start] using inv.history_without idle p
    panic := inv.panic }

theorem leave_others (inv : Inv s) (here : s.pc p = .running) :
    Inv { s.setPc p .idle with
      outstanding := s.outstanding - 1
      logged := Function.update s.logged p []
      ended := s.ended ++ [s.logged p], history := s.history ++ [s.logged p] } := by
  obtain ⟨idle, -⟩ := inv.running_excludes (p := p) (by simp [here, Pc.inOp])
  obtain ⟨ps, distinct, count, left⟩ := inv.active_without (p := p) (by simp [here, Pc.inOp])
  have nobody : ∀ q, ((s.setPc p .idle).pc q).inCommit = false :=
    no_commit_setPc (fun q _ => inv.no_commit idle q) rfl
  exact { inv with
    active := ⟨ps, distinct, left .idle rfl, count.symm⟩
    committer := fun q inside => by simp [nobody q] at inside
    unique := fun q r inside => by simp [nobody q] at inside
    quiet := fun committing => by simp [State.setPc, idle] at committing
    logged := inv.logged_without
    blocks := fun _ => inv.blocks_without idle p
    ended := fun committing => by simp [State.setPc, idle] at committing
    stage := fun q inside => by simp [nobody q] at inside
    history := by simpa [State.setPc, inv.current idle,
      Commit.start] using inv.history_without idle p }

theorem leave (inv : Inv s) (here : s.pc p = .running) : Inv (s.leave p) := by
  obtain ⟨idle, -⟩ := inv.running_excludes (p := p) (by simp [here, Pc.inOp])
  simp only [State.leave, idle, Bool.false_eq_true, if_false]
  split
  · next last => exact inv.leave_last here last
  · exact (inv.leave_others here).wakeup

/-- A committer moves on to another stage of the same commit. -/
theorem advance (inv : Inv s) {c : Pc} {current : Commit} (here : (s.pc p).inCommit = true)
    (there : c.inCommit = true) (ops : current.ops = s.current.ops) {lh : List Nat}
    (distinct : lh.Nodup) (stage : Stage lh current c) :
    Inv { s.setPc p c with current := current, lh := lh } := by
  have committing := inv.committer p here
  have outside : c.inOp = false := by cases c <;> simp_all [Pc.inCommit, Pc.inOp]
  have op : ∀ q, ((s.setPc p c).pc q).inOp = (s.pc q).inOp := by
    intro q
    by_cases same : q = p
    · simpa [State.setPc, same, outside] using (inv.committing_excludes committing p).symm
    · simp [State.setPc, same]
  have only : ∀ q, ((s.setPc p c).pc q).inCommit = true → q = p := by
    intro q inside
    by_contra other
    exact other (inv.unique q p (by simpa [State.setPc, other] using inside) here)
  obtain ⟨ps, distinctPs, members, count⟩ := inv.active
  exact { inv with
    active := ⟨ps, distinctPs, fun q => (members q).trans (by rw [op q]), count⟩
    committer := fun _ _ => committing
    unique := fun q r left right => (only q left).trans (only r right).symm
    logged := fun q outside => inv.logged q (op q ▸ outside)
    distinct := distinct
    blocks := fun idle => by simp [State.setPc, committing] at idle
    since := fun idle => by simp [State.setPc, committing] at idle
    current := fun idle => by simp [State.setPc, committing] at idle
    stage := fun q inside => by
      rw [only q inside]
      simpa [State.setPc] using stage
    history := by simpa [State.setPc, ops] using inv.history }

theorem take_succ_of_get {xs : List Nat} {i : Nat} (found : xs[i]? = some b) :
    xs.take (i + 1) = xs.take i ++ [b] := by
  rw [List.take_add_one, found, Option.toList_some]

/-- The commit that is over joins the finished ones. -/
theorem finish (inv : Inv s) (here : s.pc p = .finish) :
    Inv { s.setPc p .idle with
      committing := false, current := .start [], commits := s.commits ++ [s.current] } := by
  have inside : (s.pc p).inCommit = true := by simp [here, Pc.inCommit]
  have committing := inv.committer p inside
  obtain ⟨empty, exact_⟩ : Stage s.lh s.current .finish := here ▸ inv.stage p inside
  obtain ⟨ended, since⟩ := inv.ended committing
  have nobody : ∀ q, ((s.setPc p .idle).pc q).inCommit = false :=
    no_commit_setPc
    (fun q other => Bool.eq_false_iff.mpr fun there => other (inv.unique q p there inside)) rfl
  have op (q : Nat) : ((s.setPc p .idle).pc q).inOp = (s.pc q).inOp := by
    obtain rfl | other := eq_or_ne q p
    · simp [State.setPc, here, Pc.inOp]
    · simp [State.setPc, other]
  have nothing (q : Nat) : s.logged q = [] := inv.logged q (inv.committing_excludes committing q)
  obtain ⟨ps, distinct, members, count⟩ := inv.active
  exact { inv with
    active := ⟨ps, distinct, fun q => (members q).trans (by rw [op q]), count⟩
    committer := fun q inside => by simp [nobody q] at inside
    unique := fun q r inside => by simp [nobody q] at inside
    quiet := by simp
    logged := fun q _ => nothing q
    blocks := fun _ b => by simp [State.setPc, empty, ended, nothing]
    since := fun _ b => by simp [State.setPc, empty, since]
    ended := by simp
    current := fun _ => rfl
    stage := fun q inside => by simp [nobody q] at inside
    commits := fun c member => by
      rcases List.mem_append.mp member with old | new
      · exact inv.commits c old
      · exact List.mem_singleton.mp new ▸ exact_
    history := by simpa [State.setPc, Commit.start, ended] using inv.history }

theorem commitStep (inv : Inv s) {c : Pc} (here : s.pc p = c)
    (stepped : s.commitStep p c = some t) : Inv t := by
  have ahead : ∀ {c' current lh}, c.inCommit = true → c'.inCommit = true →
      current.ops = s.current.ops → lh.Nodup → Stage lh current c' →
      Inv { s.setPc p c' with current := current, lh := lh } :=
    fun inside there ops distinct stage => inv.advance (here ▸ inside) there ops distinct stage
  have stage : c.inCommit = true → Stage s.lh s.current c :=
    fun inside => here ▸ inv.stage p (here ▸ inside)
  cases c with
  | idle | entering | sleeping | running | sized | tested => simp [State.commitStep] at stepped
  | commit =>
    simp only [State.commitStep, Option.some.injEq] at stepped
    subst t
    obtain ⟨covers, copied, header, installed⟩ := stage rfl
    split
    · exact ahead rfl rfl rfl inv.distinct ⟨covers, by simp [copied], installed⟩
    · rename_i none
      have empty : s.lh = [] := List.length_eq_zero_iff.mp (by omega)
      refine ahead rfl rfl rfl inv.distinct ⟨empty, ?_⟩
      rw [empty] at covers
      exact ⟨by simp [installed], by rw [copied, installed], by rw [header,
        installed], installed ▸ covers⟩
  | writeLog tail =>
    obtain ⟨covers, copied, installed⟩ := stage rfl
    simp only [State.commitStep] at stepped
    split at stepped
    · rename_i b found
      cases Option.some.inj stepped
      have grown : s.current.copied ++ [b] = s.lh.take (tail + 1) := by
        rw [take_succ_of_get found, copied]
      exact ahead rfl rfl rfl inv.distinct ⟨covers, grown, installed⟩
    · rename_i past
      cases Option.some.inj stepped
      have whole : s.current.copied = s.lh := by
        rw [copied, List.take_of_length_le (List.getElem?_eq_none_iff.mp past)]
      exact ahead rfl rfl rfl inv.distinct ⟨covers, whole, installed⟩
  | writeHead =>
    obtain ⟨covers, copied, installed⟩ := stage rfl
    cases Option.some.inj stepped
    exact ahead rfl rfl rfl inv.distinct ⟨covers, copied, rfl, by simp [installed]⟩
  | install tail =>
    obtain ⟨covers, copied, header, installed⟩ := stage rfl
    simp only [State.commitStep] at stepped
    split at stepped
    · rename_i b found
      cases Option.some.inj stepped
      have grown : s.current.installed ++ [b] = s.lh.take (tail + 1) := by
        rw [take_succ_of_get found, installed]
      exact ahead rfl rfl rfl inv.distinct ⟨covers, copied, header, grown⟩
    · rename_i past
      cases Option.some.inj stepped
      have long := List.getElem?_eq_none_iff.mp past
      have whole : s.current.installed = s.lh := by rw [installed, List.take_of_length_le long]
      have exact_ : s.current.Exact :=
        ⟨whole ▸ inv.distinct, by rw [copied, whole], by rw [header, whole], whole ▸ covers⟩
      exact ahead rfl rfl rfl List.nodup_nil ⟨rfl, exact_⟩
  | clearHead =>
    cases Option.some.inj stepped
    exact ahead rfl rfl rfl inv.distinct (stage rfl)
  | finish =>
    cases Option.some.inj stepped
    exact (inv.finish here).wakeup

theorem step (inv : Inv s) (a : Action) (taken : s.step a = some t) : Inv t := by
  cases State.stepped taken with
  | beginOp here =>
    exact inv.move (by simp [here, Pc.inOp]) (by simp [here, Pc.inCommit]) (by simp [Pc.inCommit])
  | logWrite here => exact inv.testSize here
  | endOp here => exact inv.leave here
  | enter here => exact inv.enter here
  | sized here => exact inv.testOutstanding here
  | tested here => exact inv.absorb here
  | commit stepped => exact inv.commitStep rfl stepped

end Inv

theorem inv_reached {size : Nat} {schedule : List Action} {s : State}
    (reached : run State.step (initlog size) schedule = some s) : Inv s :=
  Transition.invariant (fun _ a _ inv stepped => inv.step a stepped) reached (inv_initlog size)

/-- Two operations that overlap and share a block, then their commit. -/
def sharedBlock : List Action :=
  [.beginOp 0, .go 0, .beginOp 1, .go 1, .logWrite 0 7, .go 0, .go 0, .logWrite 1 7, .go 1, .go 1,
    .endOp 0, .endOp 1] ++ List.replicate 8 (.go 1)

/-- In every interleaving `outstanding` counts the processes in an operation, and one process at
most commits. -/
theorem outstanding_counts {size : Nat} {schedule : List Action} {s : State}
    (reached : run State.step (initlog size) schedule = some s) :
    (∃ ps : List Nat, ps.Nodup ∧ (∀ q, q ∈ ps ↔ (s.pc q).inOp = true) ∧ s.outstanding = ps.length) ∧
      ∀ p q, (s.pc p).inCommit = true → (s.pc q).inCommit = true → p = q := by
  have inv := inv_reached reached
  exact ⟨inv.active, inv.unique⟩

theorem shared_block_committer : ∃ schedule s, run State.step (initlog 30) schedule = some s ∧
    ∀ q, (s.pc q).inCommit = true → q = 1 := by
  have reached : run State.step (initlog 30) (sharedBlock.take 12) = some _ := rfl
  exact ⟨_, _, reached, fun q inside => (outstanding_counts reached).2 q 1 inside rfl⟩

end Aso.Xv6.Log
