import Aso.Refs
import Aso.Xv6.Bio.Machine

/-! The buffer cache is a store with one copy of every block: `bread` returns what was
stored last, whatever was evicted in between. Every buffer that may differ from the disk
is the one that the search along the list finds for its block. -/
namespace Aso.Xv6.Bio
variable {K : Nat} {D : Type}

/-- The content of every block after some reads and writes. -/
def content (disk : Key → D) : List (Event D) → Key → D
  | [] => disk
  | .read _ _ :: rest => content disk rest
  | .write key data :: rest => content (Function.update disk key data) rest

/-- Every read returns the content of its block at that time. -/
def Legal (disk : Key → D) : List (Event D) → Prop
  | [] => True
  | .read key data :: rest => data = disk key ∧ Legal disk rest
  | .write key data :: rest => Legal (Function.update disk key data) rest

theorem content_append (disk : Key → D) (first second : List (Event D)) :
    content disk (first ++ second) = content (content disk first) second := by
  induction first generalizing disk with
  | nil => rfl
  | cons event rest ih => cases event <;> exact ih _

theorem legal_append (disk : Key → D) (first second : List (Event D)) :
    Legal disk (first ++ second) ↔ Legal disk first ∧ Legal (content disk first) second := by
  induction first generalizing disk with
  | nil => simp [Legal, content]
  | cons event rest ih =>
    cases event with
    | read key data => simp only [List.cons_append, Legal, content, ih, and_assoc]
    | write key data => simp only [List.cons_append, Legal, content, ih]

/-- Not used yet: all buffers start out as block 0 of device 0. -/
def Buffer.Blank (x : Buffer D) : Prop :=
  x.key = ⟨0, 0⟩ ∧ x.valid = false ∧ x.dirty = false ∧ x.refcnt = 0

/-- The buffer a client refers to, and the block it asked for. -/
def Client.ref : Client → Option (Buf × Key)
  | .idle => none
  | .waiting b key | .locked b key | .ready b key _ | .releasing b key => some (b, key)

def Client.buf (client : Client) : Option Buf := client.ref.map Prod.fst

/-- The buffer whose sleep lock a client holds. -/
def Client.holding : Client → Option Buf
  | .locked b _ | .ready b _ _ => some b
  | _ => none

/-- The search for the block of a buffer in use finds that buffer. -/
def Found (l : List Buf) (buf : Buf → Buffer D) : Prop :=
  ∀ b, ¬ (buf b).Blank → l.find? (fun b' => (buf b').key = (buf b).key) = some b

namespace Found
variable {l : List Buf} {buf : Buf → Buffer D} {b b' : Buf} {x : Buffer D}

theorem unique (found : Found l buf) (first : ¬ (buf b).Blank) (second : ¬ (buf b').Blank)
    (same : (buf b).key = (buf b').key) : b = b' := by
  have one := found b first
  rw [same, found b' second] at one
  exact (Option.some.inj one).symm

/-- A buffer that the search finds keeps its block. -/
theorem keep (found : Found l buf) (first : l.find? (fun b' => (buf b').key = (buf b).key) = some b)
    (same : x.key = (buf b).key) : Found l (Function.update buf b x) := by
  have keys (b' : Buf) : (Function.update buf b x b').key = (buf b').key := by
    rw [Function.update_apply]
    split
    · rw [same, ‹b' = b›]
    · rfl
  intro b' used
  simp only [keys]
  obtain rfl | other := eq_or_ne b' b
  · exact first
  · rw [Function.update_of_ne other] at used
    exact found b' used

/-- A buffer gets a block that no buffer had. -/
theorem recycle (found : Found l buf) (member : b ∈ l) (absent : ∀ b' ∈ l, (buf b').key ≠ x.key) :
    Found l (Function.update buf b x) := by
  have new : (Function.update buf b x b).key = x.key := by rw [Function.update_self]
  have old {c : Buf} (other : c ≠ b) :
      (Function.update buf b x c).key = (buf c).key := by rw [Function.update_of_ne other]
  intro b' used
  obtain rfl | other := eq_or_ne b' b
  · have some : (l.find? fun c => (Function.update buf b' x c).key = x.key).isSome = true :=
      List.find?_isSome.mpr ⟨b', member, decide_eq_true new⟩
    obtain ⟨c, first⟩ := Option.isSome_iff_exists.mp some
    have same : c = b' := by
      by_contra other
      have key : (Function.update buf b' x c).key = x.key := by simpa using List.find?_some first
      rw [old other] at key
      exact absent c (List.mem_of_find?_eq_some first) key
    rw [new, first, same]
  · rw [old other]
    have used' : ¬ (buf b').Blank := by rwa [Function.update_of_ne other] at used
    have first := found b' used'
    obtain ⟨-, before, after, split, others⟩ := List.find?_eq_some_iff_append.mp first
    refine List.find?_eq_some_iff_append.mpr
      ⟨decide_eq_true (old other), before, after, split, fun c inside => ?_⟩
    obtain rfl | different := eq_or_ne c b
    · simpa [new] using (absent b' (List.mem_of_find?_eq_some first)).symm
    · simpa [old different] using others c inside

/-- A buffer that is in use is moved to the front. -/
theorem move (found : Found l buf) (nodup : l.Nodup) (used : ¬ (buf b).Blank) :
    Found (b :: l.erase b) buf := by
  intro b' used'
  obtain rfl | other := eq_or_ne b' b
  · exact List.find?_cons_of_pos (decide_eq_true rfl)
  · have key : (buf b).key ≠ (buf b').key := fun same => other (found.unique used' used same.symm)
    rw [List.find?_cons_of_neg (by simpa using key), nodup.erase_eq_filter,
      List.find?_filter, ← found b' used']
    congr
    funext c
    obtain rfl | different := eq_or_ne c b
    · simp [key]
    · simp [different]

end Found

/-- The invariant of the cache, over the disk as it was at the start. -/
structure Inv (disk : Key → D) (s : State K D) : Prop where
  list : ∃ l, s.list.Holds l ∧ (∀ b, b ∈ l) ∧ Found l s.buf
  counted : ∀ b, (s.buf b).refcnt = Refs.refs (fun c => (s.client c).buf) b
  locks : ∀ c b, (s.client c).holding = some b ↔ s.lock b = some c
  keys : ∀ c b key, (s.client c).ref = some (b, key) → (s.buf b).key = key
  valid : ∀ c b key changed, s.client c = .ready b key changed → (s.buf b).valid = true
  clean : ∀ b, (s.buf b).valid = false → (s.buf b).dirty = false
  cached : ∀ b, (s.buf b).valid = true → (∀ c key, s.client c ≠ .ready b key true) →
    (s.buf b).data = content disk s.trace (s.buf b).key
  clear : ∀ key, (∀ b, (s.buf b).key = key → (s.buf b).dirty = false) →
    s.disk key = content disk s.trace key
  legal : Legal disk s.trace

namespace Inv
variable {disk : Key → D} {s t : State K D} {c c' : Fin K} {b : Buf} {key : Key}

theorem not_ref (inv : Inv disk s) (free : (s.buf b).refcnt = 0) (c : Fin K) :
    (s.client c).buf ≠ some b := by
  intro ref
  have count := inv.counted b
  have positive : 0 < Refs.refs (fun c => (s.client c).buf) b := Refs.refs_pos_iff.mpr ⟨c, ref⟩
  omega

theorem not_blank (inv : Inv disk s) (ref : (s.client c).buf = some b) : ¬ (s.buf b).Blank :=
  fun blank => inv.not_ref blank.2.2.2 c ref

/-- A block has one buffer in use at most. -/
theorem unique (inv : Inv disk s) {b' : Buf} (first : ¬ (s.buf b).Blank)
    (second : ¬ (s.buf b').Blank) (same : (s.buf b).key = (s.buf b').key) : b = b' := by
  obtain ⟨l, -, -, found⟩ := inv.list
  exact found.unique first second same

theorem boot (junk : D) (disk : Key → D) : Inv disk (Bio.boot junk disk : State K D) := by
  constructor
  case list =>
    have empty : Linked.Holds (⟨fun _ => none, fun _ => none⟩ : Linked Buf) [] :=
      ⟨⟨rfl, rfl⟩, List.nodup_nil⟩
    refine ⟨_, empty.foldl_pushFront (List.nodup_finRange nbuf) fun _ _ => List.not_mem_nil,
      by simp, fun b used => ?_⟩
    exact absurd ⟨rfl, rfl, rfl, rfl⟩ used
  case counted => exact Refs.Counted.empty.eq_refs
  case locks => exact fun c b => ⟨nofun, nofun⟩
  case keys => exact fun c b key => nofun
  case valid => exact fun c b key changed => nofun
  case clean => exact fun b _ => rfl
  case cached => exact fun b valid => nomatch valid
  case clear => exact fun key _ => rfl
  case legal => trivial

/-- What `bget` does to the buffer it chooses. -/
theorem bget_spec (inv : Inv disk s) (got : s.bget key = some (b, t)) :
    ∃ x, t = s.setBuf b x ∧ x.key = key ∧
    x.refcnt = (s.buf b).refcnt + 1 ∧
      (∃ l, s.list.Holds l ∧ (∀ b, b ∈ l) ∧ Found l (Function.update s.buf b x)) ∧
    ((x.valid = (s.buf b).valid ∧ x.dirty = (s.buf b).dirty ∧ x.data = (s.buf b).data ∧
      (s.buf b).key = key) ∨
      ((s.buf b).refcnt = 0 ∧ (s.buf b).dirty = false ∧ x.valid = false ∧ x.dirty = false)) := by
  obtain ⟨l, holds, all, found⟩ := inv.list
  have length : l.length ≤ nbuf := by
    have := holds.nodup.length_le_card
    rwa [Fintype.card_fin] at this
  simp only [State.bget, holds.find _ length, holds.find_flip _ length] at got
  split at got
  · cases got
  · next first =>
    cases got
    have first := Option.some.inj first
    have key : (s.buf b).key = key := by simpa using List.find?_some first
    refine ⟨_, rfl, key, rfl, ⟨l, holds, all, found.keep (by rw [key]; exact first) rfl⟩,
      .inl ⟨rfl, rfl, rfl, key⟩⟩
  · next none =>
    split at got
    · next last =>
      cases got
      have free : (s.buf b).refcnt = 0 ∧ (s.buf b).dirty = false := by
        simpa using List.find?_some (Option.some.inj last)
      have absent : ∀ b' ∈ l, (s.buf b').key ≠ key := by
        simpa using List.find?_eq_none.mp (Option.some.inj none)
      exact ⟨_, rfl, rfl, by rw [free.1], ⟨l, holds, all,
        found.recycle (all b) absent⟩, .inr ⟨free.1, free.2, rfl, rfl⟩⟩
    · cases got

theorem refs_setClient (client : Fin K → Client) (c : Fin K) (new : Client) (b : Buf) :
    Refs.refs (fun c' => (Function.update client c new c').buf) b +
      (if (client c).buf = some b then 1 else 0) =
      Refs.refs (fun c' => (client c').buf) b + if new.buf = some b then 1 else 0 := by
  have same : (fun c' => (Function.update client c new c').buf) =
      Function.update (fun c' => (client c').buf) c new.buf := by
    funext c'
    exact Function.apply_update (fun _ => Client.buf) client c new c'
  rw [same]
  exact Refs.refs_update _ c new.buf b

theorem ref_of_holding {client : Client} (holds : client.holding = some b) :
    ∃ key, client.ref = some (b, key) := by
  cases client <;> cases holds <;> exact ⟨_, rfl⟩

/-- A client does something with the buffer it refers to. -/
theorem use (inv : Inv disk s) (new : Client) (x : Buffer D)
    (ref : (s.client c).ref = some (b, key)) (same : new.ref = some (b, key))
    (mine : s.lock b = none ∨ s.lock b = some c) (list : t.list = s.list)
    (bufs : t.buf = Function.update s.buf b x)
    (locks : t.lock = Function.update s.lock b (if new.holding = some b then some c else none))
    (clients : t.client = Function.update s.client c new) (block : x.key = key)
    (refcnt : x.refcnt = (s.buf b).refcnt)
    (valid : ∀ changed, new = .ready b key changed → x.valid = true)
    (clean : x.valid = false → x.dirty = false)
    (elsewhere : ∀ k, k ≠ key →
      t.disk k = s.disk k ∧ content disk t.trace k = content disk s.trace k)
    (cached : x.valid = true → new ≠ .ready b key true → x.data = content disk t.trace key)
    (clear : x.dirty = false → t.disk key = content disk t.trace key) (legal : Legal disk t.trace) :
    Inv disk t := by
  obtain ⟨_, _, _, disk', log, _, trace⟩ := t
  dsimp only at list bufs locks clients elsewhere cached clear legal
  subst list bufs locks clients
  have buf : (s.client c).buf = some b := by rw [Client.buf, ref]; rfl
  have here := inv.keys c b key ref
  have used := inv.not_blank buf
  have keys (b' : Buf) : (Function.update s.buf b x b').key = (s.buf b').key := by
    obtain rfl | other := eq_or_ne b' b
    · rw [Function.update_self, block, here]
    · rw [Function.update_of_ne other]
  have stranger {c' : Fin K} (other : c' ≠ c) : s.lock b ≠ some c' := by
    rcases mine with free | owned
    · rw [free]
      nofun
    · rw [owned]
      exact fun same => other (Option.some.inj same).symm
  constructor
  case list =>
    obtain ⟨l, holds, all, found⟩ := inv.list
    exact ⟨l, holds, all, found.keep (found b used) (block.trans here.symm)⟩
  case counted =>
    intro b'
    have counts := refs_setClient s.client c new b'
    rw [show new.buf = (s.client c).buf by rw [buf, Client.buf, same]; rfl] at counts
    have total := inv.counted b'
    obtain rfl | other := eq_or_ne b' b
    · change (Function.update s.buf b' x b').refcnt =
        Refs.refs (fun c' => (Function.update s.client c new c').buf) b'
      rw [Function.update_self, refcnt]
      omega
    · change (Function.update s.buf b x b').refcnt =
        Refs.refs (fun c' => (Function.update s.client c new c').buf) b'
      rw [Function.update_of_ne other]
      omega
  case locks =>
    have inside {client : Client} {b' : Buf} (ref : client.ref = some (b, key))
        (holds : client.holding = some b') : b' = b := by
      obtain ⟨key', ref'⟩ := ref_of_holding holds
      cases ref.symm.trans ref'
      rfl
    intro c' b'
    obtain rfl | other := eq_or_ne c' c
    · simp only [Function.update_self]
      obtain rfl | elsewhere := eq_or_ne b' b
      · simp
      · rw [Function.update_of_ne elsewhere]
        refine iff_of_false (fun holds => elsewhere (inside same holds)) fun owned => ?_
        exact elsewhere (inside ref ((inv.locks c' b').mpr owned))
    · simp only [Function.update_of_ne other]
      obtain rfl | elsewhere := eq_or_ne b' b
      · refine iff_of_false (fun holds => stranger other ((inv.locks c' b').mp holds)) ?_
        rw [Function.update_self]
        split
        · exact fun owned => other (Option.some.inj owned).symm
        · nofun
      · rw [Function.update_of_ne elsewhere]
        exact inv.locks c' b'
  case keys =>
    intro c' b' key' ref'
    refine (keys b').trans ?_
    obtain rfl | other := eq_or_ne c' c
    · change (Function.update s.client c' new c').ref = _ at ref'
      rw [Function.update_self, same] at ref'
      cases ref'
      exact here
    · change (Function.update s.client c new c').ref = _ at ref'
      rw [Function.update_of_ne other] at ref'
      exact inv.keys c' b' key' ref'
  case valid =>
    intro c' b' key' changed ready
    obtain rfl | other := eq_or_ne c' c
    · rw [show new = _ by simpa using ready] at same valid
      cases same
      simpa using valid changed rfl
    · have ready' : s.client c' = .ready b' key' changed := by simpa [other] using ready
      have elsewhere : b' ≠ b := by
        rintro rfl
        exact stranger other ((inv.locks c' b').mp (by rw [ready']; rfl))
      simpa [elsewhere] using inv.valid c' b' key' changed ready'
  case clean =>
    intro b'
    obtain rfl | other := eq_or_ne b' b
    · simpa using clean
    · simpa [other] using inv.clean b'
  case cached =>
    intro b' valid' unchanged
    rw [keys]
    obtain rfl | other := eq_or_ne b' b
    · have ready : new ≠ .ready b' key true := by simpa using unchanged c key
      simpa [here] using cached (by simpa using valid') ready
    · have valid' : (s.buf b').valid = true := by simpa [other] using valid'
      have apart : (s.buf b').key ≠ key := by
        intro same
        refine other (inv.unique (fun blank => ?_) used (same.trans here.symm))
        cases blank.2.1.symm.trans valid'
      rw [(elsewhere _ apart).2]
      simp only [Function.update_of_ne other]
      refine inv.cached b' valid' fun c' key' ready => ?_
      obtain rfl | different := eq_or_ne c' c
      · rw [ready] at ref
        cases ref
        exact other rfl
      · exact unchanged c' key' (by simpa [different] using ready)
  case clear =>
    intro key' all
    obtain rfl | other := eq_or_ne key' key
    · exact clear (by simpa [here] using all b (by rw [keys, here]))
    · rw [(elsewhere key' other).2]
      refine (elsewhere key' other).1.trans (inv.clear key' fun b' block' => ?_)
      have different : b' ≠ b := by
        rintro rfl
        exact other (block'.symm.trans here)
      simpa [different] using all b' (by rw [keys]; exact block')
  case legal => exact legal

/-- The data of a valid buffer that nobody else is changing is the content of the block. -/
theorem data_eq (inv : Inv disk s) (ref : (s.client c).ref = some (b, key))
    (mine : s.lock b = none ∨ s.lock b = some c) (unchanged : s.client c ≠ .ready b key true)
    (valid : (s.buf b).valid = true) : (s.buf b).data = content disk s.trace key := by
  have block := inv.keys c b key ref
  rw [inv.cached b valid fun c' key' ready => ?_, block]
  have lock := (inv.locks c' b).mp (by rw [ready]; rfl)
  rcases mine with free | owned
  · cases lock.symm.trans free
  · cases lock.symm.trans owned
    rw [ready] at ref
    cases ref
    exact unchanged ready

/-- The disk has the content of a block whose buffer is not dirty. -/
theorem disk_eq (inv : Inv disk s) (ref : (s.client c).ref = some (b, key))
    (clean : (s.buf b).dirty = false) : s.disk key = content disk s.trace key := by
  have used : ¬ (s.buf b).Blank := inv.not_blank (by rw [Client.buf, ref]; rfl)
  refine inv.clear key fun b' block => ?_
  by_contra dirty
  have other : b' = b := by
    refine inv.unique (fun blank => dirty blank.2.2.1) used
      (block.trans (inv.keys c b key ref).symm)
  exact dirty (other ▸ clean)

theorem content_record (disk : Key → D) (trace : List (Event D)) (key : Key) (data : D) :
    content disk (trace ++ [.read key data]) = content disk trace ∧
      content disk (trace ++ [.write key data]) =
      Function.update (content disk trace) key data := by
  rw [content_append, content_append]
  exact ⟨rfl, rfl⟩

theorem acquiresleep (inv : Inv disk s) (taken : step s (.acquiresleep c) = some t) :
    Inv disk t := by
  simp only [step] at taken
  split at taken
  · next b key waiting =>
    split at taken
    · next free =>
      cases taken
      have ref : (s.client c).ref = some (b, key) := by rw [waiting]; rfl
      refine inv.use (.locked b key) (s.buf b) ref rfl (.inl free) rfl
        (Function.update_eq_self ..).symm
        (by simp [State.setClient, State.setLock, Client.holding]) rfl
          (inv.keys c b key ref) rfl nofun (inv.clean b)
        (fun _ _ => ⟨rfl, rfl⟩) (fun valid _ => ?_) (inv.disk_eq ref) inv.legal
      exact inv.data_eq ref (.inl free) (by rw [waiting]; nofun) valid
    · cases taken
  · cases taken

/-- A client that keeps the sleep lock of its buffer. -/
theorem lock_kept (lock : s.lock b = some c) (changed : Bool) :
    s.lock = Function.update s.lock b (if (Client.ready b key changed).holding = some b then some c
      else none) := by
  simp [Client.holding, ← lock]

/-- What `bread` returns. -/
theorem bread_spec (inv : Inv disk s) (locked : s.client c = .locked b key)
    (read : (if (s.buf b).valid then some s else s.iderw b) = some t) :
    ∃ x, t = s.setBuf b x ∧ x.key = key ∧
    x.refcnt = (s.buf b).refcnt ∧ x.valid = true ∧ x.dirty = (s.buf b).dirty ∧
      x.data = content disk s.trace key := by
  have ref : (s.client c).ref = some (b, key) := by rw [locked]; rfl
  have lock : s.lock b = some c := (inv.locks c b).mp (by rw [locked]; rfl)
  have block := inv.keys c b key ref
  split at read
  · next valid =>
    cases read
    refine ⟨s.buf b, ?_, block, rfl, valid, rfl,
      inv.data_eq ref (.inr lock) (by rw [locked]; nofun) valid⟩
    rw [State.setBuf, Function.update_eq_self]
  · next invalid =>
    have invalid := Bool.eq_false_iff.mpr invalid
    have clean := inv.clean b invalid
    simp only [State.iderw, invalid, clean, Bool.false_and, Bool.false_eq_true, if_false] at read
    cases read
    exact ⟨_, rfl, block, rfl, rfl, clean.symm,
      (congrArg s.disk block).trans (inv.disk_eq ref clean)⟩

theorem bread (inv : Inv disk s) (taken : step s (.bread c) = some t) : Inv disk t := by
  simp only [step] at taken
  split at taken
  · next b key locked =>
    have ref : (s.client c).ref = some (b, key) := by rw [locked]; rfl
    have lock : s.lock b = some c := (inv.locks c b).mp (by rw [locked]; rfl)
    obtain ⟨u, read, rfl⟩ := Option.map_eq_some_iff.mp taken
    obtain ⟨x, rfl, block, refcnt, valid, dirty, data⟩ := inv.bread_spec locked read
    have same (d : D) : content disk (s.trace ++ [.read key d]) = content disk s.trace :=
      (content_record ..).1
    refine inv.use (.ready b key false) x ref rfl (.inr lock) rfl rfl
      (lock_kept lock false) rfl block refcnt (fun _ _ => valid)
      (fun invalid => absurd (invalid.symm.trans valid) Bool.false_ne_true)
        (fun _ _ => ⟨rfl, congrFun (same _) _⟩)
      (fun _ _ => data.trans (congrFun (same _) key).symm) (fun clean => ?_) ?_
    · exact (inv.disk_eq ref (dirty.symm.trans clean)).trans (congrFun (same _) key).symm
    · refine (legal_append ..).mpr ⟨inv.legal, ?_, trivial⟩
      simpa [State.setBuf] using data
  · cases taken

theorem change {d : D} (inv : Inv disk s) (taken : step s (.change c d) = some t) : Inv disk t := by
  simp only [step] at taken
  split at taken
  · next b key changed ready =>
    cases taken
    have ref : (s.client c).ref = some (b, key) := by rw [ready]; rfl
    have lock : s.lock b = some c := (inv.locks c b).mp (by rw [ready]; rfl)
    exact inv.use (.ready b key true) { s.buf b with data := d } ref rfl (.inr lock) rfl rfl
      (lock_kept lock true) rfl
      (inv.keys c b key ref) rfl (fun _ _ => inv.valid c b key changed ready) (inv.clean b)
        (fun _ _ => ⟨rfl, rfl⟩)
      (fun _ other => absurd rfl other) (inv.disk_eq ref) inv.legal
  · cases taken

/-- The data of the buffer becomes the content of the block, and
stays in a dirty buffer or goes to the disk. -/
theorem stored (inv : Inv disk s) {changed : Bool} {x : Buffer D}
    (ready : s.client c = .ready b key changed) (list : t.list = s.list)
    (bufs : t.buf = Function.update s.buf b x) (locks : t.lock = s.lock)
    (client : t.client = s.client) (trace : t.trace = s.trace) (block : x.key = key)
    (refcnt : x.refcnt = (s.buf b).refcnt) (valid : x.valid = true)
    (elsewhere : ∀ k, k ≠ key → t.disk k = s.disk k)
    (clear : x.dirty = false → t.disk key = x.data) :
    Inv disk ((t.record (.write key (t.buf b).data)).setClient c (.ready b key false)) := by
  have ref : (s.client c).ref = some (b, key) := by rw [ready]; rfl
  have lock : s.lock b = some c := (inv.locks c b).mp (by rw [ready]; rfl)
  have data : (t.buf b).data = x.data := by rw [bufs, Function.update_self]
  have new : content disk (t.trace ++ [.write key (t.buf b).data]) =
      Function.update (content disk s.trace) key x.data := by
    rw [(content_record ..).2, trace, data]
  refine inv.use (.ready b key false) x ref rfl (.inr lock) list bufs
    (locks.trans (lock_kept lock false))
    (congrArg (Function.update · c _) client) block refcnt (fun _ _ => valid)
    (fun invalid => absurd (invalid.symm.trans valid) Bool.false_ne_true)
      (fun k other => ⟨elsewhere k other, ?_⟩)
    (fun _ _ => ?_) (fun clean => ?_) ?_
  · exact (congrFun new k).trans (Function.update_of_ne other ..)
  · exact ((congrFun new key).trans (Function.update_self ..)).symm
  · exact (clear clean).trans ((congrFun new key).trans (Function.update_self ..)).symm
  · refine (legal_append ..).mpr ⟨trace ▸ inv.legal, trivial⟩

theorem logWrite (inv : Inv disk s) (taken : step s (.logWrite c) = some t) : Inv disk t := by
  simp only [step] at taken
  split at taken
  · next b key changed ready =>
    obtain ⟨u, stored, rfl⟩ := Option.map_eq_some_iff.mp taken
    simp only [State.logWrite] at stored
    split at stored
    · cases stored
    · cases stored
      exact inv.stored ready rfl rfl rfl rfl rfl (inv.keys c b key (by rw [ready]; rfl)) rfl
        (inv.valid c b key changed ready)
        (fun _ _ => rfl) nofun
  · cases taken

theorem bwrite (inv : Inv disk s) (taken : step s (.bwrite c) = some t) : Inv disk t := by
  simp only [step] at taken
  split at taken
  · next b key changed ready =>
    have block := inv.keys c b key (by rw [ready]; rfl)
    obtain ⟨u, stored, rfl⟩ := Option.map_eq_some_iff.mp taken
    simp only [State.bwrite, State.iderw, State.setBuf, Function.update_self, Bool.not_true,
      Bool.and_false, Bool.false_eq_true, if_false, if_true, Function.update_idem] at stored
    cases stored
    refine inv.stored ready rfl rfl rfl rfl rfl block rfl rfl (fun k other => ?_) fun _ => ?_
    · exact Function.update_of_ne (block ▸ other) ..
    · rw [← block]
      exact Function.update_self ..
  · cases taken

theorem brelse (inv : Inv disk s) (taken : step s (.brelse c) = some t) : Inv disk t := by
  simp only [step] at taken
  split at taken
  · next b key ready =>
    cases taken
    have ref : (s.client c).ref = some (b, key) := by rw [ready]; rfl
    have lock : s.lock b = some c := (inv.locks c b).mp (by rw [ready]; rfl)
    refine inv.use (.releasing b key) (s.buf b) ref rfl (.inr lock) rfl
      (Function.update_eq_self ..).symm
      (by simp [State.setClient, State.setLock, Client.holding]) rfl
        (inv.keys c b key ref) rfl nofun (inv.clean b)
      (fun _ _ => ⟨rfl, rfl⟩) (fun valid _ => ?_) (inv.disk_eq ref) inv.legal
    exact inv.data_eq ref (.inr lock) (by rw [ready]; nofun) valid
  · cases taken

/-- A client that neither held a lock nor does so now. -/
theorem locks_setClient {new : Client} (inv : Inv disk s) (before : (s.client c).holding = none)
    (after : new.holding = none) :
    ∀ c' b, (Function.update s.client c new c').holding = some b ↔ s.lock b = some c' := by
  intro c' b
  rw [← inv.locks c' b]
  obtain rfl | other := eq_or_ne c' c
  · rw [Function.update_self, before, after]
  · rw [Function.update_of_ne other]

theorem bget (inv : Inv disk s) (taken : step s (.bget c key) = some t) : Inv disk t := by
  simp only [step] at taken
  split at taken
  · next idle =>
    obtain ⟨⟨b, u⟩, got, rfl⟩ := Option.map_eq_some_iff.mp taken
    obtain ⟨x, rfl, block, refcnt, list, choice⟩ := inv.bget_spec got
    have ready {c' : Fin K} {b' : Buf} {key' : Key} {changed : Bool} :
        Function.update s.client c (.waiting b key) c' = .ready b' key' changed ↔
        s.client c' = .ready b' key' changed := by
      obtain rfl | other := eq_or_ne c' c
      · simp [idle]
      · rw [Function.update_of_ne other]
    have same {c' : Fin K} {b' : Buf} {key' : Key} (ref : (s.client c').ref = some (b', key')) :
        (Function.update s.buf b x b').key = (s.buf b').key ∧
        (Function.update s.buf b x b').valid = (s.buf b').valid := by
      obtain rfl | other := eq_or_ne b' b
      · rw [Function.update_self]
        rcases choice with ⟨valid, -, -, hit⟩ | ⟨free, -⟩
        · exact ⟨block.trans hit.symm, valid⟩
        · exact absurd (by rw [Client.buf, ref]; rfl) (inv.not_ref free c')
      · rw [Function.update_of_ne other]
        exact ⟨rfl, rfl⟩
    constructor
    case list => exact list
    case counted =>
      intro b'
      have counts := refs_setClient s.client c (.waiting b key) b'
      rw [idle, if_neg (show Client.idle.buf ≠ some b' from nofun)] at counts
      refine Eq.trans ?_ counts.symm
      rw [← inv.counted b']
      change (Function.update s.buf b x b').refcnt = (s.buf b').refcnt + if some b =
        some b' then 1 else 0
      obtain rfl | other := eq_or_ne b' b
      · rw [Function.update_self, if_pos rfl, refcnt]
      · rw [Function.update_of_ne other, if_neg fun found => other (Option.some.inj found).symm]
        rfl
    case locks => exact inv.locks_setClient (by rw [idle]; rfl) rfl
    case keys =>
      intro c' b' key' ref
      change (Function.update s.client c (.waiting b key) c').ref = _ at ref
      obtain rfl | other := eq_or_ne c' c
      · rw [Function.update_self] at ref
        cases ref
        change (Function.update s.buf b x b).key = key
        rw [Function.update_self, block]
      · rw [Function.update_of_ne other] at ref
        exact (same ref).1.trans (inv.keys c' b' key' ref)
    case valid =>
      intro c' b' key' changed client
      have client := ready.mp client
      exact (same (by rw [client]; rfl)).2.trans (inv.valid c' b' key' changed client)
    case clean =>
      intro b'
      change (Function.update s.buf b x b').valid = false →
        (Function.update s.buf b x b').dirty = false
      obtain rfl | other := eq_or_ne b' b
      · rw [Function.update_self]
        rcases choice with ⟨valid, dirty, -⟩ | ⟨-, -, -, clean⟩
        · rw [valid, dirty]
          exact inv.clean b'
        · exact fun _ => clean
      · rw [Function.update_of_ne other]
        exact inv.clean b'
    case cached =>
      intro b' valid' unchanged
      have unchanged' (c' : Fin K) (key' : Key) : s.client c' ≠ .ready b' key' true :=
        fun client => unchanged c' key' (ready.mpr client)
      change (Function.update s.buf b x b').valid = true at valid'
      change (Function.update s.buf b x b').data =
        content disk s.trace (Function.update s.buf b x b').key
      obtain rfl | other := eq_or_ne b' b
      · rw [Function.update_self] at valid' ⊢
        rcases choice with ⟨valid, -, data, hit⟩ | ⟨-, -, invalid, -⟩
        · rw [data, block, ← hit]
          exact inv.cached b' (valid.symm.trans valid') unchanged'
        · cases invalid.symm.trans valid'
      · rw [Function.update_of_ne other] at valid' ⊢
        exact inv.cached b' valid' unchanged'
    case clear =>
      intro key' all
      refine inv.clear key' fun b' block' => ?_
      have this : (Function.update s.buf b x b').key = key' →
          (Function.update s.buf b x b').dirty = false := all b'
      obtain rfl | other := eq_or_ne b' b
      · rw [Function.update_self] at this
        rcases choice with ⟨-, dirty, -, hit⟩ | ⟨-, clean, -⟩
        · exact dirty.symm.trans (this (block.trans (hit.symm.trans block')))
        · exact clean
      · rw [Function.update_of_ne other] at this
        exact this block'
    case legal => exact inv.legal
  · cases taken

theorem unref (inv : Inv disk s) (taken : step s (.unref c) = some t) : Inv disk t := by
  simp only [step] at taken
  split at taken
  · next b key releasing =>
    have ref : (s.client c).ref = some (b, key) := by rw [releasing]; rfl
    have used : ¬ (s.buf b).Blank := inv.not_blank (by rw [Client.buf, ref]; rfl)
    obtain ⟨l, holds, all, found⟩ := inv.list
    -- whether or not the buffer is moved, its block is found where it is
    have moved : ∃ list, t = { s with
        list := list
        buf := Function.update s.buf b { s.buf b with refcnt := (s.buf b).refcnt - 1 }
        client := Function.update s.client c .idle } ∧
        ∃ l, list.Holds l ∧ (∀ b, b ∈ l) ∧
          Found l (Function.update s.buf b { s.buf b with refcnt := (s.buf b).refcnt - 1 }) := by
      cases taken
      rw [State.unref]
      split
      · refine ⟨_, rfl, _, (holds.unlink (all b)).pushFront holds.nodup.not_mem_erase,
          fun b' => ?_, ?_⟩
        · obtain rfl | other := eq_or_ne b' b
          · exact List.mem_cons_self
          · exact List.mem_cons_of_mem _ ((List.mem_erase_of_ne other).mpr (all b'))
        · have found := found.move holds.nodup used
          exact found.keep (found b used) rfl
      · exact ⟨_, rfl, l, holds, all, found.keep (found b used) rfl⟩
    obtain ⟨list, rfl, listed⟩ := moved
    have ready {c' : Fin K} {b' : Buf} {key' : Key} {changed : Bool} :
        Function.update s.client c .idle c' = .ready b' key' changed ↔
        s.client c' = .ready b' key' changed := by
      obtain rfl | other := eq_or_ne c' c
      · simp [releasing]
      · rw [Function.update_of_ne other]
    have same (b' : Buf) :
        (Function.update s.buf b { s.buf b with refcnt := (s.buf b).refcnt - 1 } b') =
        { s.buf b' with
          refcnt := (Function.update s.buf b
            { s.buf b with refcnt := (s.buf b).refcnt - 1 } b').refcnt } := by
      obtain rfl | other := eq_or_ne b' b
      · rw [Function.update_self]
      · rw [Function.update_of_ne other]
    constructor
    case list => exact listed
    case counted =>
      intro b'
      have counts := refs_setClient s.client c .idle b'
      have total := inv.counted b'
      rw [Client.buf, ref, if_neg (show Client.idle.buf ≠ some b' from nofun)] at counts
      change (Function.update s.buf b { s.buf b with refcnt := (s.buf b).refcnt - 1 } b').refcnt =
        Refs.refs (fun c' => (Function.update s.client c .idle c').buf) b'
      obtain rfl | other := eq_or_ne b' b
      · rw [Function.update_self]
        rw [Option.map_some, if_pos rfl] at counts
        change (s.buf b').refcnt - 1 = _
        omega
      · rw [Function.update_of_ne other]
        rw [Option.map_some, if_neg fun found => other (Option.some.inj found).symm] at counts
        omega
    case locks => exact inv.locks_setClient (by rw [releasing]; rfl) rfl
    case keys =>
      intro c' b' key' ref'
      change (Function.update s.client c .idle c').ref = _ at ref'
      obtain rfl | other := eq_or_ne c' c
      · rw [Function.update_self] at ref'
        cases ref'
      · rw [Function.update_of_ne other] at ref'
        exact (congrArg Buffer.key (same b')).trans (inv.keys c' b' key' ref')
    case valid =>
      intro c' b' key' changed client
      exact (congrArg Buffer.valid (same b')).trans (inv.valid c' b' key' changed (ready.mp client))
    case clean =>
      intro b' invalid
      exact (congrArg Buffer.dirty (same b')).trans
        (inv.clean b' ((congrArg Buffer.valid (same b')).symm.trans invalid))
    case cached =>
      intro b' valid' unchanged
      refine (congrArg Buffer.data (same b')).trans
        ((inv.cached b' ((congrArg Buffer.valid (same b')).symm.trans valid') ?_).trans ?_)
      · exact fun c' key' client => unchanged c' key' (ready.mpr client)
      · exact congrArg (content disk s.trace) (congrArg Buffer.key (same b')).symm
    case clear =>
      intro key' all
      refine inv.clear key' fun b' block' => ?_
      exact (congrArg Buffer.dirty (same b')).symm.trans
        (all b' ((congrArg Buffer.key (same b')).trans block'))
    case legal => exact inv.legal
  · cases taken

theorem step (inv : Inv disk s) {a : Action K D} (taken : Bio.step s a = some t) : Inv disk t := by
  cases a with
  | bget c key => exact inv.bget taken
  | acquiresleep c => exact inv.acquiresleep taken
  | bread c => exact inv.bread taken
  | change c data => exact inv.change taken
  | logWrite c => exact inv.logWrite taken
  | bwrite c => exact inv.bwrite taken
  | brelse c => exact inv.brelse taken
  | unref c => exact inv.unref taken
  | log log =>
    cases taken
    exact ⟨inv.list, inv.counted, inv.locks, inv.keys, inv.valid, inv.clean, inv.cached,
      inv.clear, inv.legal⟩

/-- Only `bget` gives a buffer another block. -/
theorem step_key (inv : Inv disk s) {a : Action K D} (taken : Bio.step s a = some t) (b : Buf) :
    (t.buf b).key = (s.buf b).key ∨ ∃ c key, a = .bget c key := by
  have kept {b' : Buf} {x : Buffer D} (bufs : t.buf = Function.update s.buf b' x)
      (same : x.key = (s.buf b').key) :
      (t.buf b).key = (s.buf b).key := by
    rw [bufs, Function.update_apply]
    split
    · rw [same, ‹b = b'›]
    · rfl
  cases a with
  | bget c key => exact .inr ⟨c, key, rfl⟩
  | acquiresleep c =>
    simp only [Bio.step] at taken
    split at taken
    · split at taken <;> cases taken
      exact .inl rfl
    · cases taken
  | bread c =>
    simp only [Bio.step] at taken
    split at taken
    · next b' key locked =>
      obtain ⟨u, read, rfl⟩ := Option.map_eq_some_iff.mp taken
      obtain ⟨x, rfl, block, -⟩ := inv.bread_spec locked read
      exact .inl (kept rfl (block.trans (inv.keys c b' key (by rw [locked]; rfl)).symm))
    · cases taken
  | change c data =>
    simp only [Bio.step] at taken
    split at taken <;> cases taken
    exact .inl (kept rfl rfl)
  | logWrite c =>
    simp only [Bio.step] at taken
    split at taken
    · obtain ⟨u, stored, rfl⟩ := Option.map_eq_some_iff.mp taken
      simp only [State.logWrite] at stored
      split at stored <;> cases stored
      exact .inl (kept rfl rfl)
    · cases taken
  | bwrite c =>
    simp only [Bio.step] at taken
    split at taken
    · obtain ⟨u, stored, rfl⟩ := Option.map_eq_some_iff.mp taken
      simp only [State.bwrite, State.iderw, State.setBuf, Function.update_self, Bool.not_true,
        Bool.and_false, Bool.false_eq_true, if_false, if_true, Function.update_idem] at stored
      cases stored
      exact .inl (kept rfl rfl)
    · cases taken
  | brelse c =>
    simp only [Bio.step] at taken
    split at taken <;> cases taken
    exact .inl rfl
  | unref c =>
    simp only [Bio.step] at taken
    split at taken
    · next b' key releasing =>
      cases taken
      have bufs : (s.unref b').buf =
          Function.update s.buf b' { s.buf b' with refcnt := (s.buf b').refcnt - 1 } := by
        simp only [State.unref]
        split <;> rfl
      exact .inl (kept bufs rfl)
    · cases taken
  | log log =>
    cases taken
    exact .inl rfl

/-- A buffer that gets another block has no client and is not dirty. -/
theorem recycled (inv : Inv disk s) {a : Action K D} (taken : Bio.step s a = some t)
    (other : (t.buf b).key ≠ (s.buf b).key) :
    (s.buf b).refcnt = 0 ∧ (s.buf b).dirty = false ∧ ∀ c, (s.client c).buf ≠ some b := by
  obtain same | ⟨c, key, rfl⟩ := inv.step_key taken b
  · exact absurd same other
  · simp only [Bio.step] at taken
    split at taken
    · obtain ⟨⟨b', u⟩, got, rfl⟩ := Option.map_eq_some_iff.mp taken
      obtain ⟨x, rfl, block, -, -, choice⟩ := inv.bget_spec got
      change (Function.update s.buf b' x b).key ≠ _ at other
      obtain rfl | different := eq_or_ne b b'
      · rw [Function.update_self] at other
        rcases choice with ⟨-, -, -, hit⟩ | ⟨free, clean, -⟩
        · exact absurd (block.trans hit.symm) other
        · exact ⟨free, clean, inv.not_ref free⟩
      · rw [Function.update_of_ne different] at other
        exact absurd rfl other
    · cases taken

end Inv

/-- In every run of clients that store what they change, every `bread` returns what was
stored last for its block, so the cache is a store with one copy of each block. The list of
buffers is whole in both directions, a block of a device other than 0 is in one buffer at
most, and a buffer in use or dirty is never given to another block. -/
theorem cache_is_store {junk : D} {disk : Key → D} {schedule : List (Action K D)} {s : State K D}
    (reached : Transition.run step (boot junk disk) schedule = some s) :
    Legal disk s.trace ∧ (∃ l, s.list.Holds l ∧ ∀ b, b ∈ l) ∧
      (∀ b b', (s.buf b).key.dev ≠ 0 → (s.buf b').key = (s.buf b).key → b' = b) ∧
      (∀ a t b, step s a = some t → (t.buf b).key ≠ (s.buf b).key →
        (s.buf b).refcnt = 0 ∧ (s.buf b).dirty = false ∧ ∀ c, (s.client c).buf ≠ some b) ∧
      ∀ c b key, s.client c = .ready b key false →
        (s.buf b).key = key ∧ (s.buf b).data = content disk s.trace key := by
  have inv : Inv disk s :=
    Transition.invariant (fun _ _ _ inv taken => inv.step taken) reached (.boot junk disk)
  refine ⟨inv.legal, ?_, fun b b' device same => ?_,
    fun a t b taken other => inv.recycled taken other, fun c b key ready => ?_⟩
  · obtain ⟨l, holds, all, -⟩ := inv.list
    exact ⟨l, holds, all⟩
  · have used {b : Buf} (device : (s.buf b).key.dev ≠ 0) : ¬ (s.buf b).Blank :=
      fun blank => device (by rw [blank.1])
    exact inv.unique (used (same ▸ device)) (used device) same
  · have ref : (s.client c).ref = some (b, key) := by rw [ready]; rfl
    have lock := (inv.locks c b).mp (by rw [ready]; rfl)
    exact ⟨inv.keys c b key ref, inv.data_eq ref (.inr lock) (by rw [ready]; nofun)
      (inv.valid c b key false ready)⟩

/-- A block is changed, logged and read again. -/
theorem bread_returns_logged_data :
    ∃ s : State 1 Nat, Transition.run step (boot 9 fun _ => 0)
        [.bget 0 ⟨1, 5⟩, .acquiresleep 0, .bread 0, .change 0 7, .log ⟨[], 30, 1⟩, .logWrite 0,
          .brelse 0, .unref 0, .bget 0 ⟨1, 5⟩, .acquiresleep 0, .bread 0] = some s ∧
      s.trace = [.read ⟨1, 5⟩ 0, .write ⟨1, 5⟩ 7, .read ⟨1, 5⟩ 7] ∧ Legal (fun _ => 0) s.trace := by
  have runs : (Transition.run step (boot 9 fun _ => 0 : State 1 Nat)
      [.bget 0 ⟨1, 5⟩, .acquiresleep 0, .bread 0, .change 0 7, .log ⟨[], 30, 1⟩, .logWrite 0,
      .brelse 0, .unref 0,
        .bget 0 ⟨1, 5⟩, .acquiresleep 0, .bread 0]).map State.trace =
      some [.read ⟨1, 5⟩ 0, .write ⟨1, 5⟩ 7, .read ⟨1, 5⟩ 7] := by decide
  obtain ⟨s, reached, trace⟩ := Option.map_eq_some_iff.mp runs
  exact ⟨s, reached, trace, (cache_is_store reached).1⟩

/-- In every run `refcnt` counts the clients of a buffer, and the disk has what was stored last
for a block unless its buffer is dirty. -/
theorem clean_block_on_disk {junk : D} {disk : Key → D} {schedule : List (Action K D)}
    {s : State K D} (reached : Transition.run step (boot junk disk) schedule = some s) :
    (∀ b, (s.buf b).refcnt = Refs.refs (fun c => (s.client c).buf) b) ∧
      ∀ key, (∀ b, (s.buf b).key = key → (s.buf b).dirty = false) →
      s.disk key = content disk s.trace key := by
  have inv : Inv disk s :=
    Transition.invariant (fun _ _ _ inv taken => inv.step taken) reached (.boot junk disk)
  exact ⟨inv.counted, inv.clear⟩

theorem bwrite_on_disk : ∃ schedule, ∃ s : State 1 Nat,
    Transition.run step (boot 9 fun _ => 0) schedule = some s ∧ s.disk ⟨1, 5⟩ = 7 := by
  have reached : Transition.run step (boot 9 fun _ => 0 : State 1 Nat)
      [.bget 0 ⟨1, 5⟩, .acquiresleep 0, .bread 0, .change 0 7, .bwrite 0] = some _ := rfl
  exact ⟨_, _, reached, (clean_block_on_disk reached).2 _ (by decide)⟩

end Aso.Xv6.Bio
