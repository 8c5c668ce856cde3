import Aso.Linked
import Aso.Transition
import Aso.Xv6.Param
import Mathlib.Data.List.FinRange

/-! The buffer cache of bio.c with any number of clients, and `log_write` of log.c. A
section under `bcache.lock` is one step, and so are taking a buffer's sleep lock and a
transfer by `iderw`, which is taken to be correct. A client is one call of `bread` with
what follows it up to `brelse`; a process that holds several buffers is several clients.
The history field lists what was returned by `bread` and what was stored. -/
namespace Aso.Xv6.Bio

abbrev Buf := Fin nbuf

structure Key where
  dev : Nat
  blockno : Nat
  deriving DecidableEq

/-- `struct buf`, with its block number as the key; the pointers and the lock are kept apart. -/
structure Buffer (D : Type) where
  valid : Bool
  dirty : Bool
  key : Key
  refcnt : Nat
  data : D

inductive Event (D : Type) where
  /-- `bread` returned the data of a block. -/
  | read (key : Key) (data : D)
  /-- `log_write` or `bwrite` of a block. -/
  | write (key : Key) (data : D)
  deriving DecidableEq

/-- Where a client is with its buffer. -/
inductive Client where
  | idle
  /-- `bget` has released `bcache.lock`. -/
  | waiting (b : Buf) (key : Key)
  /-- `bget` has returned. -/
  | locked (b : Buf) (key : Key)
  /-- `bread` has returned; whether the data was changed since it was last stored. -/
  | ready (b : Buf) (key : Key) (changed : Bool)
  /-- `brelse` has released the sleep lock. -/
  | releasing (b : Buf) (key : Key)
  deriving DecidableEq

/-- The part of the log that `log_write` uses. -/
structure Log where
  block : List Nat
  size : Nat
  outstanding : Nat

structure State (K : Nat) (D : Type) where
  /-- The pointers of the buffers and of `bcache.head`. -/
  list : Linked Buf
  buf : Buf → Buffer D
  lock : Buf → Option (Fin K)
  disk : Key → D
  log : Log
  client : Fin K → Client
  trace : List (Event D)

variable {K : Nat} {D : Type}

namespace State

def setBuf (s : State K D) (b : Buf) (buffer : Buffer D) : State K D :=
  { s with buf := Function.update s.buf b buffer }

def setClient (s : State K D) (c : Fin K) (client : Client) : State K D :=
  { s with client := Function.update s.client c client }

def setLock (s : State K D) (b : Buf) (holder : Option (Fin K)) : State K D :=
  { s with lock := Function.update s.lock b holder }

/-- The part of `bget` under `bcache.lock`; `none` is the panic, or a loop that never ends. -/
def bget (s : State K D) (key : Key) : Option (Buf × State K D) :=
  match s.list.find (fun b => (s.buf b).key = key) nbuf (s.list.next none) with
  | none => none
  | some (some b) => some (b, s.setBuf b { s.buf b with refcnt := (s.buf b).refcnt + 1 })
  | some none =>
    match s.list.flip.find (fun b => (s.buf b).refcnt = 0 && !(s.buf b).dirty) nbuf
      (s.list.prev none) with
    | some (some b) =>
      some (b, s.setBuf b { s.buf b with key := key, valid := false, dirty := false, refcnt := 1 })
    | _ => none

/-- A transfer to or from the disk, after which the buffer is valid and not dirty. -/
def iderw (s : State K D) (b : Buf) : Option (State K D) :=
  let buffer := s.buf b
  if buffer.valid && !buffer.dirty then none
  else if buffer.dirty then
    some { s.setBuf b { buffer with valid := true, dirty := false } with
      disk := Function.update s.disk buffer.key buffer.data }
  else some (s.setBuf b { buffer with data := s.disk buffer.key, valid := true })

def bwrite (s : State K D) (b : Buf) : Option (State K D) :=
  (s.setBuf b { s.buf b with dirty := true }).iderw b

/-- `none` is a panic; a block that is in the log already is absorbed. -/
def logWrite (s : State K D) (b : Buf) : Option (State K D) :=
  let n := s.log.block.length
  if n ≥ logSize ∨ n ≥ s.log.size - 1 ∨ s.log.outstanding < 1 then none
  else
    let blockno := (s.buf b).key.blockno
    let block := if blockno ∈ s.log.block then s.log.block else s.log.block ++ [blockno]
    some { s.setBuf b { s.buf b with dirty := true } with log := { s.log with block := block } }

/-- The part of `brelse` under `bcache.lock`. -/
def unref (s : State K D) (b : Buf) : State K D :=
  let refcnt := (s.buf b).refcnt - 1
  let s := s.setBuf b { s.buf b with refcnt := refcnt }
  if refcnt = 0 then { s with list := (s.list.unlink b).pushFront b } else s

def record (s : State K D) (event : Event D) : State K D := { s with trace := s.trace ++ [event] }

end State

inductive Action (K : Nat) (D : Type) where
  | bget (c : Fin K) (key : Key)
  | acquiresleep (c : Fin K)
  /-- The rest of `bread`. -/
  | bread (c : Fin K)
  /-- The client changes the data of the buffer it holds. -/
  | change (c : Fin K) (data : D)
  | logWrite (c : Fin K)
  | bwrite (c : Fin K)
  /-- `brelse` up to the release of the sleep lock. -/
  | brelse (c : Fin K)
  | unref (c : Fin K)
  /-- The rest of log.c begins, ends or commits operations. -/
  | log (log : Log)

/-- A client calls `log_write` or `bwrite` after it has changed the data and before `brelse`. -/
def step (s : State K D) : Action K D → Option (State K D)
  | .bget c key =>
    match s.client c with
    | .idle => (s.bget key).map fun (b, s) => s.setClient c (.waiting b key)
    | _ => none
  | .acquiresleep c =>
    match s.client c with
    | .waiting b key =>
      if s.lock b = none then some ((s.setLock b (some c)).setClient c (.locked b key)) else none
    | _ => none
  | .bread c =>
    match s.client c with
    | .locked b key =>
      (if (s.buf b).valid then some s else s.iderw b).map fun s =>
        (s.record (.read key (s.buf b).data)).setClient c (.ready b key false)
    | _ => none
  | .change c data =>
    match s.client c with
    | .ready b key _ =>
      some ((s.setBuf b { s.buf b with data := data }).setClient c (.ready b key true))
    | _ => none
  | .logWrite c =>
    match s.client c with
    | .ready b key _ =>
      (s.logWrite b).map fun s => (s.record (.write key (s.buf b).data)).setClient c
        (.ready b key false)
    | _ => none
  | .bwrite c =>
    match s.client c with
    | .ready b key _ =>
      (s.bwrite b).map fun s => (s.record (.write key (s.buf b).data)).setClient c
        (.ready b key false)
    | _ => none
  | .brelse c =>
    match s.client c with
    | .ready b key false => some ((s.setLock b none).setClient c (.releasing b key))
    | _ => none
  | .unref c =>
    match s.client c with
    | .releasing b _ => some ((s.unref b).setClient c .idle)
    | _ => none
  | .log log => some { s with log := log }

/-- `binit`. -/
def binit : Linked Buf := (List.finRange nbuf).foldl Linked.pushFront ⟨fun _ => none, fun _ => none⟩

def boot (junk : D) (disk : Key → D) : State K D where
  list := binit
  buf _ := ⟨false, false, ⟨0, 0⟩, 0, junk⟩
  lock _ := none
  disk := disk
  log := ⟨[], 0, 0⟩
  client _ := .idle
  trace := []

end Aso.Xv6.Bio
