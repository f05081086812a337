import Mathlib.Algebra.Group.Int.Defs
import Mathlib.Logic.Function.Basic
import IoWrapper.Core.Machine

/-! `io_uring_echo_server_v3.c` with the kernel it runs on. A connection is polled once and
for all: the poll stays in flight, and each of its completions makes the server queue a recv
into the one buffer of the descriptor. The `user_data` of an entry points into one of three
tables of records. Files are numbered as they are opened, the listening socket is 0, and the
number of a connection's file stands for the connection. -/
namespace IoWrapper.EchoV3.Server
open Core.Machine

def backlog : Nat := 8192

inductive OpType where
  | accept
  | pollListen
  | pollNewConnection
  | read
  | write
  | pollInReady
deriving DecidableEq

structure ConnInfo where
  fd : Nat
  type : OpType
deriving DecidableEq

/-- `conns_read`, `conns_write` and `conns_poll`. -/
inductive Table where
  | read
  | write
  | poll
deriving DecidableEq

/-- A place in one of the tables. -/
structure Ptr where
  table : Table
  index : Nat
deriving DecidableEq

inductive Op where
  | accept (fd : Nat)
  | poll (fd : Nat)
  | recv (fd buf len : Nat)
  | send (fd buf len : Nat)
deriving DecidableEq

def Op.fd : Op → Nat
  | .accept fd | .poll fd | .recv fd _ _ | .send fd _ _ => fd

def Op.type : Op → OpType
  | .accept _ => .accept
  | .poll _ => .pollInReady
  | .recv .. => .read
  | .send .. => .write

def Op.table : Op → Table
  | .accept _ | .recv .. => .read
  | .poll _ => .poll
  | .send .. => .write

/-- What nothing reads: the connection that an operation is issued for, and the bytes of the
recv that a send answers. -/
structure Note where
  conn : Nat
  bytes : List UInt8
deriving DecidableEq

structure Sqe where
  op : Op
  fixedFile : Bool
  userData : Ptr
  note : Note
deriving DecidableEq

structure Cqe where
  entry : Sqe
  res : Int
  note : Note
deriving DecidableEq

inductive Arr where
  | conns (table : Table)
  | bufs
  | registeredFiles
deriving DecidableEq

/-- How the process ends: an index outside of an array, a null entry that is written to,
or `exit(1)` after a text. -/
inductive Stop where
  | outOfBounds (arr : Arr) (index : Int)
  | nullSqe
  | exit (text : String)
deriving DecidableEq

/-- What the event loop starts with. The arrays have `maxConnections` elements, those for
registered files included, and the kernel has rounded the size of the ring up to a power of
two. With `-f` the process has exited if the listening socket could not be registered. -/
structure Setup where
  sockListenFd : Nat
  maxConnections : Nat
  msgLen : Nat
  registerfiles : Bool
  sqEntries : Nat
  registered : registerfiles = true → sockListenFd < maxConnections

inductive Pc where
  | submitting
  | peeking
  | batch
  | stopped (stop : Stop)
deriving DecidableEq

inductive CallKind where
  | recv
  | send
  | shutdown
  | close
deriving DecidableEq

structure Call where
  kind : CallKind
  conn : Nat
  file : Option Nat
deriving DecidableEq

structure Sent where
  answered : List UInt8
  transmitted : List UInt8
deriving DecidableEq

/-- The arrays of the server, with what has been stored in its buffers; the traffic of its
ring, with the batch that it works on; what the kernel has open: the file under each
descriptor, the file in each slot of the registered files, and the number of files opened so
far; and a log of calls and of sends. -/
structure State where
  conns : Table → Nat → ConnInfo
  registeredFiles : Nat → Int
  bufs : Nat → List UInt8
  sq : List Sqe
  inflight : List Sqe
  cq : List Cqe
  batch : List Cqe
  fds : Nat → Option Nat
  slots : Nat → Option Nat
  files : Nat
  calls : List Call
  sent : List Sent
  pc : Pc

/-- `array[index]`. -/
def index (arr : Arr) (length : Nat) (i : Int) : Except Stop Nat :=
  if 0 ≤ i ∧ i < length then .ok i.toNat else .error (.outOfBounds arr i)

/-- A poll is never on a registered file. -/
def Op.fixed (u : Setup) : Op → Bool
  | .poll _ => false
  | .accept _ | .recv .. | .send .. => u.registerfiles

def State.queue (u : Setup) (s : State) (op : Op) (note : Note) : State :=
  { s with
    sq := s.sq ++ [⟨op, op.fixed u, ⟨op.table, op.fd⟩, note⟩]
    conns := fun table i =>
      if table = op.table ∧ i = op.fd then ⟨op.fd, op.type⟩ else s.conns table i }

/-- `io_uring_get_sqe` gives no entry if all of them are queued. -/
def addSqe (u : Setup) (s : State) (op : Op) (note : Note) : Except Stop State :=
  if s.sq.length < u.sqEntries then .ok (s.queue u op note) else .error .nullSqe

def addAccept (u : Setup) (s : State) (fd : Int) : Except Stop State := do
  let connI ← index (.conns .read) u.maxConnections fd
  addSqe u s (.accept connI) ⟨0, []⟩

def addSocketOp (u : Setup) (s : State) (table : Table) (fd : Int) (op : Nat → Nat → Op)
    (note : Note) : Except Stop State := do
  let connI ← index (.conns table) u.maxConnections fd
  let buf ← index .bufs u.maxConnections fd
  addSqe u s (op connI buf) note

def addPollRead (u : Setup) (s : State) (fd : Int) (size : Nat) (isPoll : Bool) (conn : Nat) :
    Except Stop State :=
  if isPoll then do
    let connI ← index (.conns .poll) u.maxConnections fd
    addSqe u s (.poll connI) ⟨conn, []⟩
  else addSocketOp u s .read fd (Op.recv · · size) ⟨conn, []⟩

def addSocketWrite (u : Setup) (s : State) (fd : Int) (size : Nat) (note : Note) :
    Except Stop State :=
  addSocketOp u s .write fd (Op.send · · size) note

def updateErrorText (sockConnFd ret : Int) : String :=
  "io_uring_register_files_update failed: " ++ toString sockConnFd ++ " " ++ toString ret ++ "\n"

def waitErrorText : String := "Error io_uring_wait_cqe\n"

/-- `io_uring_register_files_update` has stored the file that is open under the descriptor. -/
def State.register (s : State) (fd : Nat) : State :=
  { s with
    slots := Function.update s.slots fd (s.fds fd)
    registeredFiles := Function.update s.registeredFiles fd fd }

def registerFile (u : Setup) (s : State) (sockConnFd ret : Int) : Except Stop State :=
  if u.registerfiles then do
    let i ← index .registeredFiles u.maxConnections sockConnFd
    if s.registeredFiles i = -1 then
      if ret < 0 then .error (.exit (updateErrorText sockConnFd ret)) else .ok (s.register i)
    else .ok s
  else .ok s

def State.cqeSeen (s : State) : State := { s with cq := s.cq.tail }

/-- `shutdown` and `close`, for a connection. -/
def State.hangUp (s : State) (fd conn : Nat) : State :=
  { s with
    fds := Function.update s.fds fd none
    calls := s.calls ++ [⟨.shutdown, conn, s.fds fd⟩, ⟨.close, conn, s.fds fd⟩] }

/-- The body of the loop over a batch, where `ret` is what an update of the registered
files would return. -/
def handleCqe (u : Setup) (s : State) (cqe : Cqe) (ret : Int) : Except Stop State :=
  let userData := s.conns cqe.entry.userData.table cqe.entry.userData.index
  match userData.type with
  | .accept => do
    let registered ← registerFile u s.cqeSeen cqe.res ret
    let polling ← addPollRead u registered cqe.res u.msgLen true cqe.note.conn
    addAccept u polling u.sockListenFd
  | .read =>
    if cqe.res ≤ 0 then .ok (s.cqeSeen.hangUp userData.fd cqe.note.conn)
    else addSocketWrite u s.cqeSeen userData.fd cqe.res.toNat cqe.note
  | .write => .ok s.cqeSeen
  | .pollInReady => do
    let reading ← addPollRead u s userData.fd u.msgLen false cqe.note.conn
    .ok reading.cqeSeen
  | .pollListen | .pollNewConnection => .ok s

def State.blank (u : Setup) : State :=
  { conns := fun _ _ => ⟨0, .accept⟩
    registeredFiles := fun _ => -1
    bufs := fun _ => []
    sq := []
    inflight := []
    cq := []
    batch := []
    fds := Function.update (fun _ => none) u.sockListenFd (some 0)
    slots := fun _ => none
    files := 1
    calls := []
    sent := []
    pc := .submitting }

/-- With `-f` the listening socket is registered. -/
def State.listening (u : Setup) : State :=
  if u.registerfiles then (State.blank u).register u.sockListenFd else State.blank u

def State.init (u : Setup) : State :=
  match addAccept u (State.listening u) u.sockListenFd with
  | .ok s => s
  | .error stop => { State.listening u with pc := .stopped stop }

/-- A completion brings the bytes that a recv has stored, and says whether more are to come
from the same entry. -/
inductive Event where
  | submit (count : Nat)
  | submitError
  | peek
  | handle (ret : Int)
  | endBatch
  | complete (i : Nat) (res : Int) (data : List UInt8) (more : Bool)
deriving DecidableEq

def State.react (u : Setup) (s : State) (cqe : Cqe) (rest : List Cqe) (ret : Int) : State :=
  match handleCqe u { s with batch := rest } cqe ret with
  | .ok t => t
  | .error stop => { s with pc := .stopped stop }

/-- The file that an operation is applied to when it is submitted. -/
def State.target (s : State) (sqe : Sqe) : Option Nat :=
  if sqe.fixedFile then s.slots sqe.op.fd else s.fds sqe.op.fd

def State.call (s : State) (sqe : Sqe) : List Call :=
  match sqe.op with
  | .accept _ | .poll _ => []
  | .recv .. => [⟨.recv, sqe.note.conn, s.target sqe⟩]
  | .send .. => [⟨.send, sqe.note.conn, s.target sqe⟩]

def State.submit (s : State) (count : Nat) : State :=
  { s with
    sq := s.sq.drop count
    inflight := s.inflight ++ s.sq.take count
    calls := s.calls ++ (s.sq.take count).flatMap s.call
    pc := .peeking }

def opened (sqe : Sqe) (res : Int) : List Nat :=
  if sqe.op.type = .accept ∧ 0 ≤ res then [res.toNat] else []

/-- Bytes come with a recv, no more than it asked for, and the result is their number; a send
has not sent more than it was given. -/
def Carries (res : Int) (data : List UInt8) : Op → Prop
  | .accept _ | .poll _ => data = []
  | .recv _ _ len => data.length = res.toNat ∧ data.length ≤ len
  | .send _ _ len => data = [] ∧ res ≤ len

instance (res : Int) (data : List UInt8) (op : Op) : Decidable (Carries res data op) :=
  match op with
  | .accept _ | .poll _ => inferInstanceAs (Decidable (data = []))
  | .recv _ _ _ => inferInstanceAs (Decidable (_ ∧ _))
  | .send _ _ _ => inferInstanceAs (Decidable (_ ∧ _))

/-- The result is an `int`, and an accept returns a descriptor that is not open. Only a poll
has more than one completion. -/
def State.Possible (s : State) (sqe : Sqe) (res : Int) (data : List UInt8) (more : Bool) : Prop :=
  (-2 ^ 31 ≤ res ∧ res < 2 ^ 31) ∧ (∀ fd ∈ opened sqe res, s.fds fd = none) ∧
    Carries res data sqe.op ∧ (more = true → sqe.op.type = .pollInReady)

instance (s : State) (sqe : Sqe) (res : Int) (data : List UInt8) (more : Bool) :
    Decidable (s.Possible sqe res data more) :=
  inferInstanceAs (Decidable ((_ ∧ _) ∧ _ ∧ _ ∧ (_ → _)))

def State.store (s : State) (data : List UInt8) : Op → Nat → List UInt8
  | .recv _ buf _ => Function.update s.bufs buf (data ++ (s.bufs buf).drop data.length)
  | .accept _ | .poll _ | .send .. => s.bufs

def State.transmit (s : State) (sqe : Sqe) (res : Int) : List Sent :=
  match sqe.op with
  | .send _ buf _ => [⟨sqe.note.bytes.take res.toNat, (s.bufs buf).take res.toNat⟩]
  | .accept _ | .poll _ | .recv .. => []

def State.connOf (s : State) (sqe : Sqe) (res : Int) : Nat :=
  if opened sqe res = [] then sqe.note.conn else s.files

def State.complete (s : State) (i : Nat) (sqe : Sqe) (res : Int) (data : List UInt8)
    (more : Bool) : State :=
  { s with
    bufs := s.store data sqe.op
    inflight := if more then s.inflight else s.inflight.eraseIdx i
    cq := s.cq ++ [⟨sqe, res, s.connOf sqe res, data⟩]
    fds := fun fd => if fd ∈ opened sqe res then some s.files else s.fds fd
    files := s.files + (opened sqe res).length
    sent := s.sent ++ s.transmit sqe res }

def step (u : Setup) (s : State) : Event → Option State
  | .submit count => if s.pc = .submitting then some (s.submit count) else none
  | .submitError =>
    if s.pc = .submitting then some { s with pc := .stopped (.exit waitErrorText) } else none
  | .peek =>
    if s.pc = .peeking then some { s with batch := s.cq.take backlog, pc := .batch } else none
  | .handle ret =>
    match s.pc, s.batch with
    | .batch, cqe :: rest => some (s.react u cqe rest ret)
    | _, _ => none
  | .endBatch => if s.pc = .batch ∧ s.batch = [] then some { s with pc := .submitting } else none
  | .complete i res data more =>
    match s.inflight[i]? with
    | some sqe =>
      if s.Possible sqe res data more then some (s.complete i sqe res data more) else none
    | none => none

section Calls

variable {u : Setup} {s t : State} {fd : Int}

theorem index_eq_ok {arr : Arr} {length i : Nat} :
    index arr length fd = .ok i ↔ 0 ≤ fd ∧ fd < length ∧ i = fd.toNat := by
  unfold index
  split
  · rename_i h
    simp [h, eq_comm]
  · rename_i h
    simp only [reduceCtorEq, false_iff]
    omega

theorem addSqe_eq_ok {op : Op} {note : Note} (h : addSqe u s op note = .ok t) :
    t = s.queue u op note := by
  unfold addSqe at h
  split at h
  · cases h
    rfl
  · cases h

theorem addAccept_eq_ok (h : addAccept u s fd = .ok t) :
    0 ≤ fd ∧ fd < u.maxConnections ∧ t = s.queue u (.accept fd.toNat) ⟨0, []⟩ := by
  rcases bind_eq_ok.mp h with ⟨connI, hconn, hadd⟩
  rcases index_eq_ok.mp hconn with ⟨hpos, hlt, rfl⟩
  exact ⟨hpos, hlt, addSqe_eq_ok hadd⟩

theorem addSocketOp_eq_ok {table : Table} {op : Nat → Nat → Op} {note : Note}
    (h : addSocketOp u s table fd op note = .ok t) :
    0 ≤ fd ∧ fd < u.maxConnections ∧ t = s.queue u (op fd.toNat fd.toNat) note := by
  rcases bind_eq_ok.mp h with ⟨connI, hconn, hrest⟩
  rcases bind_eq_ok.mp hrest with ⟨buf, hbuf, hadd⟩
  rcases index_eq_ok.mp hconn with ⟨hpos, hlt, rfl⟩
  rcases index_eq_ok.mp hbuf with ⟨-, -, rfl⟩
  exact ⟨hpos, hlt, addSqe_eq_ok hadd⟩

theorem addPoll_eq_ok {size conn : Nat} (h : addPollRead u s fd size true conn = .ok t) :
    0 ≤ fd ∧ fd < u.maxConnections ∧ t = s.queue u (.poll fd.toNat) ⟨conn, []⟩ := by
  rcases bind_eq_ok.mp h with ⟨connI, hconn, hadd⟩
  rcases index_eq_ok.mp hconn with ⟨hpos, hlt, rfl⟩
  exact ⟨hpos, hlt, addSqe_eq_ok hadd⟩

inductive Registered (u : Setup) (s : State) (fd : Nat) : State → Prop where
  | unused (hfixed : u.registerfiles = false) : Registered u s fd s
  | filled (hfixed : u.registerfiles = true) (hblank : s.registeredFiles fd = -1) :
      Registered u s fd (s.register fd)
  | kept (hfixed : u.registerfiles = true) (hset : s.registeredFiles fd ≠ -1) :
      Registered u s fd s

theorem registerFile_eq_ok {ret : Int} (h : registerFile u s fd ret = .ok t) :
    Registered u s fd.toNat t := by
  unfold registerFile at h
  split at h
  · rename_i hfixed
    rcases bind_eq_ok.mp h with ⟨i, hindex, hrest⟩
    rcases index_eq_ok.mp hindex with ⟨-, -, rfl⟩
    split at hrest
    · rename_i hblank
      split at hrest
      · cases hrest
      · cases hrest
        exact .filled hfixed hblank
    · rename_i hset
      cases hrest
      exact .kept hfixed hset
  · rename_i hfixed
    cases h
    exact .unused (Bool.eq_false_iff.mpr hfixed)

def State.record (s : State) (cqe : Cqe) : ConnInfo :=
  s.conns cqe.entry.userData.table cqe.entry.userData.index

inductive Answered (u : Setup) (s : State) (cqe : Cqe) : State → Prop where
  | accepted {mid : State} (htype : (s.record cqe).type = .accept) (hpos : 0 ≤ cqe.res)
      (hlt : cqe.res < u.maxConnections) (hmid : Registered u s.cqeSeen cqe.res.toNat mid) :
      Answered u s cqe ((mid.queue u (.poll cqe.res.toNat) ⟨cqe.note.conn, []⟩).queue u
        (.accept u.sockListenFd) ⟨0, []⟩)
  | hungUp (htype : (s.record cqe).type = .read) (hres : cqe.res ≤ 0) :
      Answered u s cqe (s.cqeSeen.hangUp (s.record cqe).fd cqe.note.conn)
  | received (htype : (s.record cqe).type = .read) (hres : 0 < cqe.res)
      (hlt : (s.record cqe).fd < u.maxConnections) :
      Answered u s cqe (s.cqeSeen.queue u
        (.send (s.record cqe).fd (s.record cqe).fd cqe.res.toNat) cqe.note)
  | sent (htype : (s.record cqe).type = .write) : Answered u s cqe s.cqeSeen
  | ready (htype : (s.record cqe).type = .pollInReady)
      (hlt : (s.record cqe).fd < u.maxConnections) :
      Answered u s cqe (s.queue u (.recv (s.record cqe).fd (s.record cqe).fd u.msgLen)
        ⟨cqe.note.conn, []⟩).cqeSeen
  | ignored (htype : (s.record cqe).type = .pollListen ∨
      (s.record cqe).type = .pollNewConnection) : Answered u s cqe s

theorem handleCqe_eq_ok {cqe : Cqe} {ret : Int} (h : handleCqe u s cqe ret = .ok t) :
    Answered u s cqe t := by
  unfold handleCqe at h
  simp only at h
  split at h
  · rename_i htype
    rcases bind_eq_ok.mp h with ⟨mid, hmid, hrest⟩
    rcases bind_eq_ok.mp hrest with ⟨next, hnext, haccept⟩
    rcases addPoll_eq_ok hnext with ⟨hpos, hlt, rfl⟩
    rcases addAccept_eq_ok haccept with ⟨-, -, rfl⟩
    exact .accepted htype hpos hlt (registerFile_eq_ok hmid)
  · rename_i htype
    split at h
    · rename_i hres
      cases h
      exact .hungUp htype hres
    · rename_i hres
      rcases addSocketOp_eq_ok h with ⟨-, hlt, rfl⟩
      exact .received htype (by omega) (by unfold State.record; omega)
  · rename_i htype
    cases h
    exact .sent htype
  · rename_i htype
    rcases bind_eq_ok.mp h with ⟨mid, hmid, hseen⟩
    rcases addSocketOp_eq_ok hmid with ⟨-, hlt, rfl⟩
    cases hseen
    exact .ready htype (by unfold State.record; omega)
  · rename_i htype
    cases h
    exact .ignored (.inl htype)
  · rename_i htype
    cases h
    exact .ignored (.inr htype)

end Calls

inductive Step (u : Setup) (s : State) : Event → State → Prop where
  | submitted {count : Nat} (hpc : s.pc = .submitting) : Step u s (.submit count) (s.submit count)
  | failed (hpc : s.pc = .submitting) :
      Step u s .submitError { s with pc := .stopped (.exit waitErrorText) }
  | peeked (hpc : s.pc = .peeking) :
      Step u s .peek { s with batch := s.cq.take backlog, pc := .batch }
  | answered {cqe : Cqe} {rest : List Cqe} {ret : Int} {t : State} (hpc : s.pc = .batch)
      (hbatch : s.batch = cqe :: rest)
      (hok : handleCqe u { s with batch := rest } cqe ret = .ok t)
      (hanswered : Answered u { s with batch := rest } cqe t) : Step u s (.handle ret) t
  | stopped {cqe : Cqe} {rest : List Cqe} {ret : Int} {stop : Stop} (hpc : s.pc = .batch)
      (hbatch : s.batch = cqe :: rest)
      (hstop : handleCqe u { s with batch := rest } cqe ret = .error stop) :
      Step u s (.handle ret) { s with pc := .stopped stop }
  | ended (hpc : s.pc = .batch) (hbatch : s.batch = []) :
      Step u s .endBatch { s with pc := .submitting }
  | completed {i : Nat} {sqe : Sqe} {res : Int} {data : List UInt8} {more : Bool}
      (hsqe : s.inflight[i]? = some sqe) (hpossible : s.Possible sqe res data more) :
      Step u s (.complete i res data more) (s.complete i sqe res data more)

theorem step_sound {u : Setup} {s t : State} {event : Event} (h : step u s event = some t) :
    Step u s event t := by
  cases event with
  | submit count =>
    simp only [step, Option.ite_none_right_eq_some, Option.some.injEq] at h
    rw [← h.2]
    exact .submitted h.1
  | submitError =>
    simp only [step, Option.ite_none_right_eq_some, Option.some.injEq] at h
    rw [← h.2]
    exact .failed h.1
  | peek =>
    simp only [step, Option.ite_none_right_eq_some, Option.some.injEq] at h
    rw [← h.2]
    exact .peeked h.1
  | handle ret =>
    simp only [step] at h
    split at h
    · rename_i cqe rest hpc hbatch
      cases h
      unfold State.react
      cases hok : handleCqe u { s with batch := rest } cqe ret with
      | ok next => exact .answered hpc hbatch hok (handleCqe_eq_ok hok)
      | error stop => exact .stopped hpc hbatch hok
    · cases h
  | endBatch =>
    simp only [step, Option.ite_none_right_eq_some, Option.some.injEq] at h
    rw [← h.2]
    exact .ended h.1.1 h.1.2
  | complete i res data more =>
    simp only [step] at h
    split at h
    · rename_i sqe hsqe
      simp only [Option.ite_none_right_eq_some, Option.some.injEq] at h
      rw [← h.2]
      exact .completed hsqe h.1
    · cases h

def plainSetup : Setup := ⟨3, 4124, 2046, false, 8192, nofun⟩

def oneConnect : List Event := [.submit 1, .complete 0 5 [] false, .peek, .handle 0, .endBatch,
  .submit 2]

end IoWrapper.EchoV3.Server
