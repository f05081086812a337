import Mathlib.Algebra.Group.Int.Defs
import Mathlib.Logic.Function.Basic
import IoWrapper.Core.BufRing
import IoWrapper.EchoV1.Server

/-! `io_uring_echo_server_v2.c` with the kernel it runs on. A recv names no memory: the
kernel takes the next buffer of a registered ring, and the completion reports its id. The
server puts a buffer back into the ring as soon as it sees the completion, one at a time,
and moves the tail of the ring once for a whole batch. -/
namespace IoWrapper.EchoV2.Server
open Core.Machine Core.BufRing
open EchoV1.Server (OpType ConnInfo Arr Stop Setup Pc backlog sqEntries index index_eq_ok
  updateErrorText waitErrorText)

def nrBufs : Nat := 1024

/-- A place in memory: a buffer of the pool, which is at `buf_ptr + msg_len * i`, or an
element of the table of pointers, which is at `&bufs[i]`. -/
inductive Addr where
  | pool (i : Nat)
  | table (i : Nat)
deriving DecidableEq

structure Buf where
  addr : Addr
  len : Nat
  bid : Nat
deriving DecidableEq

inductive Op where
  | accept (fd : Nat)
  | recv (fd len : Nat)
  | send (fd : Nat) (source : Addr) (len : Nat)
deriving DecidableEq

def Op.fd : Op → Nat
  | .accept fd | .recv fd _ | .send fd _ _ => fd

def Op.type : Op → OpType
  | .accept _ => .accept
  | .recv .. => .read
  | .send .. => .write

/-- A submission entry; its `user_data` is a place in `conns`. -/
structure Sqe where
  op : Op
  fixedFile : Bool
  userData : Nat
deriving DecidableEq

structure Cqe where
  entry : Sqe
  res : Int
  used : Option Buf
deriving DecidableEq

/-- The id of the buffer from bit 16 on, and a bit that says that there is one. -/
def Cqe.flags (cqe : Cqe) : Nat :=
  match cqe.used with
  | some buf => buf.bid * 2 ^ 16 + 1
  | none => 0

def Cqe.bufId (cqe : Cqe) : Nat := cqe.flags >>> 16

/-- The arrays of the server and its ring of buffers, the traffic of its ring, and what the
kernel has open, as in the first version. Of the completions that are not processed yet the
first `todo` belong to the batch; `reads` are the READ completions since the tail was moved,
and `buf_added` is their number. -/
structure State where
  conns : Nat → ConnInfo
  registeredFiles : Nat → Int
  bufRing : SlotRing Buf
  reads : List Cqe
  sq : List Sqe
  inflight : List Sqe
  cq : List Cqe
  todo : Nat
  fds : Nat → Option Nat
  slots : Nat → Option Nat
  files : Nat
  closed : List Nat
  pc : Pc

def State.queue (u : Setup) (s : State) (connI : Nat) (op : Op) : State :=
  { s with
    sq := s.sq ++ [⟨op, u.registerfiles, connI⟩]
    conns := Function.update s.conns connI ⟨op.fd, op.type⟩ }

/-- `io_uring_get_sqe` gives no entry if all of them are queued. -/
def addSqe (u : Setup) (s : State) (connI : Nat) (op : Op) : Except Stop State :=
  if s.sq.length < sqEntries then .ok (s.queue u connI op) else .error .nullSqe

/-- The three functions that queue an operation differ in the operation only. -/
def addOp (u : Setup) (s : State) (fd : Int) (op : Nat → Op) : Except Stop State := do
  let connI ← index .conns u.maxConnections fd
  addSqe u s connI (op connI)

def addAccept (u : Setup) (s : State) (fd : Int) : Except Stop State :=
  addOp u s fd Op.accept

def addSocketRead (u : Setup) (s : State) (fd : Int) (size : Nat) : Except Stop State :=
  addOp u s fd (Op.recv · size)

/-- The bytes to send are those from `&bufs[bid]` on. -/
def addSocketWrite (u : Setup) (s : State) (fd : Int) (bid size : Nat) : Except Stop State :=
  addOp u s fd (Op.send · (.table bid) size)

/-- `io_uring_register_files_update` has stored the file that is open under the descriptor. -/
def State.register (s : State) (fd : Nat) : State :=
  { s with
    slots := Function.update s.slots fd (s.fds fd)
    registeredFiles := Function.update s.registeredFiles fd fd }

def registerFile (u : Setup) (s : State) (sockConnFd ret : Int) : Except Stop State :=
  if u.registerfiles then do
    let i ← index .registeredFiles u.nrFiles sockConnFd
    if s.registeredFiles i = -1 then
      if ret < 0 then .error (.exit (updateErrorText sockConnFd ret)) else .ok (s.register i)
    else .ok s
  else .ok s

/-- `close`. The `shutdown` before it leaves the descriptor open. -/
def State.close (s : State) (fd : Nat) : State :=
  { s with fds := Function.update s.fds fd none, closed := s.closed ++ [fd] }

/-- `io_uring_buf_ring_add`, with the id 0 and at the offset 0. -/
def State.addBuf (u : Setup) (s : State) (cqe : Cqe) : State :=
  { s with
    bufRing := s.bufRing.add nrBufs ⟨.pool cqe.bufId, u.msgLen, 0⟩ 0
    reads := s.reads ++ [cqe] }

/-- The body of the loop over a batch, where `ret` is what an update of the registered
files would return. -/
def handleCqe (u : Setup) (s : State) (cqe : Cqe) (ret : Int) : Except Stop State :=
  let userData := s.conns cqe.entry.userData
  match userData.type with
  | .accept => do
    let registered ← registerFile u s cqe.res ret
    let reading ← addSocketRead u registered cqe.res u.msgLen
    addAccept u reading u.sockListenFd
  | .read =>
    if cqe.res ≤ 0 then .ok ((s.addBuf u cqe).close userData.fd)
    else addSocketWrite u (s.addBuf u cqe) userData.fd cqe.bufId cqe.res.toNat
  | .write => addSocketRead u s userData.fd u.msgLen
  | .pollListen | .pollNewConnection => .ok s

def poolBuf (u : Setup) (i : Nat) : Buf := ⟨.pool i, u.msgLen, i⟩

def blankBufs : SlotRing Buf := ⟨fun _ => ⟨.pool 0, 0, 0⟩, 0, 0⟩

def setUpBufs (u : Setup) : SlotRing Buf := blankBufs.fill nrBufs (poolBuf u) nrBufs

def State.blank (u : Setup) : State :=
  { conns := fun _ => ⟨0, .accept⟩
    registeredFiles := fun _ => -1
    bufRing := setUpBufs u
    reads := []
    sq := []
    inflight := []
    cq := []
    todo := 0
    fds := Function.update (fun _ => none) u.sockListenFd (some 0)
    slots := fun _ => none
    files := 1
    closed := []
    pc := .submitting }

/-- With `-f` the listening socket is registered. -/
def State.listening (u : Setup) : State :=
  if u.registerfiles then (State.blank u).register u.sockListenFd else State.blank u

def State.init (u : Setup) : State :=
  match addAccept u (State.listening u) u.sockListenFd with
  | .ok s => s
  | .error stop => { State.listening u with pc := .stopped stop }

/-- A completion says whether the kernel has taken a buffer for it. -/
inductive Event where
  | submit (count : Nat)
  | submitError
  | peek
  | handle (ret : Int)
  | endBatch
  | complete (i : Nat) (res : Int) (takes : Bool)
deriving DecidableEq

def State.next (s : State) : State := { s with cq := s.cq.tail, todo := s.todo - 1 }

def State.react (u : Setup) (s : State) (cqe : Cqe) (ret : Int) : State :=
  match handleCqe u s.next cqe ret with
  | .ok t => t
  | .error stop => { s with pc := .stopped stop }

def opened (cqe : Cqe) : List Nat :=
  if cqe.entry.op.type = .accept ∧ 0 ≤ cqe.res then [cqe.res.toNat] else []

/-- The result is an `int`, and an accept returns a descriptor that is not open. Only a recv
takes a buffer, if there is one, and it does if it has received something. -/
def State.Possible (s : State) (sqe : Sqe) (res : Int) (takes : Bool) : Prop :=
  (-2 ^ 31 ≤ res ∧ res < 2 ^ 31 ∧ ∀ fd ∈ opened ⟨sqe, res, none⟩, s.fds fd = none) ∧
    (takes = true → sqe.op.type = .read ∧ s.bufRing.count ≠ 0) ∧
    (sqe.op.type = .read ∧ 0 < res → takes = true)

instance (s : State) (sqe : Sqe) (res : Int) (takes : Bool) :
    Decidable (s.Possible sqe res takes) :=
  inferInstanceAs (Decidable ((_ ∧ _ ∧ _) ∧ (_ → _) ∧ (_ → _)))

def State.completed (s : State) (i : Nat) (cqe : Cqe) : State :=
  { s with
    inflight := s.inflight.eraseIdx i
    cq := s.cq ++ [cqe]
    fds := fun fd => if fd ∈ opened cqe then some s.files else s.fds fd
    files := s.files + (opened cqe).length }

def State.takeBuf (s : State) : State := { s with bufRing := s.bufRing.consume }

def State.complete (s : State) (i : Nat) (sqe : Sqe) (res : Int) (takes : Bool) : State :=
  if takes then s.takeBuf.completed i ⟨sqe, res, some (s.bufRing.first nrBufs)⟩
  else s.completed i ⟨sqe, res, none⟩

/-- `io_uring_buf_ring_advance`. -/
def State.advance (s : State) : State :=
  { s with bufRing := s.bufRing.advance s.reads.length, reads := [], pc := .submitting }

def State.submit (s : State) (count : Nat) : State :=
  { s with sq := s.sq.drop count, inflight := s.inflight ++ s.sq.take count, pc := .peeking }

def step (u : Setup) (s : State) : Event → Option State
  | .submit count => if s.pc = .submitting then some (s.submit count) else none
  | .submitError =>
    if s.pc = .submitting then some { s with pc := .stopped (.exit waitErrorText) } else none
  | .peek =>
    if s.pc = .peeking then some { s with todo := min backlog s.cq.length, pc := .batch }
    else none
  | .handle ret =>
    match s.pc, s.todo, s.cq with
    | .batch, _ + 1, cqe :: _ => some (s.react u cqe ret)
    | _, _, _ => none
  | .endBatch => if s.pc = .batch ∧ s.todo = 0 then some s.advance else none
  | .complete i res takes =>
    match s.inflight[i]? with
    | some sqe => if s.Possible sqe res takes then some (s.complete i sqe res takes) else none
    | none => none

theorem bufId_of_used {cqe : Cqe} {buf : Buf} (h : cqe.used = some buf) :
    cqe.bufId = buf.bid := by
  rw [Cqe.bufId, Cqe.flags, h, Nat.shiftRight_eq_div_pow]
  dsimp only
  omega

section Calls

variable {u : Setup} {s t : State} {fd : Int}

theorem addSqe_eq_ok {connI : Nat} {op : Op} (h : addSqe u s connI op = .ok t) :
    t = s.queue u connI op := by
  unfold addSqe at h
  split at h
  · cases h
    rfl
  · cases h

theorem addOp_eq_ok {op : Nat → Op} (h : addOp u s fd op = .ok t) :
    0 ≤ fd ∧ fd < u.maxConnections ∧ t = s.queue u fd.toNat (op fd.toNat) := by
  rcases bind_eq_ok.mp h with ⟨connI, hconn, hadd⟩
  rcases index_eq_ok.mp hconn with ⟨hpos, hlt, rfl⟩
  exact ⟨hpos, hlt, addSqe_eq_ok hadd⟩

theorem registerFile_eq_ok {ret : Int} (h : registerFile u s fd ret = .ok t) :
    t = s ∨ t = s.register fd.toNat := by
  unfold registerFile at h
  split at h
  · rcases bind_eq_ok.mp h with ⟨i, hindex, hrest⟩
    rcases index_eq_ok.mp hindex with ⟨-, -, rfl⟩
    split at hrest
    · split at hrest
      · cases hrest
      · cases hrest
        exact .inr rfl
    · cases hrest
      exact .inl rfl
  · cases h
    exact .inl rfl

inductive Answered (u : Setup) (s : State) (cqe : Cqe) : State → Prop where
  | accepted {mid : State} (htype : (s.conns cqe.entry.userData).type = .accept)
      (hpos : 0 ≤ cqe.res) (hlt : cqe.res < u.maxConnections)
      (hmid : mid = s ∨ mid = s.register cqe.res.toNat) :
      Answered u s cqe ((mid.queue u cqe.res.toNat (.recv cqe.res.toNat u.msgLen)).queue u
        u.sockListenFd (.accept u.sockListenFd))
  | hungUp (htype : (s.conns cqe.entry.userData).type = .read) (hres : cqe.res ≤ 0) :
      Answered u s cqe ((s.addBuf u cqe).close (s.conns cqe.entry.userData).fd)
  | received (htype : (s.conns cqe.entry.userData).type = .read) (hres : 0 < cqe.res)
      (hlt : (s.conns cqe.entry.userData).fd < u.maxConnections) :
      Answered u s cqe ((s.addBuf u cqe).queue u (s.conns cqe.entry.userData).fd
        (.send (s.conns cqe.entry.userData).fd (.table cqe.bufId) cqe.res.toNat))
  | sent (htype : (s.conns cqe.entry.userData).type = .write)
      (hlt : (s.conns cqe.entry.userData).fd < u.maxConnections) :
      Answered u s cqe (s.queue u (s.conns cqe.entry.userData).fd
        (.recv (s.conns cqe.entry.userData).fd u.msgLen))
  | ignored (htype : (s.conns cqe.entry.userData).type = .pollListen ∨
      (s.conns cqe.entry.userData).type = .pollNewConnection) : Answered u s cqe s

theorem handleCqe_eq_ok {cqe : Cqe} {ret : Int} (h : handleCqe u s cqe ret = .ok t) :
    Answered u s cqe t := by
  unfold handleCqe at h
  simp only at h
  split at h
  · rename_i htype
    rcases bind_eq_ok.mp h with ⟨mid, hmid, hrest⟩
    rcases bind_eq_ok.mp hrest with ⟨next, hnext, haccept⟩
    rcases addOp_eq_ok hnext with ⟨hpos, hlt, rfl⟩
    rcases addOp_eq_ok haccept with ⟨-, -, rfl⟩
    exact .accepted htype hpos hlt (registerFile_eq_ok hmid)
  · rename_i htype
    split at h
    · rename_i hres
      cases h
      exact .hungUp htype hres
    · rename_i hres
      rcases addOp_eq_ok h with ⟨-, hlt, rfl⟩
      exact .received htype (by omega) (by omega)
  · rename_i htype
    rcases addOp_eq_ok h with ⟨-, hlt, rfl⟩
    exact .sent htype (by omega)
  · rename_i htype
    cases h
    exact .ignored (.inl htype)
  · rename_i htype
    cases h
    exact .ignored (.inr htype)

end Calls

inductive Step (u : Setup) (s : State) : Event → State → Prop where
  | submitted {count : Nat} (hpc : s.pc = .submitting) : Step u s (.submit count) (s.submit count)
  | failed (hpc : s.pc = .submitting) :
      Step u s .submitError { s with pc := .stopped (.exit waitErrorText) }
  | peeked (hpc : s.pc = .peeking) :
      Step u s .peek { s with todo := min backlog s.cq.length, pc := .batch }
  | answered {cqe : Cqe} {rest : List Cqe} {todo : Nat} {ret : Int} {t : State}
      (hpc : s.pc = .batch) (htodo : s.todo = todo + 1) (hcq : s.cq = cqe :: rest)
      (hok : handleCqe u s.next cqe ret = .ok t)
      (hanswered : Answered u s.next cqe t) : Step u s (.handle ret) t
  | stopped {cqe : Cqe} {rest : List Cqe} {ret : Int} {stop : Stop} (hpc : s.pc = .batch)
      (hcq : s.cq = cqe :: rest) (hstop : handleCqe u s.next cqe ret = .error stop) :
      Step u s (.handle ret) { s with pc := .stopped stop }
  | ended (hpc : s.pc = .batch) (htodo : s.todo = 0) : Step u s .endBatch s.advance
  | completed {i : Nat} {sqe : Sqe} {res : Int} {takes : Bool} (hsqe : s.inflight[i]? = some sqe)
      (hpossible : s.Possible sqe res takes) :
      Step u s (.complete i res takes) (s.complete i sqe res takes)

theorem step_sound {u : Setup} {s t : State} {event : Event} (h : step u s event = some t) :
    Step u s event t := by
  cases event with
  | submit count =>
    simp only [step, Option.ite_none_right_eq_some, Option.some.injEq] at h
    rw [← h.2]
    exact .submitted h.1
  | submitError =>
    simp only [step, Option.ite_none_right_eq_some, Option.some.injEq] at h
    rw [← h.2]
    exact .failed h.1
  | peek =>
    simp only [step, Option.ite_none_right_eq_some, Option.some.injEq] at h
    rw [← h.2]
    exact .peeked h.1
  | handle ret =>
    simp only [step] at h
    split at h
    · rename_i todo cqe rest hpc htodo hcq
      cases h
      unfold State.react
      cases hok : handleCqe u s.next cqe ret with
      | ok next => exact .answered hpc htodo hcq hok (handleCqe_eq_ok hok)
      | error stop => exact .stopped hpc hcq hok
    · cases h
  | endBatch =>
    simp only [step, Option.ite_none_right_eq_some, Option.some.injEq] at h
    rw [← h.2]
    exact .ended h.1.1 h.1.2
  | complete i res takes =>
    simp only [step] at h
    split at h
    · rename_i sqe hsqe
      simp only [Option.ite_none_right_eq_some, Option.some.injEq] at h
      rw [← h.2]
      exact .completed hsqe h.1
    · cases h

def plainSetup : Setup := ⟨3, 4124, 2046, false, 1048576, nofun⟩

def oneConnect : List Event := [.submit 1, .complete 0 5 false, .peek, .handle 0, .endBatch]

def exchange (i : Nat) (takes : Bool) : List Event :=
  [.submit 2, .complete i 4 takes, .peek, .handle 0, .endBatch]

def oneMessage : List Event := oneConnect ++ exchange 0 true

end IoWrapper.EchoV2.Server
