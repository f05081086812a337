import Mathlib.Algebra.Group.Int.Defs
import Mathlib.Logic.Function.Basic
import IoWrapper.Core.Machine
import IoWrapper.Core.Traffic

/-! `io_uring_echo_server_v1.c` with the kernel it runs on. The `user_data` of an entry
points to the record of its descriptor in `conns`, and the record is overwritten for every
operation on the descriptor. With `-f` the operations name a slot of the ring's registered
files, which the server fills when it has not filled it before. -/
namespace IoWrapper.EchoV1.Server
open Core.Machine Core.Traffic

def backlog : Nat := 8192

/-- The size asked for in `io_uring_queue_init_params`, a power of two. -/
def sqEntries : Nat := 32768

inductive OpType where
  | accept
  | pollListen
  | pollNewConnection
  | read
  | write
deriving DecidableEq

structure ConnInfo where
  fd : Nat
  type : OpType
deriving DecidableEq

inductive Op where
  | accept (fd : Nat)
  | recv (fd buf len : Nat)
  | send (fd buf len : Nat)
deriving DecidableEq

def Op.fd : Op → Nat
  | .accept fd | .recv fd _ _ | .send fd _ _ => fd

def Op.type : Op → OpType
  | .accept _ => .accept
  | .recv .. => .read
  | .send .. => .write

@[simp] theorem accept_fd (fd : Nat) : (Op.accept fd).fd = fd := rfl

@[simp] theorem recv_fd (fd buf len : Nat) : (Op.recv fd buf len).fd = fd := rfl

@[simp] theorem send_fd (fd buf len : Nat) : (Op.send fd buf len).fd = fd := rfl

@[simp] theorem accept_type (fd : Nat) : (Op.accept fd).type = .accept := rfl

@[simp] theorem recv_type (fd buf len : Nat) : (Op.recv fd buf len).type = .read := rfl

@[simp] theorem send_type (fd buf len : Nat) : (Op.send fd buf len).type = .write := rfl

/-- A submission entry; its `user_data` is a place in `conns`. -/
structure Sqe where
  op : Op
  fixedFile : Bool
  userData : Nat
deriving DecidableEq

abbrev Cqe := Completion Sqe

inductive Arr where
  | conns
  | bufs
  | registeredFiles
deriving DecidableEq

/-- How the process ends: an index outside of an array, a null entry that is written to,
or `exit(1)` after a text. -/
inductive Stop where
  | outOfBounds (arr : Arr) (index : Int)
  | nullSqe
  | exit (text : String)
deriving DecidableEq

def maxFiles (rlimMax : Nat) : Nat := if rlimMax > 32768 then 32768 else rlimMax

/-- What the event loop starts with. The lengths are those that the arrays have been
allocated with, and with `-f` the process has exited if the listening socket could not be
registered. -/
structure Setup where
  sockListenFd : Nat
  maxConnections : Nat
  msgLen : Nat
  registerfiles : Bool
  rlimMax : Nat
  registered : registerfiles = true → sockListenFd < maxFiles rlimMax

def Setup.nrFiles (u : Setup) : Nat := maxFiles u.rlimMax

inductive Pc where
  | submitting
  | peeking
  | batch
  | stopped (stop : Stop)
deriving DecidableEq

/-- The arrays of the server, the traffic of its ring with the batch that it works on, and
what the kernel has open: the file under each descriptor, the file in each slot, and the
number of files opened so far; with a note of the descriptors that the server has closed. -/
structure State where
  conns : Nat → ConnInfo
  registeredFiles : Nat → Int
  ring : IoRing Sqe
  batch : List Cqe
  fds : Nat → Option Nat
  slots : Nat → Option Nat
  files : Nat
  closed : List Nat
  pc : Pc

/-- `array[index]`. -/
def index (arr : Arr) (length : Nat) (i : Int) : Except Stop Nat :=
  if 0 ≤ i ∧ i < length then .ok i.toNat else .error (.outOfBounds arr i)

def State.queue (u : Setup) (s : State) (connI : Nat) (op : Op) : State :=
  { s with
    ring := s.ring.push ⟨op, u.registerfiles, connI⟩
    conns := Function.update s.conns connI ⟨op.fd, op.type⟩ }

@[simp] theorem queue_fds (u : Setup) (s : State) (connI : Nat) (op : Op) :
    (s.queue u connI op).fds = s.fds := rfl

/-- `io_uring_get_sqe` gives no entry if all of them are queued. -/
def addSqe (u : Setup) (s : State) (connI : Nat) (op : Op) : Except Stop State :=
  if s.ring.sq.length < sqEntries then .ok (s.queue u connI op) else .error .nullSqe

def addAccept (u : Setup) (s : State) (fd : Int) : Except Stop State := do
  let connI ← index .conns u.maxConnections fd
  addSqe u s connI (.accept connI)

/-- `add_socket_read` and `add_socket_write` differ in the operation only. -/
def addSocketOp (u : Setup) (s : State) (fd : Int) (op : Nat → Nat → Op) : Except Stop State := do
  let connI ← index .conns u.maxConnections fd
  let buf ← index .bufs u.maxConnections fd
  addSqe u s connI (op connI buf)

def addSocketRead (u : Setup) (s : State) (fd : Int) (size : Nat) : Except Stop State :=
  addSocketOp u s fd (Op.recv · · size)

def addSocketWrite (u : Setup) (s : State) (fd : Int) (size : Nat) : Except Stop State :=
  addSocketOp u s fd (Op.send · · size)

def updateErrorText (sockConnFd ret : Int) : String :=
  "io_uring_register_files_update failed: " ++ toString sockConnFd ++ " " ++ toString ret ++ "\n"

def waitErrorText : String := "Error io_uring_wait_cqe\n"

/-- `io_uring_register_files_update` has stored the file that is open under the descriptor. -/
def State.register (s : State) (fd : Nat) : State :=
  { s with
    slots := Function.update s.slots fd (s.fds fd)
    registeredFiles := Function.update s.registeredFiles fd fd }

def registerFile (u : Setup) (s : State) (sockConnFd ret : Int) : Except Stop State :=
  if u.registerfiles then do
    let i ← index .registeredFiles u.nrFiles sockConnFd
    if s.registeredFiles i = -1 then
      if ret < 0 then .error (.exit (updateErrorText sockConnFd ret)) else .ok (s.register i)
    else .ok s
  else .ok s

def State.cqeSeen (s : State) : State := { s with ring := s.ring.seen }

/-- `close`. The `shutdown` before it leaves the descriptor open. -/
def State.close (s : State) (fd : Nat) : State :=
  { s with fds := Function.update s.fds fd none, closed := s.closed ++ [fd] }

/-- The body of the loop over a batch, where `ret` is what an update of the registered
files would return. -/
def handleCqe (u : Setup) (s : State) (cqe : Cqe) (ret : Int) : Except Stop State :=
  let userData := s.conns cqe.entry.userData
  match userData.type with
  | .accept => do
    let registered ← registerFile u s.cqeSeen cqe.res ret
    let accepting ← addAccept u registered u.sockListenFd
    addSocketRead u accepting cqe.res u.msgLen
  | .read =>
    if cqe.res ≤ 0 then .ok (s.cqeSeen.close userData.fd)
    else addSocketWrite u s.cqeSeen userData.fd cqe.res.toNat
  | .write => addSocketRead u s.cqeSeen userData.fd u.msgLen
  | .pollListen | .pollNewConnection => .ok s

def State.blank (u : Setup) : State :=
  { conns := fun _ => ⟨0, .accept⟩
    registeredFiles := fun _ => -1
    ring := .empty Sqe
    batch := []
    fds := Function.update (fun _ => none) u.sockListenFd (some 0)
    slots := fun _ => none
    files := 1
    closed := []
    pc := .submitting }

/-- With `-f` the listening socket is registered. -/
def State.listening (u : Setup) : State :=
  if u.registerfiles then (State.blank u).register u.sockListenFd else State.blank u

def State.init (u : Setup) : State :=
  match addAccept u (State.listening u) u.sockListenFd with
  | .ok s => s
  | .error stop => { State.listening u with pc := .stopped stop }

inductive Event where
  | submit (count : Nat)
  | submitError
  | peek
  | handle (ret : Int)
  | endBatch
  | complete (i : Nat) (res : Int)
deriving DecidableEq

def State.react (u : Setup) (s : State) (cqe : Cqe) (rest : List Cqe) (ret : Int) : State :=
  match handleCqe u { s with batch := rest } cqe ret with
  | .ok t => t
  | .error stop => { s with pc := .stopped stop }

def opened (cqe : Cqe) : List Nat :=
  if cqe.entry.op.type = .accept ∧ 0 ≤ cqe.res then [cqe.res.toNat] else []

/-- The result is an `int`, and an accept returns a descriptor that is not open. -/
def State.Possible (s : State) (cqe : Cqe) : Prop :=
  -2 ^ 31 ≤ cqe.res ∧ cqe.res < 2 ^ 31 ∧ ∀ fd ∈ opened cqe, s.fds fd = none

instance (s : State) (cqe : Cqe) : Decidable (s.Possible cqe) :=
  inferInstanceAs (Decidable (_ ∧ _ ∧ _))

/-- An accept opens a file of its own under the descriptor that it returns. -/
def State.completed (s : State) (i : Nat) (cqe : Cqe) : State :=
  { s with
    ring := s.ring.complete i cqe
    fds := fun fd => if fd ∈ opened cqe then some s.files else s.fds fd
    files := s.files + (opened cqe).length }

def step (u : Setup) (s : State) : Event → Option State
  | .submit count =>
    if s.pc = .submitting then some { s with ring := s.ring.submit count, pc := .peeking }
    else none
  | .submitError =>
    if s.pc = .submitting then some { s with pc := .stopped (.exit waitErrorText) } else none
  | .peek =>
    if s.pc = .peeking then some { s with batch := s.ring.cq.take backlog, pc := .batch }
    else none
  | .handle ret =>
    match s.pc, s.batch with
    | .batch, cqe :: rest => some (s.react u cqe rest ret)
    | _, _ => none
  | .endBatch => if s.pc = .batch ∧ s.batch = [] then some { s with pc := .submitting } else none
  | .complete i res =>
    match s.ring.inflight[i]? with
    | some sqe => if s.Possible ⟨sqe, res⟩ then some (s.completed i ⟨sqe, res⟩) else none
    | none => none

section Calls

variable {u : Setup} {s t : State} {fd : Int}

theorem index_eq_ok {arr : Arr} {length i : Nat} :
    index arr length fd = .ok i ↔ 0 ≤ fd ∧ fd < length ∧ i = fd.toNat := by
  unfold index
  split
  · rename_i h
    simp [h, eq_comm]
  · rename_i h
    simp only [reduceCtorEq, false_iff]
    omega

theorem addSqe_eq_ok {connI : Nat} {op : Op} :
    addSqe u s connI op = .ok t ↔ s.ring.sq.length < sqEntries ∧ t = s.queue u connI op := by
  unfold addSqe
  split
  · rename_i h
    simp [h, eq_comm]
  · rename_i h
    simp [h]

theorem addAccept_eq_ok (h : addAccept u s fd = .ok t) :
    0 ≤ fd ∧ fd < u.maxConnections ∧ t = s.queue u fd.toNat (.accept fd.toNat) := by
  rcases bind_eq_ok.mp h with ⟨connI, hconn, hadd⟩
  rcases index_eq_ok.mp hconn with ⟨hpos, hlt, rfl⟩
  exact ⟨hpos, hlt, (addSqe_eq_ok.mp hadd).2⟩

theorem addSocketOp_eq_ok {op : Nat → Nat → Op} (h : addSocketOp u s fd op = .ok t) :
    0 ≤ fd ∧ fd < u.maxConnections ∧ t = s.queue u fd.toNat (op fd.toNat fd.toNat) := by
  rcases bind_eq_ok.mp h with ⟨connI, hconn, hrest⟩
  rcases bind_eq_ok.mp hrest with ⟨buf, hbuf, hadd⟩
  rcases index_eq_ok.mp hconn with ⟨hpos, hlt, rfl⟩
  rcases index_eq_ok.mp hbuf with ⟨-, -, rfl⟩
  exact ⟨hpos, hlt, (addSqe_eq_ok.mp hadd).2⟩

inductive Registered (u : Setup) (s : State) (fd : Int) : State → Prop where
  | unused (hfixed : u.registerfiles = false) : Registered u s fd s
  | filled (hfixed : u.registerfiles = true) (hpos : 0 ≤ fd) (hlt : fd < u.nrFiles)
      (hblank : s.registeredFiles fd.toNat = -1) : Registered u s fd (s.register fd.toNat)
  | kept (hfixed : u.registerfiles = true) (hpos : 0 ≤ fd) (hlt : fd < u.nrFiles)
      (hset : s.registeredFiles fd.toNat ≠ -1) : Registered u s fd s

theorem registerFile_eq_ok {ret : Int} (h : registerFile u s fd ret = .ok t) :
    Registered u s fd t := by
  unfold registerFile at h
  split at h
  · rename_i hfixed
    rcases bind_eq_ok.mp h with ⟨i, hindex, hrest⟩
    rcases index_eq_ok.mp hindex with ⟨hpos, hlt, rfl⟩
    split at hrest
    · rename_i hblank
      split at hrest
      · cases hrest
      · cases hrest
        exact .filled hfixed hpos hlt hblank
    · rename_i hset
      cases hrest
      exact .kept hfixed hpos hlt hset
  · rename_i hfixed
    cases h
    exact .unused (Bool.eq_false_iff.mpr hfixed)

inductive Answered (u : Setup) (s : State) (cqe : Cqe) : State → Prop where
  | accepted {mid : State} (htype : (s.conns cqe.entry.userData).type = .accept)
      (hpos : 0 ≤ cqe.res) (hlt : cqe.res < u.maxConnections)
      (hregistered : Registered u s.cqeSeen cqe.res mid) :
      Answered u s cqe ((mid.queue u u.sockListenFd (.accept u.sockListenFd)).queue u
        cqe.res.toNat (.recv cqe.res.toNat cqe.res.toNat u.msgLen))
  | hungUp (htype : (s.conns cqe.entry.userData).type = .read) (hres : cqe.res ≤ 0) :
      Answered u s cqe (s.cqeSeen.close (s.conns cqe.entry.userData).fd)
  | received (htype : (s.conns cqe.entry.userData).type = .read) (hres : 0 < cqe.res)
      (hlt : (s.conns cqe.entry.userData).fd < u.maxConnections) :
      Answered u s cqe (s.cqeSeen.queue u (s.conns cqe.entry.userData).fd
        (.send (s.conns cqe.entry.userData).fd (s.conns cqe.entry.userData).fd cqe.res.toNat))
  | sent (htype : (s.conns cqe.entry.userData).type = .write)
      (hlt : (s.conns cqe.entry.userData).fd < u.maxConnections) :
      Answered u s cqe (s.cqeSeen.queue u (s.conns cqe.entry.userData).fd
        (.recv (s.conns cqe.entry.userData).fd (s.conns cqe.entry.userData).fd u.msgLen))
  | ignored (htype : (s.conns cqe.entry.userData).type ≠ .accept)
      (hread : (s.conns cqe.entry.userData).type ≠ .read)
      (hwrite : (s.conns cqe.entry.userData).type ≠ .write) : Answered u s cqe s

theorem handleCqe_eq_ok {cqe : Cqe} {ret : Int} (h : handleCqe u s cqe ret = .ok t) :
    Answered u s cqe t := by
  unfold handleCqe at h
  simp only at h
  split at h
  · rename_i htype
    rcases bind_eq_ok.mp h with ⟨mid, hmid, hrest⟩
    rcases bind_eq_ok.mp hrest with ⟨next, hnext, hread⟩
    rcases addAccept_eq_ok hnext with ⟨-, -, rfl⟩
    rcases addSocketOp_eq_ok hread with ⟨hpos, hlt, rfl⟩
    exact .accepted htype hpos hlt (registerFile_eq_ok hmid)
  · rename_i htype
    split at h
    · rename_i hres
      cases h
      exact .hungUp htype hres
    · rename_i hres
      rcases addSocketOp_eq_ok h with ⟨-, hlt, rfl⟩
      exact .received htype (by omega) (by omega)
  · rename_i htype
    rcases addSocketOp_eq_ok h with ⟨-, hlt, rfl⟩
    exact .sent htype (by omega)
  · rename_i htype
    cases h
    exact .ignored (by simp [htype]) (by simp [htype]) (by simp [htype])
  · rename_i htype
    cases h
    exact .ignored (by simp [htype]) (by simp [htype]) (by simp [htype])

end Calls

inductive Step (u : Setup) (s : State) : Event → State → Prop where
  | submitted {count : Nat} (hpc : s.pc = .submitting) :
      Step u s (.submit count) { s with ring := s.ring.submit count, pc := .peeking }
  | failed (hpc : s.pc = .submitting) :
      Step u s .submitError { s with pc := .stopped (.exit waitErrorText) }
  | peeked (hpc : s.pc = .peeking) :
      Step u s .peek { s with batch := s.ring.cq.take backlog, pc := .batch }
  | answered {cqe : Cqe} {rest : List Cqe} {ret : Int} {t : State} (hpc : s.pc = .batch)
      (hbatch : s.batch = cqe :: rest)
      (hanswered : Answered u { s with batch := rest } cqe t) : Step u s (.handle ret) t
  | stopped {cqe : Cqe} {rest : List Cqe} {ret : Int} {stop : Stop} (hpc : s.pc = .batch)
      (hbatch : s.batch = cqe :: rest)
      (hstop : handleCqe u { s with batch := rest } cqe ret = .error stop) :
      Step u s (.handle ret) { s with pc := .stopped stop }
  | ended (hpc : s.pc = .batch) (hbatch : s.batch = []) :
      Step u s .endBatch { s with pc := .submitting }
  | completed {i : Nat} {cqe : Cqe} (hsqe : s.ring.inflight[i]? = some cqe.entry)
      (hpossible : s.Possible cqe) : Step u s (.complete i cqe.res) (s.completed i cqe)

theorem step_sound {u : Setup} {s t : State} {event : Event} (h : step u s event = some t) :
    Step u s event t := by
  cases event with
  | submit count =>
    simp only [step, Option.ite_none_right_eq_some, Option.some.injEq] at h
    rw [← h.2]
    exact .submitted h.1
  | submitError =>
    simp only [step, Option.ite_none_right_eq_some, Option.some.injEq] at h
    rw [← h.2]
    exact .failed h.1
  | peek =>
    simp only [step, Option.ite_none_right_eq_some, Option.some.injEq] at h
    rw [← h.2]
    exact .peeked h.1
  | handle ret =>
    simp only [step] at h
    split at h
    · rename_i cqe rest hpc hbatch
      cases h
      unfold State.react
      split
      · rename_i next hnext
        exact .answered hpc hbatch (handleCqe_eq_ok hnext)
      · rename_i stop hstop
        exact .stopped hpc hbatch hstop
    · cases h
  | endBatch =>
    simp only [step, Option.ite_none_right_eq_some, Option.some.injEq] at h
    rw [← h.2]
    exact .ended h.1.1 h.1.2
  | complete i res =>
    simp only [step] at h
    split at h
    · rename_i sqe hsqe
      simp only [Option.ite_none_right_eq_some, Option.some.injEq] at h
      rw [← h.2]
      exact .completed hsqe h.1
    · cases h

theorem three_lt_maxFiles : 3 < maxFiles 1048576 := by decide

/-- The server with `-f` and otherwise without options. -/
def fixedSetup : Setup := ⟨3, 4124, 2046, true, 1048576, fun _ => three_lt_maxFiles⟩

def oneConnect : List Event := [.submit 1, .complete 0 5, .peek, .handle 1, .endBatch]

def oneReuse : List Event :=
  oneConnect ++ ([.submit 2, .complete 1 0, .peek, .handle 1, .endBatch, .submit 0,
    .complete 0 5, .peek] : List Event)

end IoWrapper.EchoV1.Server
