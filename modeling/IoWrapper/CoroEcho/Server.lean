import Mathlib.Algebra.Group.Int.Defs
import IoWrapper.Core.Tables
import IoWrapper.Echo.Server

/-! `coroutine_io_uring_echo_server.cpp` with the kernel it runs on. A connection is a
coroutine that waits at one of its suspension points, and a completion resumes the
coroutine of the descriptor in its `user_data`. The kernel takes all that is submitted,
and completes it in any order and with any result. -/
namespace IoWrapper.CoroEcho.Server
open Core.Machine Core.Tables
open Echo.Server (ConnInfo Op maxMessageLen groupId iosqeBufferSelect enobufs noBufsText
  provideErrorText)

/-- The size asked for in `io_uring_queue_init_params`, a power of two. -/
def sqEntries : Nat := 4096

/-- What `user_data` says of the operation it goes with. -/
def Describes (info : ConnInfo) : Op → Prop
  | .accept fd => info = ⟨fd, .accept, 0⟩
  | .recv fd _ => info.fd = fd ∧ info.type = .read
  | .send fd bid _ => info = ⟨fd, .write, bid⟩
  | .provideBuffers bid _ _ => info.type = .provBuf ∧ info.bid = bid

structure Sqe where
  op : Op
  flags : Nat
  bufGroup : Nat
  userData : ConnInfo
  described : Describes userData op
deriving DecidableEq

/-- A completion, with the entry it answers; the server sees the `user_data`. -/
structure Cqe where
  sqe : Sqe
  res : Int
  flags : Nat
deriving DecidableEq

def Cqe.userData (cqe : Cqe) : ConnInfo := cqe.sqe.userData

theorem describes_accept (fd : Nat) : Describes ⟨fd, .accept, 0⟩ (.accept fd) := rfl

def addAccept (fd flags : Nat) : Sqe :=
  ⟨.accept fd, flags, 0, ⟨fd, .accept, 0⟩, describes_accept fd⟩

/-- `promise_type` without the ring. The result is a `size_t`. -/
structure Promise where
  connInfo : ConnInfo
  res : Nat
deriving DecidableEq

/-- The conversion from `int` to `size_t`. -/
def sizeOfInt (res : Int) : Nat := (res % 2 ^ 64).toNat

/-- The conversion from `size_t` to the `len` of a submission entry. -/
def lenOfSize (size : Nat) : Nat := size % 2 ^ 32

def echoRead (p : Promise) (messageSize flags : Nat) : Promise × Sqe :=
  let info := { p.connInfo with type := .read }
  ({ p with connInfo := info },
    ⟨.recv info.fd (lenOfSize messageSize), flags, groupId, info, rfl, rfl⟩)

def echoWrite (p : Promise) (messageSize flags : Nat) : Promise × Sqe :=
  let info := { p.connInfo with type := .write }
  ({ p with connInfo := info },
    ⟨.send info.fd info.bid (lenOfSize messageSize), flags, 0, info, by rfl⟩)

def echoAddBuffer (p : Promise) : Promise × Sqe :=
  let info := { p.connInfo with type := .provBuf }
  ({ p with connInfo := info },
    ⟨.provideBuffers info.bid maxMessageLen 1, 0, groupId, info, rfl, rfl⟩)

inductive Point where
  | initial
  | echoRead
  | echoWrite
deriving DecidableEq

/-- A `handle_echo(fd)` that is suspended. -/
structure ConnTask where
  fd : Nat
  point : Point
  promise : Promise
deriving DecidableEq

def handleEcho (fd : Nat) : ConnTask := ⟨fd, .initial, ⟨⟨0, .accept, 0⟩, 0⟩⟩

/-- The next part of `handle_echo`: the entries it queues, and the coroutine where it is
suspended again, unless it has ended the connection and returned. -/
def ConnTask.resume (task : ConnTask) : List Sqe × Option ConnTask :=
  match task.point with
  | .initial =>
    let read := echoRead task.promise maxMessageLen iosqeBufferSelect
    ([read.2], some ⟨task.fd, .echoRead, read.1⟩)
  | .echoRead =>
    let sizeR := task.promise.res
    if sizeR ≤ 0 then ([(echoAddBuffer task.promise).2], none)
    else
      let write := echoWrite task.promise sizeR 0
      ([write.2], some ⟨task.fd, .echoWrite, write.1⟩)
  | .echoWrite =>
    let added := echoAddBuffer task.promise
    let read := echoRead added.1 maxMessageLen iosqeBufferSelect
    ([added.2, read.2], some ⟨task.fd, .echoRead, read.1⟩)

/-- How the process ends: by `exit(1)` after a text, or because `connections.at` throws. -/
inductive Stop where
  | exit (text : String)
  | terminate
deriving DecidableEq

/-- What the loop does on one completion: the entries it queues, the connections after
it, the descriptor of the connection that it ends, and how the process ends. -/
structure Reaction where
  queued : List Sqe
  connections : Table ConnTask
  ended : Option Nat
  stop : Option Stop

/-- `h.resume()`. A coroutine that returns has shut its descriptor down, which leaves it
open, and erased it from `connections`. -/
def resumed (connections : Table ConnTask) (key : Nat) (task : ConnTask) : Reaction :=
  match task.resume with
  | (queued, some next) => ⟨queued, connections.insert key next, none, none⟩
  | (queued, none) => ⟨queued, connections.erase task.fd, some task.fd, none⟩

def emplace (connections : Table ConnTask) (key : Nat) (task : ConnTask) : Table ConnTask :=
  if key ∈ connections then connections else connections.insert key task

def ConnTask.setFd (task : ConnTask) (fd : Nat) : ConnTask :=
  { task with promise := { task.promise with connInfo := { task.promise.connInfo with fd := fd } } }

def ConnTask.setRead (task : ConnTask) (bid res : Nat) : ConnTask :=
  { task with promise := ⟨{ task.promise.connInfo with bid := bid }, res⟩ }

/-- The body of `io_uring_for_each_cqe`. -/
def handleCqe (sockListenFd : Nat) (connections : Table ConnTask) (cqe : Cqe) : Reaction :=
  let connI := cqe.userData
  if cqe.res = -enobufs then ⟨[], connections, none, some (.exit noBufsText)⟩
  else match connI.type with
    | .provBuf =>
      if cqe.res < 0 then ⟨[], connections, none, some (.exit (provideErrorText cqe.res))⟩
      else ⟨[], connections, none, none⟩
    | .accept =>
      let opened :=
        if 0 ≤ cqe.res then
          let sockConnFd := cqe.res.toNat
          let connections := emplace connections sockConnFd (handleEcho sockConnFd)
          match connections.lookup sockConnFd with
          | some task => resumed connections sockConnFd (task.setFd sockConnFd)
          | none => ⟨[], connections, none, some .terminate⟩
        else ⟨[], connections, none, none⟩
      { opened with queued := opened.queued ++ [addAccept sockListenFd 0] }
    | .read =>
      match connections.lookup connI.fd with
      | some task =>
        resumed connections connI.fd (task.setRead (cqe.flags >>> 16) (sizeOfInt cqe.res))
      | none => ⟨[], connections, none, some .terminate⟩
    | .write =>
      match connections.lookup connI.fd with
      | some task => resumed connections connI.fd task
      | none => ⟨[], connections, none, some .terminate⟩

inductive Pc where
  | submitting
  | pass
  | stopped (stop : Stop)
  | nullSqe
deriving DecidableEq

/-- The entries queued, those in the kernel, the completions not yet processed, and the
descriptors of clients that the process holds; with a note of the completions that have
been processed. -/
structure State where
  listenFd : Nat
  sq : List Sqe
  inflight : List Sqe
  cq : List Cqe
  connections : Table ConnTask
  fds : List Nat
  handled : List Cqe
  pc : Pc

def State.init (listenFd : Nat) : State :=
  { listenFd := listenFd
    sq := [addAccept listenFd 0]
    inflight := []
    cq := []
    connections := ∅
    fds := []
    handled := []
    pc := .submitting }

inductive Event where
  | submit
  | handle
  | endPass
  | complete (i : Nat) (res : Int) (flags : Nat)
deriving DecidableEq

def opened (cqe : Cqe) : List Nat :=
  if cqe.userData.type = .accept ∧ 0 ≤ cqe.res then [cqe.res.toNat] else []

/-- A completion is processed. There is no room in the queue for an entry if all of its
entries are queued, and then the server writes to a null pointer. -/
def State.react (s : State) (cqe : Cqe) (rest : List Cqe) : State :=
  let reaction := handleCqe s.listenFd s.connections cqe
  match reaction.stop with
  | some stop => { s with pc := .stopped stop }
  | none =>
    if s.sq.length + reaction.queued.length ≤ sqEntries then
      { s with
        sq := s.sq ++ reaction.queued
        cq := rest
        connections := reaction.connections
        fds := s.fds ++ opened cqe
        handled := s.handled ++ [cqe] }
    else { s with pc := .nullSqe }

/-- The result is an `int`, and an accept returns a descriptor that is not open. -/
def State.Possible (s : State) (sqe : Sqe) (res : Int) : Prop :=
  -2 ^ 31 ≤ res ∧ res < 2 ^ 31 ∧
    (sqe.userData.type = .accept → 0 ≤ res →
      res.toNat ≠ s.listenFd ∧ res.toNat ∉ s.fds ++ s.cq.flatMap opened)

instance (s : State) (sqe : Sqe) (res : Int) : Decidable (s.Possible sqe res) :=
  inferInstanceAs (Decidable (_ ∧ _ ∧ (_ → _ → _)))

def step (s : State) : Event → Option State
  | .submit =>
    if s.pc = .submitting then
      some { s with sq := [], inflight := s.inflight ++ s.sq, pc := .pass }
    else none
  | .handle =>
    match s.pc, s.cq with
    | .pass, cqe :: rest => some (s.react cqe rest)
    | _, _ => none
  | .endPass => if s.pc = .pass ∧ s.cq = [] then some { s with pc := .submitting } else none
  | .complete i res flags =>
    match s.inflight[i]? with
    | some sqe =>
      if s.Possible sqe res then
        some { s with
          inflight := s.inflight.eraseIdx i
          cq := s.cq ++ [⟨sqe, res, flags⟩] }
      else none
    | none => none

inductive Step (s : State) : Event → State → Prop where
  | submitted (hpc : s.pc = .submitting) :
      Step s .submit { s with sq := [], inflight := s.inflight ++ s.sq, pc := .pass }
  | stopped {cqe : Cqe} {rest : List Cqe} {stop : Stop} (hpc : s.pc = .pass)
      (hcq : s.cq = cqe :: rest)
      (hstop : (handleCqe s.listenFd s.connections cqe).stop = some stop) :
      Step s .handle { s with pc := .stopped stop }
  | overran {cqe : Cqe} {rest : List Cqe} (hpc : s.pc = .pass) (hcq : s.cq = cqe :: rest)
      (hroom : sqEntries < s.sq.length + (handleCqe s.listenFd s.connections cqe).queued.length) :
      Step s .handle { s with pc := .nullSqe }
  | handled {cqe : Cqe} {rest : List Cqe} (hpc : s.pc = .pass) (hcq : s.cq = cqe :: rest)
      (hstop : (handleCqe s.listenFd s.connections cqe).stop = none)
      (hroom : s.sq.length + (handleCqe s.listenFd s.connections cqe).queued.length ≤
        sqEntries) :
      Step s .handle { s with
        sq := s.sq ++ (handleCqe s.listenFd s.connections cqe).queued
        cq := rest
        connections := (handleCqe s.listenFd s.connections cqe).connections
        fds := s.fds ++ opened cqe
        handled := s.handled ++ [cqe] }
  | passEnded (hpc : s.pc = .pass) (hcq : s.cq = []) : Step s .endPass { s with pc := .submitting }
  | completed {i flags : Nat} {res : Int} {sqe : Sqe} (hsqe : s.inflight[i]? = some sqe)
      (hpossible : s.Possible sqe res) :
      Step s (.complete i res flags) { s with
        inflight := s.inflight.eraseIdx i
        cq := s.cq ++ [⟨sqe, res, flags⟩] }

theorem react_step {s : State} {cqe : Cqe} {rest : List Cqe} (hpc : s.pc = .pass)
    (hcq : s.cq = cqe :: rest) : Step s .handle (s.react cqe rest) := by
  unfold State.react
  simp only
  split
  · rename_i stop hstop
    exact .stopped hpc hcq hstop
  · rename_i hstop
    split
    · rename_i hroom
      exact .handled hpc hcq hstop hroom
    · rename_i hroom
      exact .overran hpc hcq (by omega)

theorem step_sound {s t : State} {event : Event} (h : step s event = some t) :
    Step s event t := by
  cases event with
  | submit =>
    simp only [step, Option.ite_none_right_eq_some, Option.some.injEq] at h
    rw [← h.2]
    exact .submitted h.1
  | handle =>
    simp only [step] at h
    split at h
    · rename_i cqe rest hpc hcq
      cases h
      exact react_step hpc hcq
    · cases h
  | endPass =>
    simp only [step, Option.ite_none_right_eq_some, Option.some.injEq] at h
    rw [← h.2]
    exact .passEnded h.1.1 h.1.2
  | complete i res flags =>
    simp only [step] at h
    split at h
    · rename_i sqe hsqe
      split at h
      · rename_i hpossible
        cases h
        exact .completed hsqe hpossible
      · cases h
    · cases h

end IoWrapper.CoroEcho.Server
