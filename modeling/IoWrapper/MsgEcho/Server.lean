import IoWrapper.Core.Provenance
import IoWrapper.DemoEcho.Server

/-! `tcp_iouring_send_recvmsg_echo_demo.c` and the functions of `io_op.c` that it calls, with
the kernel they run on. Every recv and every send names the one `buffer` of `main`, from its
first place on. The names are in a `msghdr` and an `iovec` on the stack of `add_recvmsg` or
`add_sendmsg`, which has returned when the kernel reads them: it is assumed that they are then
still what they were. The kernel moves bytes while an operation is in flight: a recv stores what
arrives, a send passes on what it finds, in as many pieces as it likes, and a completion tells
how many bytes have been moved. The loop looks at the numbers only, and never at the bytes.
A connection is known by the number of its file, which is not used again when its descriptor
is. -/
namespace IoWrapper.MsgEcho.Server
open Core.Machine Core.Traffic Core.Provenance
open DemoEcho.Server (OpType ConnInfo Stop Pc maxMessageLen sqEntries waitErrorText)

inductive Op where
  | accept (fd : Nat)
  | recvmsg (fd len : Nat)
  | sendmsg (fd len : Nat)
deriving DecidableEq

/-- The record that is copied to the `user_data` of the entry. -/
def Op.connInfo : Op → ConnInfo
  | .accept fd => ⟨fd, .accept, 0⟩
  | .recvmsg fd _ => ⟨fd, .read, 0⟩
  | .sendmsg fd _ => ⟨fd, .write, 0⟩

def Op.fd : Op → Nat
  | .accept fd | .recvmsg fd _ | .sendmsg fd _ => fd

def Op.receives : Op → Nat
  | .recvmsg _ len => len
  | .accept _ | .sendmsg .. => 0

def Op.sends : Op → Nat
  | .sendmsg _ len => len
  | .accept _ | .recvmsg .. => 0

/-- An operation with the file that the kernel has found for its descriptor, from the
submission on, and the number of bytes that it has moved. -/
structure Work where
  op : Op
  file : Option Nat
  done : Nat
deriving DecidableEq

abbrev Cqe := Completion Work

/-- Everything but the bytes: the traffic of the ring, the files that are open under each
descriptor, the number of files there have been, and how often the listening socket has been
shut down. -/
structure Loop where
  ring : IoRing Work
  fds : Nat → Option Nat
  files : Nat
  shutdowns : Nat
  pc : Pc

def Loop.push (l : Loop) (op : Op) : Loop := { l with ring := l.ring.push ⟨op, none, 0⟩ }

/-- `io_uring_get_sqe` gives no entry if all of them are queued. -/
def addSqe (l : Loop) (op : Op) : Except Stop Loop :=
  if l.ring.sq.length < sqEntries then .ok (l.push op) else .error .nullSqe

def addAccept (l : Loop) (fd : Nat) : Except Stop Loop := addSqe l (.accept fd)

def addRecvmsg (l : Loop) (fd buffSize : Nat) : Except Stop Loop := addSqe l (.recvmsg fd buffSize)

def addSendmsg (l : Loop) (fd msgSize : Nat) : Except Stop Loop := addSqe l (.sendmsg fd msgSize)

def Loop.cqeSeen (l : Loop) : Loop := { l with ring := l.ring.seen }

/-- `shutdown(sockfd, SHUT_RDWR)` and `close(conn_i.fd)`. -/
def Loop.hangUp (l : Loop) (fd : Nat) : Loop :=
  { l with fds := Function.update l.fds fd none, shutdowns := l.shutdowns + 1 }

/-- The `switch`. -/
def handleCqe (sockfd : Nat) (l : Loop) (cqe : Cqe) : Except Stop Loop :=
  let connI := cqe.entry.op.connInfo
  match connI.type with
  | .accept =>
    if cqe.res < 0 then .ok l.cqeSeen
    else do
      let accepting ← addAccept l.cqeSeen sockfd
      addRecvmsg accepting cqe.res.toNat maxMessageLen
  | .read =>
    if cqe.res ≤ 0 then .ok (l.cqeSeen.hangUp connI.fd)
    else addSendmsg l.cqeSeen connI.fd cqe.res.toNat
  | .write =>
    if cqe.res ≤ 0 then .ok (l.cqeSeen.hangUp connI.fd)
    else addRecvmsg l.cqeSeen connI.fd maxMessageLen
  | .nop | .provBuf => .ok l.cqeSeen

def Loop.react (sockfd : Nat) (l : Loop) (cqe : Cqe) : Loop :=
  match handleCqe sockfd l cqe with
  | .ok next => { next with pc := .submitting }
  | .error stop => { l with pc := .stopped stop }

def Loop.submit (l : Loop) (count : Nat) : Loop :=
  { l with
    ring := { l.ring with
      sq := l.ring.sq.drop count
      inflight := l.ring.inflight ++
        (l.ring.sq.take count).map fun w => { w with file := l.fds w.op.fd } }
    pc := .waiting }

def opened (cqe : Cqe) : Option Nat :=
  if cqe.entry.op.connInfo.type = .accept ∧ 0 ≤ cqe.res then some cqe.res.toNat else none

/-- A recv or a send tells how many bytes it has moved; if it has moved none, it has failed or
come to the end. -/
def Told (cqe : Cqe) : Prop :=
  cqe.entry.op.connInfo.type = .accept ∨
    if cqe.entry.done = 0 then cqe.res ≤ 0 else cqe.res = cqe.entry.done

instance (cqe : Cqe) : Decidable (Told cqe) := inferInstanceAs (Decidable (_ ∨ _))

/-- The result is an `int`, and an accept returns a descriptor that is not open. -/
def Loop.Possible (l : Loop) (cqe : Cqe) : Prop :=
  -2 ^ 31 ≤ cqe.res ∧ cqe.res < 2 ^ 31 ∧ (∀ fd ∈ opened cqe, l.fds fd = none) ∧ Told cqe

instance (l : Loop) (cqe : Cqe) : Decidable (l.Possible cqe) :=
  inferInstanceAs (Decidable (_ ∧ _ ∧ (∀ fd ∈ opened cqe, l.fds fd = none) ∧ _))

def Loop.completed (l : Loop) (i : Nat) (cqe : Cqe) : Loop :=
  match opened cqe with
  | some fd =>
    { l with
      ring := l.ring.complete i cqe
      fds := Function.update l.fds fd (some l.files)
      files := l.files + 1 }
  | none => { l with ring := l.ring.complete i cqe }

inductive Move where
  | submit (count : Nat)
  | waitError
  | handle
  | complete (i : Nat) (res : Int)
deriving DecidableEq

def Loop.step (sockfd : Nat) (l : Loop) : Move → Option Loop
  | .submit count => if l.pc = .submitting then some (l.submit count) else none
  | .waitError =>
    if l.pc = .waiting then some { l with pc := .stopped (.exit waitErrorText) } else none
  | .handle =>
    match l.pc, l.ring.cq with
    | .waiting, cqe :: _ => some (l.react sockfd cqe)
    | _, _ => none
  | .complete i res =>
    match l.ring.inflight[i]? with
    | some w => if l.Possible ⟨w, res⟩ then some (l.completed i ⟨w, res⟩) else none
    | none => none

/-- The operation in flight that is to move some bytes, if it has a file and is not to move
more than it may. -/
def Loop.mover (l : Loop) (limit : Op → Nat) (i count : Nat) : Option Work :=
  match l.ring.inflight[i]? with
  | some w => if w.file ≠ none ∧ 0 < count ∧ w.done + count ≤ limit w.op then some w else none
  | none => none

def Loop.moved (l : Loop) (i : Nat) (w : Work) (count : Nat) : Loop :=
  { l with ring := l.ring.renew i { w with done := w.done + count } }

/-- The loop, the buffer with a note of the connection that each byte came from, and the bytes
that have been sent on each connection. -/
structure State where
  loop : Loop
  buffer : Nat → Mark UInt8 Nat
  sent : Nat → List (Mark UInt8 Nat)

/-- Bytes go to the buffer behind those that the recv has stored before. -/
def State.stored (s : State) (i : Nat) (w : Work) (data : List UInt8) : State :=
  { s with
    loop := s.loop.moved i w data.length
    buffer := store s.buffer w.done w.file data }

def State.transmitted (s : State) (i : Nat) (w : Work) (count : Nat) : State :=
  { s with
    loop := s.loop.moved i w count
    sent := fun c =>
      if w.file = some c then s.sent c ++ window s.buffer w.done count else s.sent c }

inductive Event where
  | move (m : Move)
  | store (i : Nat) (data : List UInt8)
  | transmit (i count : Nat)
deriving DecidableEq

def step (sockfd : Nat) (s : State) : Event → Option State
  | .move m => (s.loop.step sockfd m).map fun next => { s with loop := next }
  | .store i data => (s.loop.mover Op.receives i data.length).map fun w => s.stored i w data
  | .transmit i count => (s.loop.mover Op.sends i count).map fun w => s.transmitted i w count

def State.init (sockfd : Nat) : State where
  loop :=
    { ring := (IoRing.empty Work).push ⟨.accept sockfd, none, 0⟩
      fds := Function.update (fun _ => none) sockfd (some 0)
      files := 1
      shutdowns := 0
      pc := .submitting }
  buffer := fun _ => ⟨0, none⟩
  sent := fun _ => []

section Calls

variable {sockfd : Nat} {l next : Loop} {cqe : Cqe}

theorem addSqe_eq_ok {op : Op} (h : addSqe l op = .ok next) : next = l.push op := by
  unfold addSqe at h
  split at h
  · cases h
    rfl
  · cases h

inductive Answered (sockfd : Nat) (l : Loop) (cqe : Cqe) : Loop → Prop where
  | notAccepted {fd : Nat} (hop : cqe.entry.op = .accept fd) (hres : cqe.res < 0) :
      Answered sockfd l cqe l.cqeSeen
  | accepted {fd : Nat} (hop : cqe.entry.op = .accept fd) (hres : 0 ≤ cqe.res) :
      Answered sockfd l cqe ((l.cqeSeen.push (.accept sockfd)).push
        (.recvmsg cqe.res.toNat maxMessageLen))
  | readFailed {fd len : Nat} (hop : cqe.entry.op = .recvmsg fd len) (hres : cqe.res ≤ 0) :
      Answered sockfd l cqe (l.cqeSeen.hangUp fd)
  | received {fd len : Nat} (hop : cqe.entry.op = .recvmsg fd len) (hres : 0 < cqe.res) :
      Answered sockfd l cqe (l.cqeSeen.push (.sendmsg fd cqe.res.toNat))
  | writeFailed {fd len : Nat} (hop : cqe.entry.op = .sendmsg fd len) (hres : cqe.res ≤ 0) :
      Answered sockfd l cqe (l.cqeSeen.hangUp fd)
  | sent {fd len : Nat} (hop : cqe.entry.op = .sendmsg fd len) (hres : 0 < cqe.res) :
      Answered sockfd l cqe (l.cqeSeen.push (.recvmsg fd maxMessageLen))

theorem handleCqe_eq_ok (h : handleCqe sockfd l cqe = .ok next) :
    Answered sockfd l cqe next := by
  unfold handleCqe at h
  cases hop : cqe.entry.op with
  | accept fd =>
    simp only [hop, Op.connInfo] at h
    split at h
    · rename_i hres
      cases h
      exact .notAccepted hop hres
    · rename_i hres
      rcases bind_eq_ok.mp h with ⟨accepting, haccept, hread⟩
      cases addSqe_eq_ok haccept
      cases addSqe_eq_ok hread
      exact .accepted hop (by omega)
  | recvmsg fd len =>
    simp only [hop, Op.connInfo] at h
    split at h
    · rename_i hres
      cases h
      exact .readFailed hop hres
    · rename_i hres
      cases addSqe_eq_ok h
      exact .received hop (by omega)
  | sendmsg fd len =>
    simp only [hop, Op.connInfo] at h
    split at h
    · rename_i hres
      cases h
      exact .writeFailed hop hres
    · rename_i hres
      cases addSqe_eq_ok h
      exact .sent hop (by omega)

theorem mover_eq_some {limit : Op → Nat} {i count : Nat} {w : Work} :
    l.mover limit i count = some w ↔
      l.ring.inflight[i]? = some w ∧ w.file ≠ none ∧ 0 < count ∧
        w.done + count ≤ limit w.op := by
  unfold Loop.mover
  cases l.ring.inflight[i]? with
  | none => simp
  | some w' =>
    simp only [Option.ite_none_right_eq_some, Option.some.injEq]
    constructor
    · rintro ⟨hguard, rfl⟩
      exact ⟨rfl, hguard⟩
    · rintro ⟨rfl, hguard⟩
      exact ⟨hguard, rfl⟩

end Calls

inductive Loop.Step (sockfd : Nat) (l : Loop) : Move → Loop → Prop where
  | submitted {count : Nat} (hpc : l.pc = .submitting) :
      Loop.Step sockfd l (.submit count) (l.submit count)
  | failed (hpc : l.pc = .waiting) :
      Loop.Step sockfd l .waitError { l with pc := .stopped (.exit waitErrorText) }
  | answered {cqe : Cqe} {rest : List Cqe} {next : Loop} (hpc : l.pc = .waiting)
      (hcq : l.ring.cq = cqe :: rest) (hanswered : Answered sockfd l cqe next) :
      Loop.Step sockfd l .handle { next with pc := .submitting }
  | stopped {cqe : Cqe} {rest : List Cqe} {stop : Stop} (hpc : l.pc = .waiting)
      (hcq : l.ring.cq = cqe :: rest) (hstop : handleCqe sockfd l cqe = .error stop) :
      Loop.Step sockfd l .handle { l with pc := .stopped stop }
  | completed {i : Nat} {cqe : Cqe} (hop : l.ring.inflight[i]? = some cqe.entry)
      (hpossible : l.Possible cqe) : Loop.Step sockfd l (.complete i cqe.res) (l.completed i cqe)

theorem Loop.step_sound {sockfd : Nat} {l next : Loop} {m : Move}
    (h : l.step sockfd m = some next) : Loop.Step sockfd l m next := by
  cases m with
  | submit count =>
    simp only [Loop.step, Option.ite_none_right_eq_some, Option.some.injEq] at h
    rw [← h.2]
    exact .submitted h.1
  | waitError =>
    simp only [Loop.step, Option.ite_none_right_eq_some, Option.some.injEq] at h
    rw [← h.2]
    exact .failed h.1
  | handle =>
    simp only [Loop.step] at h
    split at h
    · rename_i cqe rest hpc hcq
      rw [Option.some.injEq] at h
      rw [← h]
      unfold Loop.react
      cases hok : handleCqe sockfd l cqe with
      | ok answer => exact .answered hpc hcq (handleCqe_eq_ok hok)
      | error stop => exact .stopped hpc hcq hok
    · cases h
  | complete i res =>
    simp only [Loop.step] at h
    split at h
    · rename_i w hop
      simp only [Option.ite_none_right_eq_some, Option.some.injEq] at h
      rw [← h.2]
      exact .completed hop h.1
    · cases h

inductive Step (sockfd : Nat) (s : State) : Event → State → Prop where
  | moved {m : Move} {next : Loop} (hstep : s.loop.step sockfd m = some next) :
      Step sockfd s (.move m) { s with loop := next }
  | stored {i : Nat} {data : List UInt8} {w : Work}
      (hmover : s.loop.mover Op.receives i data.length = some w) :
      Step sockfd s (.store i data) (s.stored i w data)
  | transmitted {i count : Nat} {w : Work} (hmover : s.loop.mover Op.sends i count = some w) :
      Step sockfd s (.transmit i count) (s.transmitted i w count)

theorem step_sound {sockfd : Nat} {s t : State} {event : Event}
    (h : step sockfd s event = some t) : Step sockfd s event t := by
  cases event with
  | move m =>
    rcases Option.map_eq_some_iff.mp h with ⟨next, hstep, rfl⟩
    exact .moved hstep
  | store i data =>
    rcases Option.map_eq_some_iff.mp h with ⟨w, hmover, rfl⟩
    exact .stored hmover
  | transmit i count =>
    rcases Option.map_eq_some_iff.mp h with ⟨w, hmover, rfl⟩
    exact .transmitted hmover

end IoWrapper.MsgEcho.Server
