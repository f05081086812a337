import Mathlib.Algebra.Group.Int.Defs
import IoWrapper.Core.Machine
import IoWrapper.Core.Traffic

/-! `tcp_iouring_send_recvmsg_provide_buff_echo_demo.c` and the functions of `io_op.c` that it
calls, with the kernel they run on. The `user_data` of an entry is a record by value. The
variable `sock_conn_fd` is declared in one case of the `switch` and read in another one,
where it holds whatever is in its place; descriptors are bit patterns, so that this can be
anything of 32 bits. Which buffers the kernel has is left open: a completed recv may report
any of them. -/
namespace IoWrapper.DemoEcho.Server
open Core.Machine Core.Traffic

def maxMessageLen : Nat := 1024

def sqEntries : Nat := 16384

inductive OpType where
  | nop
  | accept
  | read
  | write
  | provBuf
deriving DecidableEq

structure ConnInfo where
  fd : Nat
  type : OpType
  bid : Nat
deriving DecidableEq

inductive Op where
  | accept (fd : Nat)
  | recvmsg (fd len : Nat)
  | sendmsg (fd bid len : Nat)
  | provideBuffers (bid : Nat)
deriving DecidableEq

/-- The record that is copied to the `user_data` of the entry. -/
def Op.connInfo : Op → ConnInfo
  | .accept fd => ⟨fd, .accept, 0⟩
  | .recvmsg fd _ => ⟨fd, .read, 0⟩
  | .sendmsg fd bid _ => ⟨fd, .write, bid⟩
  | .provideBuffers _ => ⟨0, .provBuf, 0⟩

abbrev Cqe := Completion Op

/-- How the process ends: a null entry is written to, or `exit(1)` after a text. -/
inductive Stop where
  | nullSqe
  | exit (text : String)
deriving DecidableEq

inductive Pc where
  | submitting
  | waiting
  | stopped (stop : Stop)
deriving DecidableEq

/-- The traffic of the ring, the connections that the server has accepted and not closed, the
descriptors that are open, and how often the listening socket has been shut down. -/
structure State where
  ring : IoRing Op
  conns : List Nat
  fds : List Nat
  shutdowns : Nat
  pc : Pc

/-- `io_uring_get_sqe` gives no entry if all of them are queued. -/
def addSqe (s : State) (op : Op) : Except Stop State :=
  if s.ring.sq.length < sqEntries then .ok { s with ring := s.ring.push op } else .error .nullSqe

def addAccept (s : State) (fd : Nat) : Except Stop State := addSqe s (.accept fd)

def addRecvmsgFromGroupBuff (s : State) (fd buffSize : Nat) : Except Stop State :=
  addSqe s (.recvmsg fd buffSize)

def addSendmsgFromGroupBuff (s : State) (fd bid msgSize : Nat) : Except Stop State :=
  addSqe s (.sendmsg fd bid msgSize)

def addProvideBuf (s : State) (bid : Nat) : Except Stop State := addSqe s (.provideBuffers bid)

def State.cqeSeen (s : State) : State := { s with ring := s.ring.seen }

def State.adopt (s : State) (fd : Nat) : State := { s with conns := s.conns ++ [fd] }

/-- `shutdown(sockfd, SHUT_RDWR)` and `close(conn_i.fd)`. -/
def State.hangUp (s : State) (fd : Nat) : State :=
  { s with
    conns := s.conns.erase fd
    fds := s.fds.erase fd
    shutdowns := s.shutdowns + 1 }

/-- The `switch`, where `sockConnFd` is what is in the place of the variable when it has not
been set, and `bid` is what the flags of the completion give. -/
def handleCqe (sockfd : Nat) (s : State) (cqe : Cqe) (sockConnFd bid : Nat) :
    Except Stop State :=
  let connI := cqe.entry.connInfo
  match connI.type with
  | .accept =>
    if cqe.res < 0 then .ok s.cqeSeen
    else do
      let accepting ← addAccept s.cqeSeen sockfd
      let reading ← addRecvmsgFromGroupBuff accepting cqe.res.toNat maxMessageLen
      .ok (reading.adopt cqe.res.toNat)
  | .read =>
    if cqe.res ≤ 0 then do
      let providing ← addProvideBuf s.cqeSeen bid
      .ok (providing.hangUp connI.fd)
    else addSendmsgFromGroupBuff s.cqeSeen connI.fd bid cqe.res.toNat
  | .write => do
    let providing ← addProvideBuf s connI.bid
    if cqe.res ≤ 0 then .ok (providing.cqeSeen.hangUp connI.fd)
    else addRecvmsgFromGroupBuff providing.cqeSeen sockConnFd maxMessageLen
  | .provBuf => if cqe.res < 0 then .ok s else .ok s.cqeSeen
  | .nop => .ok s.cqeSeen

def State.init (sockfd : Nat) : State :=
  ⟨(IoRing.empty Op).push (.accept sockfd), [], [sockfd], 0, .submitting⟩

inductive Event where
  | submit (count : Nat)
  | waitError
  | handle (sockConnFd bid : Nat)
  | complete (i : Nat) (res : Int)
deriving DecidableEq

def State.react (sockfd : Nat) (s : State) (cqe : Cqe) (sockConnFd bid : Nat) : State :=
  match handleCqe sockfd s cqe sockConnFd bid with
  | .ok t => { t with pc := .submitting }
  | .error stop => { s with pc := .stopped stop }

def opened (cqe : Cqe) : List Nat :=
  if cqe.entry.connInfo.type = .accept ∧ 0 ≤ cqe.res then [cqe.res.toNat] else []

/-- The result is an `int`, and an accept returns a descriptor that is not open. -/
def State.Possible (s : State) (cqe : Cqe) : Prop :=
  -2 ^ 31 ≤ cqe.res ∧ cqe.res < 2 ^ 31 ∧ ∀ fd ∈ opened cqe, fd ∉ s.fds

instance (s : State) (cqe : Cqe) : Decidable (s.Possible cqe) :=
  inferInstanceAs (Decidable (_ ∧ _ ∧ _))

def State.completed (s : State) (i : Nat) (cqe : Cqe) : State :=
  { s with ring := s.ring.complete i cqe, fds := s.fds ++ opened cqe }

def waitErrorText : String := "Error io_uring_wait_cqe\n"

def step (sockfd : Nat) (s : State) : Event → Option State
  | .submit count =>
    if s.pc = .submitting then some { s with ring := s.ring.submit count, pc := .waiting }
    else none
  | .waitError =>
    if s.pc = .waiting then some { s with pc := .stopped (.exit waitErrorText) } else none
  | .handle sockConnFd bid =>
    match s.pc, s.ring.cq with
    | .waiting, cqe :: _ =>
      if sockConnFd < 2 ^ 32 ∧ bid < 2 ^ 16 then some (s.react sockfd cqe sockConnFd bid) else none
    | _, _ => none
  | .complete i res =>
    match s.ring.inflight[i]? with
    | some op => if s.Possible ⟨op, res⟩ then some (s.completed i ⟨op, res⟩) else none
    | none => none

section Calls

variable {s t : State} {sockfd sockConnFd bid : Nat} {cqe : Cqe}

def State.push (s : State) (op : Op) : State := { s with ring := s.ring.push op }

theorem addSqe_eq_ok {op : Op} (h : addSqe s op = .ok t) : t = s.push op := by
  unfold addSqe at h
  split at h
  · cases h
    rfl
  · cases h

inductive Answered (sockfd : Nat) (s : State) (cqe : Cqe) (sockConnFd bid : Nat) :
    State → Prop where
  | notAccepted {fd : Nat} (hop : cqe.entry = .accept fd) (hres : cqe.res < 0) :
      Answered sockfd s cqe sockConnFd bid s.cqeSeen
  | accepted {fd : Nat} (hop : cqe.entry = .accept fd) (hres : 0 ≤ cqe.res) :
      Answered sockfd s cqe sockConnFd bid (((s.cqeSeen.push (.accept sockfd)).push
        (.recvmsg cqe.res.toNat maxMessageLen)).adopt cqe.res.toNat)
  | readFailed {fd len : Nat} (hop : cqe.entry = .recvmsg fd len) (hres : cqe.res ≤ 0) :
      Answered sockfd s cqe sockConnFd bid ((s.cqeSeen.push (.provideBuffers bid)).hangUp fd)
  | received {fd len : Nat} (hop : cqe.entry = .recvmsg fd len) (hres : 0 < cqe.res) :
      Answered sockfd s cqe sockConnFd bid (s.cqeSeen.push (.sendmsg fd bid cqe.res.toNat))
  | writeFailed {fd sent len : Nat} (hop : cqe.entry = .sendmsg fd sent len) (hres : cqe.res ≤ 0) :
      Answered sockfd s cqe sockConnFd bid
        ((s.push (.provideBuffers sent)).cqeSeen.hangUp fd)
  | sent {fd sent len : Nat} (hop : cqe.entry = .sendmsg fd sent len) (hres : 0 < cqe.res) :
      Answered sockfd s cqe sockConnFd bid ((s.push (.provideBuffers sent)).cqeSeen.push
        (.recvmsg sockConnFd maxMessageLen))
  | notProvided {sent : Nat} (hop : cqe.entry = .provideBuffers sent) (hres : cqe.res < 0) :
      Answered sockfd s cqe sockConnFd bid s
  | provided {sent : Nat} (hop : cqe.entry = .provideBuffers sent) (hres : 0 ≤ cqe.res) :
      Answered sockfd s cqe sockConnFd bid s.cqeSeen

theorem handleCqe_eq_ok (h : handleCqe sockfd s cqe sockConnFd bid = .ok t) :
    Answered sockfd s cqe sockConnFd bid t := by
  unfold handleCqe at h
  cases hop : cqe.entry with
  | accept fd =>
    simp only [hop, Op.connInfo] at h
    split at h
    · rename_i hres
      cases h
      exact .notAccepted hop hres
    · rename_i hres
      rcases bind_eq_ok.mp h with ⟨mid, hmid, hrest⟩
      rcases bind_eq_ok.mp hrest with ⟨next, hnext, hadopt⟩
      cases addSqe_eq_ok hmid
      cases addSqe_eq_ok hnext
      cases hadopt
      exact .accepted hop (by omega)
  | recvmsg fd len =>
    simp only [hop, Op.connInfo] at h
    split at h
    · rename_i hres
      rcases bind_eq_ok.mp h with ⟨mid, hmid, hhang⟩
      cases addSqe_eq_ok hmid
      cases hhang
      exact .readFailed hop hres
    · rename_i hres
      cases addSqe_eq_ok h
      exact .received hop (by omega)
  | sendmsg fd sent len =>
    simp only [hop, Op.connInfo] at h
    rcases bind_eq_ok.mp h with ⟨mid, hmid, hrest⟩
    cases addSqe_eq_ok hmid
    split at hrest
    · rename_i hres
      cases hrest
      exact .writeFailed hop hres
    · rename_i hres
      cases addSqe_eq_ok hrest
      exact .sent hop (by omega)
  | provideBuffers sent =>
    simp only [hop, Op.connInfo] at h
    split at h
    · rename_i hres
      cases h
      exact .notProvided hop hres
    · rename_i hres
      cases h
      exact .provided hop (by omega)

end Calls

inductive Step (sockfd : Nat) (s : State) : Event → State → Prop where
  | submitted {count : Nat} (hpc : s.pc = .submitting) :
      Step sockfd s (.submit count) { s with ring := s.ring.submit count, pc := .waiting }
  | failed (hpc : s.pc = .waiting) :
      Step sockfd s .waitError { s with pc := .stopped (.exit waitErrorText) }
  | answered {cqe : Cqe} {rest : List Cqe} {sockConnFd bid : Nat} {t : State}
      (hpc : s.pc = .waiting) (hcq : s.ring.cq = cqe :: rest)
      (hok : handleCqe sockfd s cqe sockConnFd bid = .ok t)
      (hanswered : Answered sockfd s cqe sockConnFd bid t) :
      Step sockfd s (.handle sockConnFd bid) { t with pc := .submitting }
  | stopped {cqe : Cqe} {rest : List Cqe} {sockConnFd bid : Nat} {stop : Stop}
      (hpc : s.pc = .waiting) (hcq : s.ring.cq = cqe :: rest)
      (hstop : handleCqe sockfd s cqe sockConnFd bid = .error stop) :
      Step sockfd s (.handle sockConnFd bid) { s with pc := .stopped stop }
  | completed {i : Nat} {cqe : Cqe} (hop : s.ring.inflight[i]? = some cqe.entry)
      (hpossible : s.Possible cqe) : Step sockfd s (.complete i cqe.res) (s.completed i cqe)

theorem step_sound {sockfd : Nat} {s t : State} {event : Event}
    (h : step sockfd s event = some t) : Step sockfd s event t := by
  cases event with
  | submit count =>
    simp only [step, Option.ite_none_right_eq_some, Option.some.injEq] at h
    rw [← h.2]
    exact .submitted h.1
  | waitError =>
    simp only [step, Option.ite_none_right_eq_some, Option.some.injEq] at h
    rw [← h.2]
    exact .failed h.1
  | handle sockConnFd bid =>
    simp only [step] at h
    split at h
    · rename_i cqe rest hpc hcq
      rw [Option.ite_none_right_eq_some, Option.some.injEq] at h
      rw [← h.2]
      unfold State.react
      cases hok : handleCqe sockfd s cqe sockConnFd bid with
      | ok next => exact .answered hpc hcq hok (handleCqe_eq_ok hok)
      | error stop => exact .stopped hpc hcq hok
    · cases h
  | complete i res =>
    simp only [step] at h
    split at h
    · rename_i op hop
      simp only [Option.ite_none_right_eq_some, Option.some.injEq] at h
      rw [← h.2]
      exact .completed hop h.1
    · cases h

end IoWrapper.DemoEcho.Server
