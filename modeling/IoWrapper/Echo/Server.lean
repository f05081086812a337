import IoWrapper.Core.Machine
import IoWrapper.Core.Pool
import Mathlib.Logic.Function.Basic

/-! `io_uring_echo_server.c` with the kernel it runs on. The server queues
submission entries and answers completions; the kernel issues the entries in
queue order, lends a buffer of the group to a receive that asks for one, and
completes what is in flight in any order. -/
namespace IoWrapper.Echo.Server
open Core.Machine Core.Pool

def maxConnections : Nat := 4096
def maxMessageLen : Nat := 2048
def buffersCount : Nat := maxConnections
def groupId : Nat := 1337
def iosqeBufferSelect : Nat := 32
def enobufs : Int := 105

inductive OpType where
  | accept
  | read
  | write
  | provBuf
deriving DecidableEq

structure ConnInfo where
  fd : Nat
  type : OpType
  bid : Nat
deriving DecidableEq

inductive Op where
  | accept (fd : Nat)
  | recv (fd len : Nat)
  | send (fd bid len : Nat)
  | provideBuffers (bid len nr : Nat)
deriving DecidableEq

/-- The `conn_info` that goes with an operation. -/
def Op.connInfo : Op → ConnInfo
  | .accept fd => ⟨fd, .accept, 0⟩
  | .recv fd _ => ⟨fd, .read, 0⟩
  | .send fd bid _ => ⟨fd, .write, bid⟩
  | .provideBuffers _ _ _ => ⟨0, .provBuf, 0⟩

/-- A submission entry with its `user_data`, which always describes it. -/
structure Sqe where
  op : Op
  flags : Nat
  bufGroup : Nat
  userData : ConnInfo
  described : userData = op.connInfo
deriving DecidableEq

/-- A completion, with the entry it answers; the server sees the `user_data`. -/
structure Cqe where
  sqe : Sqe
  res : Int
  flags : Nat
deriving DecidableEq

def Cqe.userData (cqe : Cqe) : ConnInfo := cqe.sqe.userData

def addAccept (fd flags : Nat) : Sqe := ⟨.accept fd, flags, 0, ⟨fd, .accept, 0⟩, rfl⟩

def addSocketRead (fd gid _messageSize flags : Nat) : Sqe :=
  ⟨.recv fd 0, flags, gid, ⟨fd, .read, 0⟩, rfl⟩

def addSocketWrite (fd bid messageSize flags : Nat) : Sqe :=
  ⟨.send fd bid messageSize, flags, 0, ⟨fd, .write, bid⟩, rfl⟩

def addProvideBuf (bid gid : Nat) : Sqe :=
  ⟨.provideBuffers bid maxMessageLen 1, 0, gid, ⟨0, .provBuf, 0⟩, rfl⟩

@[simp] theorem addAccept_op (fd flags : Nat) : (addAccept fd flags).op = .accept fd := rfl

@[simp] theorem addSocketRead_op (fd gid messageSize flags : Nat) :
    (addSocketRead fd gid messageSize flags).op = .recv fd 0 := rfl

@[simp] theorem addSocketWrite_op (fd bid messageSize flags : Nat) :
    (addSocketWrite fd bid messageSize flags).op = .send fd bid messageSize := rfl

@[simp] theorem addProvideBuf_op (bid gid : Nat) :
    (addProvideBuf bid gid).op = .provideBuffers bid maxMessageLen 1 := rfl

/-- What the loop does on one completion: the entries it queues, the descriptor
it closes, the text it exits with. -/
structure Reaction where
  queued : List Sqe
  close : Option Nat
  exit : Option String
deriving DecidableEq

def noBufsText : String :=
  "bufs in automatic buffer selection empty, this should not happen...\n"

def provideErrorText (res : Int) : String := "cqe->res = " ++ toString res ++ "\n"

/-- The body of `io_uring_for_each_cqe`. -/
def handleCqe (sockListenFd : Nat) (cqe : Cqe) : Reaction :=
  let connI := cqe.userData
  if cqe.res = -enobufs then
    ⟨[], none, some noBufsText⟩
  else match connI.type with
    | .provBuf =>
      if cqe.res < 0 then ⟨[], none, some (provideErrorText cqe.res)⟩
      else ⟨[], none, none⟩
    | .accept =>
      let reads := if 0 ≤ cqe.res then
        [addSocketRead cqe.res.toNat groupId maxMessageLen iosqeBufferSelect] else []
      ⟨reads ++ [addAccept sockListenFd 0], none, none⟩
    | .read =>
      let bid := cqe.flags >>> 16
      if cqe.res ≤ 0 then ⟨[addProvideBuf bid groupId], some connI.fd, none⟩
      else ⟨[addSocketWrite connI.fd bid cqe.res.toNat 0], none, none⟩
    | .write =>
      ⟨[addProvideBuf connI.bid groupId,
        addSocketRead connI.fd groupId maxMessageLen iosqeBufferSelect], none, none⟩

/-- An accepted connection, numbered in the order of the accepts, with the
bytes received from it and the bytes reported sent to it. -/
structure Conn where
  id : Nat
  fd : Nat
  received : List UInt8
  sent : List UInt8
deriving DecidableEq

structure Issued where
  sqe : Sqe
  held : Option Nat
deriving DecidableEq

inductive Pc where
  | submitting
  | pass
  | exited (text : String)
deriving DecidableEq

/-- The entries queued and not yet submitted, those submitted and not yet
issued, those in flight, and the completions not yet processed. -/
structure State where
  listenFd : Nat
  sq : List Sqe
  submitted : List Sqe
  inflight : List Issued
  cq : List Cqe
  group : List Nat
  bufs : Nat → List UInt8
  conns : List Conn
  accepted : Nat
  closes : List (Option Nat)
  pc : Pc

def State.init (listenFd : Nat) : State :=
  { listenFd := listenFd
    sq := [addAccept listenFd 0]
    submitted := []
    inflight := []
    cq := []
    group := List.range buffersCount
    bufs := fun _ => List.replicate maxMessageLen 0
    conns := []
    accepted := 0
    closes := []
    pc := .submitting }

inductive Event where
  | submit (count : Nat)
  | handle
  | endPass
  | issue
  | provide (res : Int)
  | take (i bid : Nat)
  | giveBack (i : Nat)
  | complete (i : Nat) (res : Int) (data : List UInt8)

/-- `close`, with a note of the connection that it closed. -/
def State.close (s : State) (fd : Nat) : State :=
  match s.conns.findIdx? fun c => c.fd == fd with
  | some i =>
    { s with
      conns := s.conns.eraseIdx i
      closes := s.closes ++ [s.conns[i]?.map Conn.id] }
  | none => { s with closes := s.closes ++ [none] }

def State.react (s : State) (reaction : Reaction) : State :=
  let s := { s with sq := s.sq ++ reaction.queued }
  match reaction.close with
  | some fd => s.close fd
  | none => s

/-- A completion is processed; `exit` leaves everything where it is. -/
def State.handled (s : State) (cqe : Cqe) (rest : List Cqe) : State :=
  match (handleCqe s.listenFd cqe).exit with
  | some text => { s with pc := .exited text }
  | none => { s with cq := rest }.react (handleCqe s.listenFd cqe)

def onConn (fd : Nat) (update : Conn → Conn) (conns : List Conn) : List Conn :=
  conns.map fun c => if c.fd = fd then update c else c

def Conn.receive (data : List UInt8) (c : Conn) : Conn :=
  { c with received := c.received ++ data }

def Conn.transmit (data : List UInt8) (c : Conn) : Conn :=
  { c with sent := c.sent ++ data }

def State.receive (s : State) (fd bid : Nat) (data : List UInt8) : State :=
  { s with
    bufs := Function.update s.bufs bid (data ++ (s.bufs bid).drop data.length)
    conns := onConn fd (Conn.receive data) s.conns }

def State.transmit (s : State) (fd bid count : Nat) : State :=
  { s with conns := onConn fd (Conn.transmit ((s.bufs bid).take count)) s.conns }

def State.accept (s : State) (fd : Nat) : State :=
  { s with
    conns := s.conns ++ [⟨s.accepted, fd, [], []⟩]
    accepted := s.accepted + 1 }

/-- `IORING_CQE_F_BUFFER` with the number of the buffer. -/
def bufferFlags (bid : Nat) : Nat := bid * 2 ^ 16 + 1

@[simp] theorem bufferFlags_odd (bid : Nat) : bufferFlags bid % 2 = 1 := by
  unfold bufferFlags
  omega

@[simp] theorem bufferFlags_bid (bid : Nat) : bufferFlags bid >>> 16 = bid := by
  unfold bufferFlags
  rw [Nat.shiftRight_eq_div_pow]
  omega

def outcome (s : State) (f : Issued) (res : Int) (data : List UInt8) : Option (Nat × State) :=
  match f.sqe.op, f.held with
  | .accept _, _ =>
    if data ≠ [] then none
    else if res < 0 then some (0, s)
    else if res.toNat = s.listenFd ∨ res.toNat ∈ s.conns.map Conn.fd then none
    else some (0, s.accept res.toNat)
  | .recv fd _, some bid =>
    if res ≠ -enobufs ∧ data.length = res.toNat ∧ data.length ≤ maxMessageLen then
      some (bufferFlags bid, s.receive fd bid data)
    else none
  | .recv _ _, none =>
    if data = [] ∧ res ≤ 0 ∧ (res = -enobufs → s.group = []) then some (0, s) else none
  | .send fd bid len, _ =>
    if data = [] ∧ res ≠ 0 ∧ res ≤ len then some (0, s.transmit fd bid res.toNat) else none
  | .provideBuffers _ _ _, _ => none

def State.post (s : State) (i : Nat) (cqe : Cqe) : State :=
  { s with
    inflight := s.inflight.eraseIdx i
    cq := s.cq ++ [cqe] }

def step (s : State) : Event → Option State
  | .submit count =>
    if s.pc = .submitting then
      some { s with
        sq := s.sq.drop count
        submitted := s.submitted ++ s.sq.take count
        pc := .pass }
    else none
  | .handle =>
    match s.pc, s.cq with
    | .pass, cqe :: rest => some (s.handled cqe rest)
    | _, _ => none
  | .endPass => if s.pc = .pass ∧ s.cq = [] then some { s with pc := .submitting } else none
  | .issue =>
    match s.submitted with
    | sqe :: rest =>
      if sqe.userData.type = .provBuf then none
      else some { s with submitted := rest, inflight := s.inflight ++ [⟨sqe, none⟩] }
    | [] => none
  | .provide res =>
    match s.submitted with
    | sqe :: rest =>
      match sqe.op with
      | .provideBuffers bid _ _ =>
        some { s with
          submitted := rest
          group := if 0 ≤ res then s.group ++ [bid] else s.group
          cq := s.cq ++ [⟨sqe, res, 0⟩] }
      | _ => none
    | [] => none
  | .take i bid =>
    match s.inflight[i]? with
    | some ⟨sqe, none⟩ =>
      if sqe.userData.type = .read ∧ bid ∈ s.group then
        some { s with
          group := s.group.erase bid
          inflight := s.inflight.set i ⟨sqe, some bid⟩ }
      else none
    | _ => none
  | .giveBack i =>
    match s.inflight[i]? with
    | some ⟨sqe, some bid⟩ =>
      if sqe.userData.type = .read then
        some { s with
          group := s.group ++ [bid]
          inflight := s.inflight.set i ⟨sqe, none⟩ }
      else none
    | _ => none
  | .complete i res data =>
    match s.inflight[i]? with
    | some f => (outcome s f res data).map fun p => p.2.post i ⟨f.sqe, res, p.1⟩
    | none => none

def State.answered (s : State) (rest : List Cqe) (queued : List Sqe) : State :=
  { s with
    cq := rest
    sq := s.sq ++ queued }

inductive Step (s : State) : Event → State → Prop where
  | submitted {count : Nat} (hpc : s.pc = .submitting) :
      Step s (.submit count)
        { s with
          sq := s.sq.drop count
          submitted := s.submitted ++ s.sq.take count
          pc := .pass }
  | passEnded (hpc : s.pc = .pass) (hcq : s.cq = []) :
      Step s .endPass { s with pc := .submitting }
  | exited {cqe : Cqe} {rest : List Cqe} {text : String} (hpc : s.pc = .pass)
      (hcq : s.cq = cqe :: rest)
      (hwhy : cqe.res = -enobufs ∨ cqe.userData.type = .provBuf ∧ cqe.res < 0) :
      Step s .handle { s with pc := .exited text }
  | handledProvide {cqe : Cqe} {rest : List Cqe} {bid len nr : Nat} (hpc : s.pc = .pass)
      (hcq : s.cq = cqe :: rest) (hop : cqe.sqe.op = .provideBuffers bid len nr)
      (hres : 0 ≤ cqe.res) : Step s .handle (s.answered rest [])
  | handledAccept {cqe : Cqe} {rest : List Cqe} {fd : Nat} (hpc : s.pc = .pass)
      (hcq : s.cq = cqe :: rest) (hop : cqe.sqe.op = .accept fd) (hres : 0 ≤ cqe.res) :
      Step s .handle (s.answered rest
        [addSocketRead cqe.res.toNat groupId maxMessageLen iosqeBufferSelect,
          addAccept s.listenFd 0])
  | handledAcceptError {cqe : Cqe} {rest : List Cqe} {fd : Nat} (hpc : s.pc = .pass)
      (hcq : s.cq = cqe :: rest) (hop : cqe.sqe.op = .accept fd) (hres : cqe.res < 0) :
      Step s .handle (s.answered rest [addAccept s.listenFd 0])
  | handledHangup {cqe : Cqe} {rest : List Cqe} {fd len : Nat} (hpc : s.pc = .pass)
      (hcq : s.cq = cqe :: rest) (hop : cqe.sqe.op = .recv fd len) (hres : cqe.res ≤ 0)
      (hbufs : cqe.res ≠ -enobufs) :
      Step s .handle ((s.answered rest [addProvideBuf (cqe.flags >>> 16) groupId]).close fd)
  | handledRead {cqe : Cqe} {rest : List Cqe} {fd len : Nat} (hpc : s.pc = .pass)
      (hcq : s.cq = cqe :: rest) (hop : cqe.sqe.op = .recv fd len) (hres : 0 < cqe.res) :
      Step s .handle (s.answered rest
        [addSocketWrite fd (cqe.flags >>> 16) cqe.res.toNat 0])
  | handledWrite {cqe : Cqe} {rest : List Cqe} {fd bid len : Nat} (hpc : s.pc = .pass)
      (hcq : s.cq = cqe :: rest) (hop : cqe.sqe.op = .send fd bid len) :
      Step s .handle (s.answered rest [addProvideBuf bid groupId,
        addSocketRead fd groupId maxMessageLen iosqeBufferSelect])
  | issued {sqe : Sqe} {rest : List Sqe} (hsub : s.submitted = sqe :: rest)
      (htype : sqe.userData.type ≠ .provBuf) :
      Step s .issue
        { s with
          submitted := rest
          inflight := s.inflight ++ [⟨sqe, none⟩] }
  | provided {sqe : Sqe} {rest : List Sqe} {bid len nr : Nat} {res : Int}
      (hsub : s.submitted = sqe :: rest) (hop : sqe.op = .provideBuffers bid len nr) :
      Step s (.provide res)
        { s with
          submitted := rest
          group := if 0 ≤ res then s.group ++ [bid] else s.group
          cq := s.cq ++ [⟨sqe, res, 0⟩] }
  | took {i bid fd len : Nat} {sqe : Sqe} (hf : s.inflight[i]? = some ⟨sqe, none⟩)
      (hop : sqe.op = .recv fd len) (hbid : bid ∈ s.group) :
      Step s (.take i bid)
        { s with
          group := s.group.erase bid
          inflight := s.inflight.set i ⟨sqe, some bid⟩ }
  | gaveBack {i bid fd len : Nat} {sqe : Sqe} (hf : s.inflight[i]? = some ⟨sqe, some bid⟩)
      (hop : sqe.op = .recv fd len) :
      Step s (.giveBack i)
        { s with
          group := s.group ++ [bid]
          inflight := s.inflight.set i ⟨sqe, none⟩ }
  | accepted {i fd : Nat} {f : Issued} {res : Int} (hf : s.inflight[i]? = some f)
      (hop : f.sqe.op = .accept fd) (hres : 0 ≤ res)
      (hfresh : res.toNat ∉ s.conns.map Conn.fd) :
      Step s (.complete i res []) ((s.accept res.toNat).post i ⟨f.sqe, res, 0⟩)
  | acceptFailed {i fd : Nat} {f : Issued} {res : Int} (hf : s.inflight[i]? = some f)
      (hop : f.sqe.op = .accept fd) (hres : res < 0) :
      Step s (.complete i res []) (s.post i ⟨f.sqe, res, 0⟩)
  | received {i fd len bid : Nat} {sqe : Sqe} {res : Int} {data : List UInt8}
      (hf : s.inflight[i]? = some ⟨sqe, some bid⟩) (hop : sqe.op = .recv fd len)
      (hbufs : res ≠ -enobufs) (hdata : data.length = res.toNat)
      (hlen : data.length ≤ maxMessageLen) :
      Step s (.complete i res data)
        ((s.receive fd bid data).post i ⟨sqe, res, bufferFlags bid⟩)
  | recvFailed {i fd len : Nat} {sqe : Sqe} {res : Int}
      (hf : s.inflight[i]? = some ⟨sqe, none⟩) (hop : sqe.op = .recv fd len) (hres : res ≤ 0)
      (hbufs : res = -enobufs → s.group = []) :
      Step s (.complete i res []) (s.post i ⟨sqe, res, 0⟩)
  | sent {i fd bid len : Nat} {f : Issued} {res : Int} (hf : s.inflight[i]? = some f)
      (hop : f.sqe.op = .send fd bid len) (hres : res ≠ 0) (hle : res ≤ len) :
      Step s (.complete i res [])
        ((s.transmit fd bid res.toNat).post i ⟨f.sqe, res, 0⟩)

theorem handled_step {s : State} {cqe : Cqe} {rest : List Cqe} (hpc : s.pc = .pass)
    (hcq : s.cq = cqe :: rest) : Step s .handle (s.handled cqe rest) := by
  have hinfo : cqe.userData = cqe.sqe.op.connInfo := cqe.sqe.described
  by_cases hbufs : cqe.res = -enobufs
  · have hexit : s.handled cqe rest = { s with pc := .exited noBufsText } := by
      simp [State.handled, handleCqe, hbufs]
    rw [hexit]
    exact .exited hpc hcq (Or.inl hbufs)
  · cases hop : cqe.sqe.op with
    | provideBuffers bid len nr =>
      rw [hop] at hinfo
      by_cases hres : cqe.res < 0
      · have hexit : s.handled cqe rest =
            { s with pc := .exited (provideErrorText cqe.res) } := by
          simp [State.handled, handleCqe, hbufs, hinfo, Op.connInfo, hres]
        rw [hexit]
        exact .exited hpc hcq (Or.inr ⟨by rw [hinfo]; rfl, hres⟩)
      · have hnone : s.handled cqe rest = s.answered rest [] := by
          simp [State.handled, handleCqe, hbufs, hinfo, Op.connInfo, hres, State.react,
            State.answered]
        rw [hnone]
        exact .handledProvide hpc hcq hop (by omega)
    | accept fd =>
      rw [hop] at hinfo
      by_cases hres : 0 ≤ cqe.res
      · have hqueued : s.handled cqe rest = s.answered rest
            [addSocketRead cqe.res.toNat groupId maxMessageLen iosqeBufferSelect,
              addAccept s.listenFd 0] := by
          simp [State.handled, handleCqe, hbufs, hinfo, Op.connInfo, hres, State.react,
            State.answered]
        rw [hqueued]
        exact .handledAccept hpc hcq hop hres
      · have hqueued : s.handled cqe rest = s.answered rest [addAccept s.listenFd 0] := by
          simp [State.handled, handleCqe, hbufs, hinfo, Op.connInfo, hres, State.react,
            State.answered]
        rw [hqueued]
        exact .handledAcceptError hpc hcq hop (by omega)
    | recv fd len =>
      rw [hop] at hinfo
      by_cases hres : cqe.res ≤ 0
      · have hclosed : s.handled cqe rest =
            (s.answered rest [addProvideBuf (cqe.flags >>> 16) groupId]).close fd := by
          simp [State.handled, handleCqe, hbufs, hinfo, Op.connInfo, hres, State.react,
            State.answered]
        rw [hclosed]
        exact .handledHangup hpc hcq hop hres hbufs
      · have hqueued : s.handled cqe rest =
            s.answered rest [addSocketWrite fd (cqe.flags >>> 16) cqe.res.toNat 0] := by
          simp [State.handled, handleCqe, hbufs, hinfo, Op.connInfo, hres, State.react,
            State.answered]
        rw [hqueued]
        exact .handledRead hpc hcq hop (by omega)
    | send fd bid len =>
      rw [hop] at hinfo
      have hqueued : s.handled cqe rest = s.answered rest [addProvideBuf bid groupId,
          addSocketRead fd groupId maxMessageLen iosqeBufferSelect] := by
        simp [State.handled, handleCqe, hbufs, hinfo, Op.connInfo, State.react, State.answered]
      rw [hqueued]
      exact .handledWrite hpc hcq hop

theorem userData_of_op {sqe : Sqe} {op : Op} (hop : sqe.op = op) :
    sqe.userData = op.connInfo := by
  rw [← hop]
  exact sqe.described

theorem op_of_type_read {sqe : Sqe} (h : sqe.userData.type = .read) :
    ∃ fd len, sqe.op = .recv fd len := by
  rw [sqe.described] at h
  cases hop : sqe.op with
  | recv fd len => exact ⟨fd, len, rfl⟩
  | _ =>
    rw [hop] at h
    cases h

theorem op_of_type_write {sqe : Sqe} (h : sqe.userData.type = .write) :
    ∃ fd bid len, sqe.op = .send fd bid len := by
  rw [sqe.described] at h
  cases hop : sqe.op with
  | send fd bid len => exact ⟨fd, bid, len, rfl⟩
  | _ =>
    rw [hop] at h
    cases h

theorem complete_step {s t : State} {i : Nat} {f : Issued} {res : Int} {data : List UInt8}
    (hf : s.inflight[i]? = some f)
    (h : (outcome s f res data).map (fun p => p.2.post i ⟨f.sqe, res, p.1⟩) = some t) :
    Step s (.complete i res data) t := by
  rcases Option.map_eq_some_iff.mp h with ⟨p, hp, ht⟩
  subst ht
  unfold outcome at hp
  split at hp
  · rename_i fd held hop
    split at hp
    · cases hp
    · rename_i hdata
      rw [not_not] at hdata
      subst hdata
      split at hp
      · rename_i hres
        cases hp
        exact .acceptFailed hf hop hres
      · rename_i hres
        split at hp
        · cases hp
        · rename_i hfresh
          cases hp
          exact .accepted hf hop (by omega) fun hin => hfresh (Or.inr hin)
  · rename_i fd len bid hop hheld
    split at hp
    · rename_i hok
      cases hp
      cases f
      cases hheld
      exact .received hf hop hok.1 hok.2.1 hok.2.2
    · cases hp
  · rename_i fd len hop hheld
    split at hp
    · rename_i hok
      cases hp
      cases f
      cases hheld
      rw [hok.1]
      exact .recvFailed hf hop hok.2.1 hok.2.2
    · cases hp
  · rename_i fd bid len held hop
    split at hp
    · rename_i hok
      cases hp
      rw [hok.1]
      exact .sent hf hop hok.2.1 hok.2.2
    · cases hp
  · cases hp

theorem step_sound {s t : State} {event : Event} (h : step s event = some t) :
    Step s event t := by
  cases event with
  | submit count =>
    simp only [step, Option.ite_none_right_eq_some, Option.some.injEq] at h
    rw [← h.2]
    exact .submitted h.1
  | handle =>
    simp only [step] at h
    split at h
    · rename_i cqe rest hpc hcq
      cases h
      exact handled_step hpc hcq
    · cases h
  | endPass =>
    simp only [step, Option.ite_none_right_eq_some, Option.some.injEq] at h
    rw [← h.2]
    exact .passEnded h.1.1 h.1.2
  | issue =>
    simp only [step] at h
    split at h
    · rename_i sqe rest hsub
      split at h
      · cases h
      · rename_i htype
        cases h
        exact .issued hsub htype
    · cases h
  | provide res =>
    simp only [step] at h
    split at h
    · rename_i sqe rest hsub
      split at h
      · rename_i bid len nr hop
        cases h
        exact .provided hsub hop
      · cases h
    · cases h
  | take i bid =>
    simp only [step] at h
    split at h
    · rename_i sqe hf
      split at h
      · rename_i hok
        cases h
        rcases op_of_type_read hok.1 with ⟨fd, len, hop⟩
        exact .took hf hop hok.2
      · cases h
    · cases h
  | giveBack i =>
    simp only [step] at h
    split at h
    · rename_i sqe bid hf
      split at h
      · rename_i htype
        cases h
        rcases op_of_type_read htype with ⟨fd, len, hop⟩
        exact .gaveBack hf hop
      · cases h
    · cases h
  | complete i res data =>
    simp only [step] at h
    split at h
    · rename_i f hf
      exact complete_step hf h
    · cases h

def connect (fd : Nat) : List Event :=
  [.submit 1, .issue, .complete 0 fd [], .handle, .endPass, .submit 2, .issue, .issue]

end IoWrapper.Echo.Server
