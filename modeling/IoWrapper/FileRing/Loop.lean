import IoWrapper.Core.Machine
import IoWrapper.FileRing.Pop

/-! `startLoop` of `iouring/liburing.go` with its environment: goroutines that
call `ReadFile`, `WriteFile` and `Poll`, and the kernel. The channels are
unbuffered, so a request or a signal passes from caller to loop in one step,
after which both go on by themselves in any order. Opening a file yields a
descriptor that is not open, and a failed `queue_submit` leaves the prepared
entries where they are. The loop is the same over any ring; here it is taken
over the ring of records. -/
namespace IoWrapper.FileRing.Loop
open Core.Machine Blocks FileRing.Ring Pop

def queueThreshold : Nat := 5

inductive OpCode where
  | opCodeRead
  | opCodeWrite
deriving DecidableEq

def OpCode.opcode : OpCode → Opcode
  | .opCodeRead => .readv
  | .opCodeWrite => .writev

/-- `request`, numbered in the order of the calls. -/
structure Request where
  id : Nat
  code : OpCode
  fd : Nat
  buf : List UInt8
  size : Nat
deriving DecidableEq

def Request.file (r : Request) : File := ⟨r.id, r.fd⟩

def Request.cbInfo (r : Request) : CbInfo := cbInfoOf r.code.opcode r.file

/-- The request `ReadFile` sends once it has opened the file and read its size. -/
def readFile (id fd size : Nat) : Request := ⟨id, .opCodeRead, fd, [], size⟩

def writeFile (id fd : Nat) (data : List UInt8) : Request := ⟨id, .opCodeWrite, fd, data, 0⟩

inductive Pc where
  | select
  | submitting (queueSize : Nat)
  | popping (queueSize : Nat)
  | stopped
  | faulted (fault : Fault)
deriving DecidableEq

/-- One call of `Poll`, with the calls that had returned when it began. -/
structure PollCall where
  before : List Nat
  received : Bool
  returned : Bool
deriving DecidableEq

inductive Event where
  | readFile (fd size : Nat)
  | writeFile (fd : Nat) (data : List UInt8)
  | receive (i : Nat) (memalign : Nat → Bool)
  | callReturn (id : Nat)
  | poll
  | receivePoll (i : Nat)
  | pollReturn (i : Nat)
  | quit
  | submit (ret : Int)
  | complete (i : Nat) (res : Int) (data : List UInt8)
  | pop

def Event.request : Event → Nat → Option Request
  | .readFile fd size, id => some (Loop.readFile id fd size)
  | .writeFile fd data, id => some (Loop.writeFile id fd data)
  | _, _ => none

def pushErrorText : OpCode → String
  | .opCodeRead => "error while pushing read request"
  | .opCodeWrite => "error while pushing write_request"

/-- A ring as the loop uses it: its queues, which answers the allocator can give to a push, the
functions of `liburing.c`, the kernel's end of a request, and the request whose completion is
the first. -/
structure Rig (ρ ι κ α : Type) where
  queues : ρ → Queues ι κ
  withQueues : ρ → Queues ι κ → ρ
  grants : ρ → Request → α → Bool
  push : α → Request → ρ → Except Fault (Int × ρ)
  complete : ρ → Nat → Int → List UInt8 → Option (Except Fault ρ)
  popRequest : ρ → Except Fault (Int × ρ)
  owner : ρ → Option Nat

/-- The loop over a ring, and its callers. -/
structure Frame (ρ : Type) where
  ring : ρ
  pc : Pc
  queueSize : Nat
  calls : Nat
  waiting : List Request
  received : List Request
  flushed : Nat
  returned : List Nat
  polls : List PollCall

section Frames

variable {ρ ι κ α : Type}

def Rig.sendErr (R : Rig ρ ι κ α) (ring : ρ) (text : String) (errno : Int) (about : Option Nat) :
    ρ :=
  R.withQueues ring ((R.queues ring).sendErr text errno about)

/-- The caller has opened its file and blocks on `submitChan`. -/
def Frame.opened (s : Frame ρ) (R : Rig ρ ι κ α) (r : Request) : Frame ρ :=
  { s with
    ring := R.withQueues s.ring ((R.queues s.ring).openFd r.fd)
    waiting := s.waiting ++ [r]
    calls := s.calls + 1 }

/-- The loop has taken a request off `submitChan` and stored its callbacks. -/
def Frame.registered (s : Frame ρ) (R : Rig ρ ι κ α) (i : Nat) (r : Request) : Frame ρ :=
  { s with
    ring := R.withQueues s.ring ((R.queues s.ring).register r.fd r.cbInfo)
    waiting := s.waiting.eraseIdx i
    received := s.received ++ [r] }

/-- The body of the `submitChan` case of `startLoop`. -/
def Frame.receive (s : Frame ρ) (R : Rig ρ ι κ α) (i : Nat) (r : Request) (alloc : α) : Frame ρ :=
  let s := s.registered R i r
  match R.push alloc r s.ring with
  | .error fault => { s with pc := .faulted fault }
  | .ok (ret, ring) =>
    if ret < 0 then
      { s with ring := R.sendErr ring (pushErrorText r.code) (-ret) (some r.id) }
    else
      let queueSize := s.queueSize + 1
      if queueSize > queueThreshold then
        { s with ring := ring, queueSize := queueSize, pc := .submitting queueSize }
      else
        { s with ring := ring, queueSize := queueSize }

/-- `submitAndPop` has returned to the loop, which resets its counter. -/
def Frame.flushedTo (s : Frame ρ) (ring : ρ) : Frame ρ :=
  { s with ring := ring, pc := .select, queueSize := 0, flushed := s.received.length }

def Frame.submit (s : Frame ρ) (R : Rig ρ ι κ α) (queueSize : Nat) (ret : Int) : Frame ρ :=
  if ret < 0 then
    s.flushedTo (R.sendErr s.ring "error while submitting" (-ret) none)
  else
    { s with
      ring := R.withQueues s.ring ((R.queues s.ring).taken ret.toNat)
      pc := .popping queueSize }

def Frame.ended (s : Frame ρ) : Except Fault ρ → Frame ρ
  | .error fault => { s with pc := .faulted fault }
  | .ok ring => { s with ring := ring }

/-- The pop loop has `left` completions to go. -/
def Frame.resumed (s : Frame ρ) (left : Nat) (ring : ρ) : Frame ρ :=
  if left = 0 then s.flushedTo ring else { s with ring := ring, pc := .popping left }

def Frame.pop (s : Frame ρ) (R : Rig ρ ι κ α) (queueSize : Nat) : Frame ρ :=
  match (R.popRequest s.ring).map (afterPop R.sendErr queueSize (R.owner s.ring)) with
  | .error fault => { s with pc := .faulted fault }
  | .ok (left, ring) => s.resumed left ring

/-- The loop has taken a signal off `pollChan`. -/
def Frame.receivePoll (s : Frame ρ) (i : Nat) (p : PollCall) : Frame ρ :=
  let s := { s with polls := s.polls.set i { p with received := true } }
  if s.queueSize > 0 then { s with pc := .submitting s.queueSize } else s

def Frame.take (s : Frame ρ) (R : Rig ρ ι κ α) (i : Nat) (alloc : α) : Option (Frame ρ) :=
  if s.pc = .select then
    s.waiting[i]?.bind fun r =>
      if R.grants s.ring r alloc then some (s.receive R i r alloc) else none
  else none

def Frame.step (s : Frame ρ) (R : Rig ρ ι κ α) : Event → Option (Frame ρ)
  | .readFile fd size =>
    if fd ∈ (R.queues s.ring).openFds then none
    else some (s.opened R (readFile s.calls fd size))
  | .writeFile fd data =>
    if fd ∈ (R.queues s.ring).openFds then none
    else some (s.opened R (writeFile s.calls fd data))
  | .receive _ _ => none
  | .callReturn id =>
    if id ∈ s.received.map Request.id ∧ id ∉ s.returned then
      some { s with returned := s.returned ++ [id] }
    else none
  | .poll => some { s with polls := s.polls ++ [⟨s.returned, false, false⟩] }
  | .receivePoll i =>
    match s.pc, s.polls[i]? with
    | .select, some p => if p.received then none else some (s.receivePoll i p)
    | _, _ => none
  | .pollReturn i =>
    match s.polls[i]? with
    | some p =>
      if p.received ∧ p.returned = false then
        some { s with polls := s.polls.set i { p with returned := true } }
      else none
    | none => none
  | .quit => if s.pc = .select then some { s with pc := .stopped } else none
  | .submit ret =>
    match s.pc with
    | .submitting queueSize => some (s.submit R queueSize ret)
    | _ => none
  | .complete i res data => (R.complete s.ring i res data).map s.ended
  | .pop =>
    match s.pc with
    | .popping queueSize => some (s.pop R queueSize)
    | _ => none

inductive Frame.Step (s : Frame ρ) (R : Rig ρ ι κ α) : Event → Frame ρ → Prop where
  | opened {event : Event} {r : Request} (hcall : event.request s.calls = some r)
      (hfd : r.fd ∉ (R.queues s.ring).openFds) : Frame.Step s R event (s.opened R r)
  | callReturn {id : Nat} (hid : id ∈ s.received.map Request.id ∧ id ∉ s.returned) :
      Frame.Step s R (.callReturn id) { s with returned := s.returned ++ [id] }
  | poll : Frame.Step s R .poll { s with polls := s.polls ++ [⟨s.returned, false, false⟩] }
  | receivePoll {i : Nat} {p : PollCall} (hpc : s.pc = .select) (hp : s.polls[i]? = some p)
      (hwaits : p.received = false) : Frame.Step s R (.receivePoll i) (s.receivePoll i p)
  | pollReturn {i : Nat} {p : PollCall} (hp : s.polls[i]? = some p)
      (hstage : p.received ∧ p.returned = false) :
      Frame.Step s R (.pollReturn i) { s with polls := s.polls.set i { p with returned := true } }
  | quit (hpc : s.pc = .select) : Frame.Step s R .quit { s with pc := .stopped }
  | submit {n : Nat} {ret : Int} (hpc : s.pc = .submitting n) :
      Frame.Step s R (.submit ret) (s.submit R n ret)
  | ended {i : Nat} {res : Int} {data : List UInt8} {result : Except Fault ρ}
      (hended : R.complete s.ring i res data = some result) :
      Frame.Step s R (.complete i res data) (s.ended result)
  | pop {n : Nat} (hpc : s.pc = .popping n) : Frame.Step s R .pop (s.pop R n)

theorem Frame.take_eq_some {s t : Frame ρ} {R : Rig ρ ι κ α} {i : Nat} {alloc : α} :
    s.take R i alloc = some t ↔ s.pc = .select ∧ ∃ r, s.waiting[i]? = some r ∧
      R.grants s.ring r alloc ∧ t = s.receive R i r alloc := by
  simp only [Frame.take, Option.ite_none_right_eq_some, Option.bind_eq_some_iff, Option.some.injEq]
  refine and_congr_right fun _ => exists_congr fun r => and_congr_right fun _ => ?_
  exact and_congr_right fun _ => eq_comm

theorem Frame.step_sound {s t : Frame ρ} {R : Rig ρ ι κ α} {event : Event}
    (h : s.step R event = some t) : Frame.Step s R event t := by
  cases event with
  | readFile fd size =>
    simp only [Frame.step, Option.ite_none_left_eq_some, Option.some.injEq] at h
    rw [← h.2]
    exact .opened rfl h.1
  | writeFile fd data =>
    simp only [Frame.step, Option.ite_none_left_eq_some, Option.some.injEq] at h
    rw [← h.2]
    exact .opened rfl h.1
  | receive i memalign => cases h
  | callReturn id =>
    simp only [Frame.step, Option.ite_none_right_eq_some, Option.some.injEq] at h
    rw [← h.2]
    exact .callReturn h.1
  | poll =>
    cases h
    exact .poll
  | receivePoll i =>
    simp only [Frame.step] at h
    split at h
    · rename_i p hpc hp
      split at h
      · cases h
      · rename_i hwaits
        cases h
        exact .receivePoll hpc hp (by simpa using hwaits)
    · cases h
  | pollReturn i =>
    simp only [Frame.step] at h
    split at h
    · rename_i p hp
      split at h
      · rename_i hstage
        cases h
        exact .pollReturn hp hstage
      · cases h
    · cases h
  | quit =>
    simp only [Frame.step, Option.ite_none_right_eq_some, Option.some.injEq] at h
    rw [← h.2]
    exact .quit h.1
  | submit ret =>
    simp only [Frame.step] at h
    split at h
    · rename_i n hpc
      cases h
      exact .submit hpc
    · cases h
  | complete i res data =>
    rcases Option.map_eq_some_iff.mp h with ⟨result, hended, rfl⟩
    exact .ended hended
  | pop =>
    simp only [Frame.step] at h
    split at h
    · rename_i n hpc
      cases h
      exact .pop hpc
    · cases h

@[simp] theorem resumed_ring (s : Frame ρ) (left : Nat) (ring : ρ) :
    (s.resumed left ring).ring = ring := by
  unfold Frame.resumed
  split <;> rfl

@[simp] theorem resumed_waiting (s : Frame ρ) (left : Nat) (ring : ρ) :
    (s.resumed left ring).waiting = s.waiting := by
  unfold Frame.resumed
  split <;> rfl

@[simp] theorem resumed_received (s : Frame ρ) (left : Nat) (ring : ρ) :
    (s.resumed left ring).received = s.received := by
  unfold Frame.resumed
  split <;> rfl

@[simp] theorem resumed_calls (s : Frame ρ) (left : Nat) (ring : ρ) :
    (s.resumed left ring).calls = s.calls := by
  unfold Frame.resumed
  split <;> rfl

theorem resumed_pc (s : Frame ρ) (left : Nat) (ring : ρ) :
    (s.resumed left ring).pc = .select ∨ (s.resumed left ring).pc = .popping left := by
  unfold Frame.resumed
  split
  · exact Or.inl rfl
  · exact Or.inr rfl

end Frames

def push (memalign : Nat → Bool) (r : Request) (ring : State) : Except Fault (Int × State) :=
  match r.code with
  | .opCodeRead => pushReadRequest memalign r.id r.fd r.size ring
  | .opCodeWrite => pushWriteRequest r.id r.fd r.buf ring

/-- A read reports the bytes it has placed, at most the size it asked for. -/
def Reports (fi : FileInfo) (res : Int) (data : List UInt8) : Prop :=
  (fi.opcode = .readv → data.length = res.toNat ∧ data.length ≤ fi.fileSz) ∧
    (fi.opcode = .writev → data = [])

instance (fi : FileInfo) (res : Int) (data : List UInt8) : Decidable (Reports fi res data) :=
  inferInstanceAs (Decidable (_ ∧ _))

def posted (ring : State) (i : Nat) (fi : FileInfo) (res : Int) (data : List UInt8) : State :=
  { ring with
    inflight := ring.inflight.eraseIdx i
    cq := ring.cq ++ [completion fi res data] }

/-- The ring whose entries are the records themselves. -/
def rig : Rig State FileInfo Cqe (Nat → Bool) where
  queues ring := ring
  withQueues _ queues := queues
  grants _ _ _ := true
  push := push
  complete ring i res data :=
    ring.inflight[i]?.bind fun fi =>
      if Reports fi res data then some (.ok (posted ring i fi res data)) else none
  popRequest := popRequest
  owner ring := ring.cq.head?.map fun cqe => cqe.data.owner

abbrev Sys := Frame State

def Sys.init : Sys := ⟨State.init, .select, 0, 0, [], [], 0, [], []⟩

def step (s : Sys) (event : Event) : Option Sys :=
  match event with
  | .receive i memalign => s.take rig i memalign
  | event => s.step rig event

abbrev Sys.opened (s : Sys) (r : Request) : Sys := Frame.opened s rig r

abbrev Sys.registered (s : Sys) (i : Nat) (r : Request) : Sys := Frame.registered s rig i r

/-- The `file_info` that a push prepares. -/
def Request.info (r : Request) : FileInfo :=
  match r.code with
  | .opCodeRead => ⟨.readv, r.size, r.fd, blankIovecs r.size, r.id⟩
  | .opCodeWrite => ⟨.writev, r.buf.length, r.fd, [⟨r.buf.map some⟩], r.id⟩

@[simp] theorem info_fileFd (r : Request) : r.info.fileFd = r.fd := by
  unfold Request.info
  cases r.code <;> rfl

@[simp] theorem info_owner (r : Request) : r.info.owner = r.id := by
  unfold Request.info
  cases r.code <;> rfl

@[simp] theorem info_opcode (r : Request) : r.info.opcode = r.code.opcode := by
  unfold Request.info
  cases r.code <;> rfl

def AllocFails (memalign : Nat → Bool) (r : Request) : Prop :=
  r.code = .opCodeRead ∧ populate memalign (pushLayout r.size) = none

instance (memalign : Nat → Bool) (r : Request) : Decidable (AllocFails memalign r) :=
  inferInstanceAs (Decidable (_ ∧ _))

theorem push_of_fails {memalign : Nat → Bool} {r : Request} {ring : State}
    (h : AllocFails memalign r) : push memalign r ring = .ok (-1, ring) := by
  simp [push, h.1, pushReadRequest, h.2]

theorem push_eq {memalign : Nat → Bool} {r : Request} (ring : State)
    (h : ¬ AllocFails memalign r) :
    push memalign r ring = (prepare r.info ring).map fun ring => (0, ring) := by
  unfold push Request.info
  cases hcode : r.code with
  | opCodeRead =>
    have hsome : populate memalign (pushLayout r.size) ≠ none := fun hnone => h ⟨hcode, hnone⟩
    rcases Option.ne_none_iff_exists'.mp hsome with ⟨iovecs, hiovecs⟩
    simp only [pushReadRequest, hiovecs, populate_eq_some hiovecs]
  | opCodeWrite => rfl

theorem push_of_room {memalign : Nat → Bool} {r : Request} {ring : State}
    (h : ¬ AllocFails memalign r) (hroom : ring.sq.length < queueDepth) :
    push memalign r ring = .ok (0, { ring with sq := ring.sq ++ [r.info] }) := by
  rw [push_eq ring h, prepare_eq_ok.mpr ⟨hroom, rfl⟩]
  rfl

theorem push_of_full {memalign : Nat → Bool} {r : Request} {ring : State}
    (h : ¬ AllocFails memalign r) (hfull : ¬ ring.sq.length < queueDepth) :
    push memalign r ring = .error .nullSqe := by
  rw [push_eq ring h]
  simp [prepare, hfull, Except.map]

def Sys.pushFaulted (s : Sys) (i : Nat) (r : Request) : Sys :=
  { s.registered i r with pc := .faulted .nullSqe }

def Sys.pushFailed (s : Sys) (i : Nat) (r : Request) : Sys :=
  { s.registered i r with
    ring := (s.registered i r).ring.sendErr (pushErrorText r.code) 1 (some r.id) }

def Sys.pushed (s : Sys) (i : Nat) (r : Request) : Sys :=
  { s.registered i r with
    ring := { (s.registered i r).ring with sq := s.ring.sq ++ [r.info] }
    queueSize := s.queueSize + 1
    pc := if s.queueSize + 1 > queueThreshold then .submitting (s.queueSize + 1) else s.pc }

inductive Step (s : Sys) : Event → Sys → Prop where
  | opened {event : Event} {r : Request} (hcall : event.request s.calls = some r)
      (hfd : r.fd ∉ s.ring.openFds) : Step s event (s.opened r)
  | pushFaulted {i : Nat} {memalign : Nat → Bool} {r : Request} (hpc : s.pc = .select)
      (hr : s.waiting[i]? = some r) (halloc : ¬ AllocFails memalign r)
      (hfull : queueDepth ≤ s.ring.sq.length) :
      Step s (.receive i memalign) (s.pushFaulted i r)
  | pushFailed {i : Nat} {memalign : Nat → Bool} {r : Request} (hpc : s.pc = .select)
      (hr : s.waiting[i]? = some r) (halloc : AllocFails memalign r) :
      Step s (.receive i memalign) (s.pushFailed i r)
  | pushed {i : Nat} {memalign : Nat → Bool} {r : Request} (hpc : s.pc = .select)
      (hr : s.waiting[i]? = some r) (halloc : ¬ AllocFails memalign r)
      (hroom : s.ring.sq.length < queueDepth) :
      Step s (.receive i memalign) (s.pushed i r)
  | callReturn {id : Nat} (hreceived : id ∈ s.received.map Request.id)
      (hnew : id ∉ s.returned) :
      Step s (.callReturn id) { s with returned := s.returned ++ [id] }
  | poll : Step s .poll { s with polls := s.polls ++ [⟨s.returned, false, false⟩] }
  | receivePoll {i : Nat} {p : PollCall} (hpc : s.pc = .select) (hp : s.polls[i]? = some p)
      (hwaits : p.received = false) : Step s (.receivePoll i) (s.receivePoll i p)
  | pollReturn {i : Nat} {p : PollCall} (hp : s.polls[i]? = some p) (hreceived : p.received)
      (hblocked : p.returned = false) :
      Step s (.pollReturn i) { s with polls := s.polls.set i { p with returned := true } }
  | quit (hpc : s.pc = .select) : Step s .quit { s with pc := .stopped }
  | submitFailed {n : Nat} {ret : Int} (hpc : s.pc = .submitting n) (hret : ret < 0) :
      Step s (.submit ret)
        (s.flushedTo (s.ring.sendErr "error while submitting" (-ret) none))
  | submitted {n : Nat} {ret : Int} (hpc : s.pc = .submitting n) (hret : 0 ≤ ret) :
      Step s (.submit ret) { s with ring := s.ring.taken ret.toNat, pc := .popping n }
  | completed {i : Nat} {fi : FileInfo} {res : Int} {data : List UInt8}
      (hfi : s.ring.inflight[i]? = some fi) (hreports : Reports fi res data) :
      Step s (.complete i res data) { s with ring := posted s.ring i fi res data }
  | popFaulted {n : Nat} {fault : Fault} (hpc : s.pc = .popping n)
      (hpop : popIteration n s.ring = .error fault) :
      Step s .pop { s with pc := .faulted fault }
  | spun {n : Nat} (hpc : s.pc = .popping n) (hcq : s.ring.cq = []) :
      Step s .pop (s.resumed n s.ring.spun)
  | refused {n : Nat} {cqe : Cqe} {rest : List Cqe} (hpc : s.pc = .popping n)
      (hcq : s.ring.cq = cqe :: rest) (hneg : cqe.res < 0) :
      Step s .pop (s.resumed (if -cqe.res ≠ eagain then n - 1 else n) (s.ring.refused cqe))
  | popped {n : Nat} {cqe : Cqe} {rest : List Cqe} {info : CbInfo} {file : File}
      {effect : Effect} (hpc : s.pc = .popping n) (hcq : s.ring.cq = cqe :: rest)
      (hres : 0 ≤ cqe.res) (hentry : s.ring.cbMap cqe.data.fileFd = some info)
      (hclose : info.close = some file) (hcall : callOf cqe info = some effect) :
      Step s .pop (s.resumed (n - 1) (s.ring.popped cqe file effect))

theorem receive_step {s : Sys} {i : Nat} {r : Request} {memalign : Nat → Bool}
    (hpc : s.pc = .select) (hr : s.waiting[i]? = some r) :
    Step s (.receive i memalign) (s.receive rig i r memalign) := by
  by_cases halloc : AllocFails memalign r
  · have hpush : rig.push memalign r (s.registered i r).ring = .ok (-1, (s.registered i r).ring) :=
      push_of_fails halloc
    have hfailed : s.receive rig i r memalign = s.pushFailed i r := by
      unfold Frame.receive
      dsimp only
      rw [hpush]
      rfl
    rw [hfailed]
    exact .pushFailed hpc hr halloc
  · by_cases hroom : s.ring.sq.length < queueDepth
    · have hpush : rig.push memalign r (s.registered i r).ring = _ := push_of_room halloc hroom
      have hpushed : s.receive rig i r memalign = s.pushed i r := by
        unfold Frame.receive Sys.pushed
        dsimp only
        rw [hpush]
        by_cases hflush : s.queueSize + 1 > queueThreshold
        · simp [hflush, Frame.registered, rig, Queues.register]
        · simp [hflush, Frame.registered, rig, Queues.register]
      rw [hpushed]
      exact .pushed hpc hr halloc hroom
    · have hpush : rig.push memalign r (s.registered i r).ring = _ := push_of_full halloc hroom
      have hfaulted : s.receive rig i r memalign = s.pushFaulted i r := by
        unfold Frame.receive
        dsimp only
        rw [hpush]
        rfl
      rw [hfaulted]
      exact .pushFaulted hpc hr halloc (by omega)

theorem pop_step {s : Sys} {n : Nat} (hpc : s.pc = .popping n) : Step s .pop (s.pop rig n) := by
  have hpop : (rig.popRequest s.ring).map (afterPop rig.sendErr n (rig.owner s.ring)) =
      popIteration n s.ring := rfl
  unfold Frame.pop
  rw [hpop]
  split
  · rename_i fault hpop
    exact .popFaulted hpc hpop
  · rename_i left ring hpop
    rcases popIteration_cases hpop with ⟨hcq, hleft, hring⟩ | ⟨cqe, rest, hcq, hneg, hleft, hring⟩ |
      ⟨cqe, rest, info, file, effect, hcq, hres, hentry, hclose, hcall, hleft, hring⟩
    · rw [hleft, hring]
      exact .spun hpc hcq
    · rw [hleft, hring]
      exact .refused hpc hcq hneg
    · rw [hleft, hring]
      exact .popped hpc hcq hres hentry hclose hcall

theorem step_of_frame {s t : Sys} {event : Event} (h : s.step rig event = some t) :
    Step s event t := by
  cases Frame.step_sound h with
  | opened hcall hfd => exact .opened hcall hfd
  | callReturn hid => exact .callReturn hid.1 hid.2
  | poll => exact .poll
  | receivePoll hpc hp hwaits => exact .receivePoll hpc hp hwaits
  | pollReturn hp hstage => exact .pollReturn hp hstage.1 hstage.2
  | quit hpc => exact .quit hpc
  | submit hpc =>
    unfold Frame.submit
    split
    · rename_i hret
      exact .submitFailed hpc hret
    · rename_i hret
      exact .submitted hpc (by omega)
  | ended hended =>
    rcases Option.bind_eq_some_iff.mp hended with ⟨fi, hfi, hresult⟩
    rcases Option.ite_none_right_eq_some.mp hresult with ⟨hreports, hring⟩
    cases hring
    exact .completed hfi hreports
  | pop hpc => exact pop_step hpc

theorem step_sound {s t : Sys} {event : Event} (h : step s event = some t) :
    Step s event t := by
  cases event with
  | receive i memalign =>
    rcases Frame.take_eq_some.mp h with ⟨hpc, r, hr, -, rfl⟩
    exact receive_step hpc hr
  | readFile | writeFile | callReturn | poll | receivePoll | pollReturn | quit | submit | complete
  | pop => exact step_of_frame h

theorem receivePoll_eq (s : Sys) (i : Nat) (p : PollCall) :
    (s.receivePoll i p).polls = s.polls.set i { p with received := true } ∧
      (s.receivePoll i p).ring = s.ring := by
  unfold Frame.receivePoll
  dsimp only
  split <;> exact ⟨rfl, rfl⟩

theorem log_grows {s t : Sys} {event : Event} (h : Step s event t) :
    ∃ more, t.ring.log = s.ring.log ++ more := by
  cases h with
  | pushFailed | submitFailed => exact ⟨_, rfl⟩
  | @receivePoll i p hpc hp hwaits =>
    rw [(receivePoll_eq s i p).2]
    exact ⟨[], (List.append_nil _).symm⟩
  | spun hpc hcq =>
    rw [resumed_ring]
    exact ⟨_, rfl⟩
  | refused hpc hcq hneg =>
    rw [resumed_ring]
    exact ⟨_, rfl⟩
  | popped hpc hcq hres hentry hclose hcall =>
    rw [resumed_ring]
    exact ⟨_, rfl⟩
  | _ => exact ⟨[], (List.append_nil _).symm⟩

theorem received_grows {s t : Sys} {event : Event} (h : Step s event t) :
    ∃ more, t.received = s.received ++ more := by
  cases h with
  | pushFaulted | pushFailed | pushed => exact ⟨_, rfl⟩
  | @receivePoll i p hpc hp hwaits =>
    refine ⟨[], ?_⟩
    unfold Frame.receivePoll
    dsimp only
    split <;> simp
  | spun | refused | popped =>
    rw [resumed_received]
    exact ⟨[], (List.append_nil _).symm⟩
  | _ => exact ⟨[], (List.append_nil _).symm⟩

def reads (first count : Nat) : List Event :=
  (List.range count).flatMap fun i => [.readFile (first + i) 3, .receive 0 fun _ => true]

end IoWrapper.FileRing.Loop
