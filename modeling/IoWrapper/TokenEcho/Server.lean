import IoWrapper.Core.Machine
import IoWrapper.Core.Rings
import IoWrapper.Core.Tables

/-! `rust-iouring-server` with the kernel it runs on. What the server waits for
on a connection is a token, and `user_data` is the number of the token. Entries
go to the local end of the submission queue, or to a backlog when that is full;
the kernel gets what has been published, and completes it in any order. -/
namespace IoWrapper.TokenEcho.Server
open Core.Machine Core.Rings Core.Tables

/-- The size asked for in `IoUring::new`. -/
def ringEntries : Nat := 4096
def bufferLen : Nat := 2048
def acceptSlots : Nat := 3

inductive Token where
  | accept
  | poll (fd : Nat)
  | read (fd bufIndex : Nat)
  | write (fd bufIndex offset len : Nat)
deriving DecidableEq

inductive Op where
  | accept (fd : Nat)
  | pollAdd (fd : Nat)
  | recv (fd bufIndex len : Nat)
  | send (fd bufIndex len : Nat)
  | write (fd bufIndex offset len : Nat)
deriving DecidableEq

structure Entry where
  op : Op
  userData : Nat
deriving DecidableEq

/-- A completion, with the entry it answers; the server sees the `user_data`. -/
structure Cqe where
  entry : Entry
  result : Int
deriving DecidableEq

def Cqe.userData (cqe : Cqe) : Nat := cqe.entry.userData

section Fields

def Token.fd : Token → Option Nat
  | .accept => none
  | .poll fd | .read fd _ | .write fd _ _ _ => some fd

def Token.buffer : Token → Option Nat
  | .read _ bufIndex | .write _ bufIndex _ _ => some bufIndex
  | .accept | .poll _ => none

def Token.isConnection (token : Token) : Nat := if token = .accept then 0 else 1

def Token.on (fd : Nat) (token : Token) : Nat := if token.fd = some fd then 1 else 0

def Token.holds (b : Nat) (token : Token) : Nat := if token.buffer = some b then 1 else 0

def Op.fd : Op → Nat
  | .accept fd | .pollAdd fd | .recv fd _ _ | .send fd _ _ | .write fd _ _ _ => fd

def Op.buffer : Op → Option Nat
  | .recv _ bufIndex _ | .send _ bufIndex _ | .write _ bufIndex _ _ => some bufIndex
  | .accept _ | .pollAdd _ => none

-- Where in its buffer an operation writes from, and how many bytes.
def Op.offered : Op → Option (Nat × Nat)
  | .send _ _ len => some (0, len)
  | .write _ _ offset len => some (offset, len)
  | .accept _ | .pollAdd _ | .recv _ _ _ => none

-- The descriptor that new bytes are waited for on.
def Op.waitsFor : Op → Option Nat
  | .pollAdd fd | .recv fd _ _ => some fd
  | .accept _ | .send .. | .write .. => none

-- The completion has accepted a connection with this descriptor.
def Cqe.opens (fd : Nat) (cqe : Cqe) : Bool :=
  match cqe.entry.op with
  | .accept _ => cqe.result = fd
  | .pollAdd _ | .recv .. | .send .. | .write .. => false

end Fields

abbrev Sq := SubmissionQueue Entry ringEntries

structure AcceptCount where
  entry : Entry
  count : Nat
deriving DecidableEq

def AcceptCount.new (fd token count : Nat) : AcceptCount := ⟨⟨.accept fd, token⟩, count⟩

def AcceptCount.pushTo (accept : AcceptCount) (sq : Sq) : AcceptCount × Sq :=
  let pushed := SubmissionQueue.pushTimes accept.entry accept.count sq
  ({ accept with count := pushed.1 }, pushed.2.sync)

/-- What the `Token::Write` branch makes of a token when bytes have been written:
the buffer it returns to the pool, the next token and the next operation. -/
def afterWrite (fd bufIndex offset len writeLen : Nat) : Option Nat × Token × Op :=
  if len ≤ offset + writeLen then (some bufIndex, .poll fd, .pollAdd fd)
  else
    let offset := offset + writeLen
    let len := len - offset
    (none, .write fd bufIndex offset len, .write fd bufIndex offset len)

inductive SubmitResult where
  | ok
  | ebusy
  | err (errno : Int)
deriving DecidableEq

inductive Pc where
  | submitAndWait
  | waiting
  | cleanBacklog
  | pushAccepts
  | completions
  | returned (errno : Int)
  | panicked
deriving DecidableEq

/-- The state of the server and the kernel, with notes of every entry built, of
those handed to the kernel, and of those that the backlog loop has dropped. -/
structure State where
  accept : AcceptCount
  sq : Sq
  backlog : List Entry
  bufpool : List Nat
  bufAlloc : List Nat
  tokenAlloc : Table Token
  inflight : List Entry
  cq : CompletionQueue Cqe
  closed : List Nat
  errors : List (Option Token × Int)
  built : List Entry
  handed : List Entry
  dropped : List Entry
  pc : Pc

/-- The first lines of `main`, up to the first `push_to`. -/
def State.init (listenFd : Nat) : State :=
  let accept := AcceptCount.new listenFd 0 acceptSlots
  let pushed := accept.pushTo (SubmissionQueue.empty Entry ringEntries)
  { accept := pushed.1
    sq := pushed.2
    backlog := []
    bufpool := []
    bufAlloc := []
    tokenAlloc := AList.singleton 0 Token.accept
    inflight := []
    cq := CompletionQueue.empty Cqe
    closed := []
    errors := []
    built := List.replicate acceptSlots accept.entry
    handed := []
    dropped := []
    pc := .submitAndWait }

/-- Steps of the server, with the results of its system calls and the number that
a slab gives it; and the completion of what is in flight. -/
inductive Event where
  | submitAndWait (result : SubmitResult)
  | wake
  | cleanBacklog (result : SubmitResult)
  | pushAccepts
  | handle (key : Nat)
  | endPass
  | complete (i : Nat) (result : Int)
deriving DecidableEq

def State.submit (s : State) : State :=
  { s with
    sq := s.sq.submit
    inflight := s.inflight ++ s.sq.published
    handed := s.handed ++ s.sq.published }

def State.sync (s : State) : State := { s with sq := s.sq.sync }

def State.enqueue (s : State) (entry : Entry) : State :=
  match s.sq.push entry with
  | some sq => { s with sq := sq, built := s.built ++ [entry] }
  | none => { s with backlog := s.backlog ++ [entry], built := s.built ++ [entry] }

@[simp] theorem enqueue_accept (s : State) (entry : Entry) :
    (s.enqueue entry).accept = s.accept := by
  unfold State.enqueue
  split <;> rfl

@[simp] theorem enqueue_tokenAlloc (s : State) (entry : Entry) :
    (s.enqueue entry).tokenAlloc = s.tokenAlloc := by
  unfold State.enqueue
  split <;> rfl

@[simp] theorem enqueue_bufpool (s : State) (entry : Entry) :
    (s.enqueue entry).bufpool = s.bufpool := by
  unfold State.enqueue
  split <;> rfl

@[simp] theorem enqueue_bufAlloc (s : State) (entry : Entry) :
    (s.enqueue entry).bufAlloc = s.bufAlloc := by
  unfold State.enqueue
  split <;> rfl

@[simp] theorem enqueue_built (s : State) (entry : Entry) :
    (s.enqueue entry).built = s.built ++ [entry] := by
  unfold State.enqueue
  split <;> rfl

@[simp] theorem enqueue_dropped (s : State) (entry : Entry) :
    (s.enqueue entry).dropped = s.dropped := by
  unfold State.enqueue
  split <;> rfl

/-- The rest of a round of the backlog loop, after the check for a full queue. -/
def State.refill (s : State) : State :=
  match s.sync.backlog with
  | entry :: rest =>
    match s.sync.sq.push entry with
    | some sq => { s.sync with sq := sq, backlog := rest }
    | none => { s.sync with backlog := rest, dropped := s.dropped ++ [entry] }
  | [] => { s.sync with pc := .pushAccepts }

def State.clean (s : State) (result : SubmitResult) : State :=
  if s.sq.isFull then
    match result with
    | .ok => s.submit.refill
    | .ebusy => { s with pc := .pushAccepts }
    | .err errno => { s with pc := .returned errno }
  else s.refill

def State.accepts (s : State) : State :=
  let pushed := s.accept.pushTo s.sq
  { s with
    accept := pushed.1
    sq := pushed.2
    built := s.built ++ List.replicate (s.accept.count - pushed.1.count) s.accept.entry
    pc := .completions }

/-- A buffer from the pool, or a new one at the number that the slab gives. -/
def State.takeBuffer (s : State) (key : Nat) : Option (Nat × State) :=
  match s.bufpool with
  | bufIndex :: rest => some (bufIndex, { s with bufpool := rest })
  | [] => if key ∈ s.bufAlloc then none else some (key, { s with bufAlloc := s.bufAlloc ++ [key] })

def State.setToken (s : State) (tokenIndex : Nat) (token : Token) : State :=
  { s with tokenAlloc := s.tokenAlloc.insert tokenIndex token }

/-- The body of the completion loop. There is no next state if the slab would give
a number that is in use. -/
def State.handled (s : State) (cqe : Cqe) (key : Nat) : Option State :=
  let ret := cqe.result
  let tokenIndex := cqe.userData
  if ret < 0 then
    some { s with errors := s.errors ++ [(s.tokenAlloc.lookup tokenIndex, -ret)] }
  else match s.tokenAlloc.lookup tokenIndex with
    | none => some { s with pc := .panicked }
    | some .accept =>
      let fd := ret.toNat
      if key ∈ s.tokenAlloc then none
      else some (({ s with accept := { s.accept with count := s.accept.count + 1 } }.setToken
        key (.poll fd)).enqueue ⟨.pollAdd fd, key⟩)
    | some (.poll fd) =>
      (s.takeBuffer key).map fun taken =>
        (taken.2.setToken tokenIndex (.read fd taken.1)).enqueue
          ⟨.recv fd taken.1 bufferLen, tokenIndex⟩
    | some (.read fd bufIndex) =>
      if ret = 0 then
        some { s with
          bufpool := bufIndex :: s.bufpool
          tokenAlloc := s.tokenAlloc.erase tokenIndex
          closed := s.closed ++ [fd] }
      else
        let len := ret.toNat
        some ((s.setToken tokenIndex (.write fd bufIndex 0 len)).enqueue
          ⟨.send fd bufIndex len, tokenIndex⟩)
    | some (.write fd bufIndex offset len) =>
      let next := afterWrite fd bufIndex offset len ret.toNat
      some (({ s with bufpool := next.1.toList ++ s.bufpool }.setToken
        tokenIndex next.2.1).enqueue ⟨next.2.2, tokenIndex⟩)

def step (s : State) : Event → Option State
  | .submitAndWait result =>
    if s.pc = .submitAndWait then
      match result with
      | .ok => some { s.submit with pc := .waiting }
      | .ebusy => some { s with cq := s.cq.sync, pc := .cleanBacklog }
      | .err errno => some { s with pc := .returned errno }
    else none
  | .wake =>
    if s.pc = .waiting ∧ s.cq.outstanding ≠ [] then
      some { s with cq := s.cq.sync, pc := .cleanBacklog }
    else none
  | .cleanBacklog result => if s.pc = .cleanBacklog then some (s.clean result) else none
  | .pushAccepts => if s.pc = .pushAccepts then some s.accepts else none
  | .handle key =>
    match s.pc, s.cq.visible with
    | .completions, cqe :: rest => { s with cq := s.cq.next cqe rest }.handled cqe key
    | _, _ => none
  | .endPass =>
    if s.pc = .completions ∧ s.cq.visible = [] then some { s with pc := .submitAndWait } else none
  | .complete i result =>
    match s.inflight[i]? with
    | some entry =>
      some { s with
        inflight := s.inflight.eraseIdx i
        cq := s.cq.post ⟨entry, result⟩ }
    | none => none

def State.settled (s : State) : State := if s.sq.isFull then s.submit.sync else s.sync

@[simp] theorem settled_accept (s : State) : s.settled.accept = s.accept := by
  unfold State.settled
  split <;> rfl

@[simp] theorem settled_tokenAlloc (s : State) : s.settled.tokenAlloc = s.tokenAlloc := by
  unfold State.settled
  split <;> rfl

@[simp] theorem settled_bufpool (s : State) : s.settled.bufpool = s.bufpool := by
  unfold State.settled
  split <;> rfl

@[simp] theorem settled_bufAlloc (s : State) : s.settled.bufAlloc = s.bufAlloc := by
  unfold State.settled
  split <;> rfl

@[simp] theorem settled_backlog (s : State) : s.settled.backlog = s.backlog := by
  unfold State.settled
  split <;> rfl

@[simp] theorem settled_built (s : State) : s.settled.built = s.built := by
  unfold State.settled
  split <;> rfl

@[simp] theorem settled_dropped (s : State) : s.settled.dropped = s.dropped := by
  unfold State.settled
  split <;> rfl

@[simp] theorem settled_pc (s : State) : s.settled.pc = s.pc := by
  unfold State.settled
  split <;> rfl

@[simp] theorem settled_cq (s : State) : s.settled.cq = s.cq := by
  unfold State.settled
  split <;> rfl

@[simp] theorem settled_unpublished (s : State) : s.settled.sq.unpublished = [] := by
  unfold State.settled
  split <;> rfl

def State.walked (s : State) (cqe : Cqe) (rest : List Cqe) : State :=
  { s with cq := s.cq.next cqe rest }

inductive Takes (s : State) : Nat → List Nat → List Nat → Prop where
  | pooled {bufIndex : Nat} {rest : List Nat} (h : s.bufpool = bufIndex :: rest) :
      Takes s bufIndex rest s.bufAlloc
  | fresh {bufIndex : Nat} (h : s.bufpool = []) (hnew : bufIndex ∉ s.bufAlloc) :
      Takes s bufIndex [] (s.bufAlloc ++ [bufIndex])

inductive Step (s : State) : Event → State → Prop where
  | submitted (hpc : s.pc = .submitAndWait) :
      Step s (.submitAndWait .ok) { s.submit with pc := .waiting }
  | busy (hpc : s.pc = .submitAndWait) :
      Step s (.submitAndWait .ebusy) { s with cq := s.cq.sync, pc := .cleanBacklog }
  | failed {event : Event} {errno : Int}
      (hpc : s.pc = .submitAndWait ∨ s.pc = .cleanBacklog) :
      Step s event { s with pc := .returned errno }
  | woke (hpc : s.pc = .waiting) (hcq : s.cq.outstanding ≠ []) :
      Step s .wake { s with cq := s.cq.sync, pc := .cleanBacklog }
  | cleanBusy (hpc : s.pc = .cleanBacklog) (hfull : s.sq.isFull) :
      Step s (.cleanBacklog .ebusy) { s with pc := .pushAccepts }
  | cleaned {result : SubmitResult} (hpc : s.pc = .cleanBacklog) (hbacklog : s.backlog = []) :
      Step s (.cleanBacklog result) { s.settled with pc := .pushAccepts }
  | refilled {result : SubmitResult} {entry : Entry} {rest : List Entry} {sq : Sq}
      (hpc : s.pc = .cleanBacklog) (hbacklog : s.backlog = entry :: rest)
      (hpush : s.settled.sq.push entry = some sq) :
      Step s (.cleanBacklog result) { s.settled with sq := sq, backlog := rest }
  | dropped {result : SubmitResult} {entry : Entry} {rest : List Entry}
      (hpc : s.pc = .cleanBacklog) (hbacklog : s.backlog = entry :: rest)
      (hpush : s.settled.sq.push entry = none) :
      Step s (.cleanBacklog result)
        { s.settled with backlog := rest, dropped := s.dropped ++ [entry] }
  | accepts (hpc : s.pc = .pushAccepts) : Step s .pushAccepts s.accepts
  | handledError {key : Nat} {cqe : Cqe} {rest : List Cqe} (hpc : s.pc = .completions)
      (hcq : s.cq.visible = cqe :: rest) (hret : cqe.result < 0) :
      Step s (.handle key) { s.walked cqe rest with
        errors := s.errors ++ [(s.tokenAlloc.lookup cqe.userData, -cqe.result)] }
  | panicked {key : Nat} {cqe : Cqe} {rest : List Cqe} (hpc : s.pc = .completions)
      (hcq : s.cq.visible = cqe :: rest) (hret : 0 ≤ cqe.result)
      (htoken : s.tokenAlloc.lookup cqe.userData = none) :
      Step s (.handle key) { s.walked cqe rest with pc := .panicked }
  | handledAccept {key : Nat} {cqe : Cqe} {rest : List Cqe} (hpc : s.pc = .completions)
      (hcq : s.cq.visible = cqe :: rest) (hret : 0 ≤ cqe.result)
      (htoken : s.tokenAlloc.lookup cqe.userData = some .accept) (hkey : key ∉ s.tokenAlloc) :
      Step s (.handle key)
        (({ s.walked cqe rest with
          accept := { s.accept with count := s.accept.count + 1 } }.setToken
            key (.poll cqe.result.toNat)).enqueue ⟨.pollAdd cqe.result.toNat, key⟩)
  | handledPoll {key fd bufIndex : Nat} {cqe : Cqe} {rest : List Cqe} {pool alloc : List Nat}
      (hpc : s.pc = .completions) (hcq : s.cq.visible = cqe :: rest) (hret : 0 ≤ cqe.result)
      (htoken : s.tokenAlloc.lookup cqe.userData = some (.poll fd))
      (htakes : Takes s bufIndex pool alloc) :
      Step s (.handle key)
        (({ s.walked cqe rest with bufpool := pool, bufAlloc := alloc }.setToken
          cqe.userData (.read fd bufIndex)).enqueue ⟨.recv fd bufIndex bufferLen, cqe.userData⟩)
  | handledHangup {key fd bufIndex : Nat} {cqe : Cqe} {rest : List Cqe}
      (hpc : s.pc = .completions) (hcq : s.cq.visible = cqe :: rest) (hret : cqe.result = 0)
      (htoken : s.tokenAlloc.lookup cqe.userData = some (.read fd bufIndex)) :
      Step s (.handle key) { s.walked cqe rest with
        bufpool := bufIndex :: s.bufpool
        tokenAlloc := s.tokenAlloc.erase cqe.userData
        closed := s.closed ++ [fd] }
  | handledRead {key fd bufIndex : Nat} {cqe : Cqe} {rest : List Cqe}
      (hpc : s.pc = .completions) (hcq : s.cq.visible = cqe :: rest) (hret : 0 < cqe.result)
      (htoken : s.tokenAlloc.lookup cqe.userData = some (.read fd bufIndex)) :
      Step s (.handle key)
        (((s.walked cqe rest).setToken cqe.userData
          (.write fd bufIndex 0 cqe.result.toNat)).enqueue
            ⟨.send fd bufIndex cqe.result.toNat, cqe.userData⟩)
  | handledWrite {key fd bufIndex offset len : Nat} {cqe : Cqe} {rest : List Cqe}
      {returned : Option Nat} {token : Token} {op : Op} (hpc : s.pc = .completions)
      (hcq : s.cq.visible = cqe :: rest) (hret : 0 ≤ cqe.result)
      (htoken : s.tokenAlloc.lookup cqe.userData = some (.write fd bufIndex offset len))
      (hnext : afterWrite fd bufIndex offset len cqe.result.toNat = (returned, token, op)) :
      Step s (.handle key)
        (({ s.walked cqe rest with bufpool := returned.toList ++ s.bufpool }.setToken
          cqe.userData token).enqueue ⟨op, cqe.userData⟩)
  | passEnded (hpc : s.pc = .completions) (hcq : s.cq.visible = []) :
      Step s .endPass { s with pc := .submitAndWait }
  | completed {i : Nat} {entry : Entry} {result : Int} (hentry : s.inflight[i]? = some entry) :
      Step s (.complete i result) { s with
        inflight := s.inflight.eraseIdx i
        cq := s.cq.post ⟨entry, result⟩ }

theorem takeBuffer_takes {s u : State} {key bufIndex : Nat}
    (h : s.takeBuffer key = some (bufIndex, u)) :
    ∃ pool alloc, Takes s bufIndex pool alloc ∧
      u = { s with bufpool := pool, bufAlloc := alloc } := by
  unfold State.takeBuffer at h
  split at h
  · rename_i own rest hpool
    cases h
    exact ⟨rest, s.bufAlloc, .pooled hpool, rfl⟩
  · rename_i hpool
    split at h
    · cases h
    · rename_i hnew
      cases h
      refine ⟨[], s.bufAlloc ++ [key], .fresh hpool hnew, ?_⟩
      rw [← hpool]

theorem handled_step {s t : State} {cqe : Cqe} {rest : List Cqe} {key : Nat}
    (hpc : s.pc = .completions) (hcq : s.cq.visible = cqe :: rest)
    (h : (s.walked cqe rest).handled cqe key = some t) : Step s (.handle key) t := by
  unfold State.handled at h
  simp only at h
  split at h
  · rename_i hret
    cases h
    exact .handledError hpc hcq hret
  · rename_i hret
    have hret : 0 ≤ cqe.result := by omega
    split at h
    · rename_i htoken
      cases h
      exact .panicked hpc hcq hret htoken
    · rename_i htoken
      split at h
      · cases h
      · rename_i hkey
        cases h
        exact .handledAccept hpc hcq hret htoken hkey
    · rename_i fd htoken
      rcases Option.map_eq_some_iff.mp h with ⟨⟨bufIndex, u⟩, htake, ht⟩
      rcases takeBuffer_takes htake with ⟨pool, alloc, htakes, hu⟩
      rw [← ht, hu]
      cases htakes with
      | pooled hpool => exact .handledPoll hpc hcq hret htoken (.pooled hpool)
      | fresh hpool hnew => exact .handledPoll hpc hcq hret htoken (.fresh hpool hnew)
    · rename_i fd bufIndex htoken
      split at h
      · rename_i hzero
        cases h
        exact .handledHangup hpc hcq hzero htoken
      · rename_i hzero
        cases h
        exact .handledRead hpc hcq (by omega) htoken
    · rename_i fd bufIndex offset len htoken
      cases h
      exact .handledWrite hpc hcq hret htoken rfl

theorem refill_step {s u : State} {result : SubmitResult} (hpc : s.pc = .cleanBacklog)
    (hu : u.sync = s.settled) (hbacklog : u.backlog = s.backlog)
    (hdropped : u.dropped = s.dropped) : Step s (.cleanBacklog result) u.refill := by
  unfold State.refill
  have hsame : u.sync.backlog = s.backlog := hbacklog
  rw [hsame, hu, hdropped]
  split
  · rename_i entry rest hcons
    split
    · rename_i sq hpush
      exact .refilled hpc hcons hpush
    · rename_i hpush
      exact .dropped hpc hcons hpush
  · rename_i hnil
    exact .cleaned hpc hnil

theorem clean_step {s : State} (hpc : s.pc = .cleanBacklog) (result : SubmitResult) :
    Step s (.cleanBacklog result) (s.clean result) := by
  unfold State.clean
  split
  · rename_i hfull
    cases result with
    | ok =>
      refine refill_step (u := s.submit) hpc ?_ rfl rfl
      simp [State.settled, hfull]
    | ebusy => exact .cleanBusy hpc hfull
    | err errno => exact .failed (Or.inr hpc)
  · rename_i hfull
    refine refill_step hpc ?_ rfl rfl
    simp [State.settled, hfull]

theorem step_sound {s t : State} {event : Event} (h : step s event = some t) :
    Step s event t := by
  cases event with
  | submitAndWait result =>
    simp only [step] at h
    split at h
    · rename_i hpc
      cases result with
      | ok =>
        cases h
        exact .submitted hpc
      | ebusy =>
        cases h
        exact .busy hpc
      | err errno =>
        cases h
        exact .failed (Or.inl hpc)
    · cases h
  | wake =>
    simp only [step, Option.ite_none_right_eq_some, Option.some.injEq] at h
    rw [← h.2]
    exact .woke h.1.1 h.1.2
  | cleanBacklog result =>
    simp only [step, Option.ite_none_right_eq_some, Option.some.injEq] at h
    rw [← h.2]
    exact clean_step h.1 result
  | pushAccepts =>
    simp only [step, Option.ite_none_right_eq_some, Option.some.injEq] at h
    rw [← h.2]
    exact .accepts h.1
  | handle key =>
    simp only [step] at h
    split at h
    · rename_i cqe rest hpc hcq
      exact handled_step hpc hcq h
    · cases h
  | endPass =>
    simp only [step, Option.ite_none_right_eq_some, Option.some.injEq] at h
    rw [← h.2]
    exact .passEnded h.1.1 h.1.2
  | complete i result =>
    simp only [step] at h
    split at h
    · rename_i entry hentry
      cases h
      exact .completed hentry
    · cases h

def oneConnect : List Event :=
  [.submitAndWait .ok, .complete 0 5, .wake, .cleanBacklog .ok, .pushAccepts, .handle 1, .endPass]

def oneRead : List Event :=
  oneConnect ++ ([.submitAndWait .ok, .wake, .cleanBacklog .ok, .pushAccepts, .endPass,
    .submitAndWait .ok, .complete 2 1, .wake, .cleanBacklog .ok, .pushAccepts,
    .handle 0] : List Event)

end IoWrapper.TokenEcho.Server
