import Mathlib.Algebra.Group.Int.Defs
import Mathlib.Logic.Function.Basic
import IoWrapper.Core.Dispatch
import IoWrapper.Core.Tables
import IoWrapper.Core.Traffic
import IoWrapper.GoEcho.Operations

/-! `golang-epoll-eventfd-iouring-server`: the kernel signals an eventfd for each completion,
one goroutine waits for it with epoll, a second one takes completions from the ring, and the
callbacks run there or in the workers of the dispatch channels. Every callback submits the
operations that it produces. -/
namespace IoWrapper.EventfdEcho.Server
open Core.Machine Core.Tables Core.Traffic GoEcho.Operations

def dispatchChSize : Nat := 1024

inductive Callback where
  | accpetCb
  | readCb
  | writeCb
  | closeCb
deriving DecidableEq

/-- `res` is that of the completion, once it has been taken. -/
structure EventInfo extends GoEcho.Operations.EventInfo where
  cb : Option Callback
  res : Int
deriving DecidableEq

structure Outcome where
  requests : List Request
  err : Option String

def accpetCb (info : EventInfo) : Outcome :=
  let connFd := info.res
  if connFd < 0 then ⟨[], some s!"[error] connect failed connFd {connFd}"⟩
  else ⟨[.accept info.lfd, .recv connFd.toNat], none⟩

def readCb (info : EventInfo) : Outcome :=
  let readBytesLen := info.res
  let cfd := info.cfd
  if readBytesLen ≤ 0 then
    ⟨if readBytesLen ≠ -ebadf then [.close cfd] else [],
      some s!"[error] read errNO {readBytesLen} connectFd {cfd}"⟩
  else ⟨[.send cfd readBytesLen.toNat], none⟩

def writeCb (info : EventInfo) : Outcome := ⟨[.recv info.cfd], none⟩

def closeCb (_info : EventInfo) : Outcome := ⟨[], none⟩

def Callback.call : Callback → EventInfo → Outcome
  | .accpetCb => Server.accpetCb
  | .readCb => Server.readCb
  | .writeCb => Server.writeCb
  | .closeCb => Server.closeCb

/-- `info.cb(info)`. -/
def EventInfo.requests (info : EventInfo) : List Request :=
  match info.cb with
  | some cb => (cb.call info).requests
  | none => []

/-- The callback that goes with a call: each of the four functions is always called with
the same one. -/
def callback : Request → Callback
  | .accept _ => .accpetCb
  | .recv _ => .readCb
  | .send .. => .writeCb
  | .close _ => .closeCb

def connInfo (prepared : Prepared) : EventInfo :=
  { prepared.info with cb := some (callback prepared.op.request), res := 0 }

def dispatchFd (event : EventInfo) : Nat := if event.lfd ≤ 0 then event.cfd else event.lfd

/-- The index of the channel in `dispatch`. -/
def index (n : Nat) [NeZero n] (event : EventInfo) : Fin n := Fin.ofNat n (dispatchFd event)

abbrev Goroutine (n : Nat) := Option (Option (Fin n))

/-- What the goroutine that holds `submitLock` has done: it has an entry, it has put the
`EventInfo` in the map, or its submission has failed. -/
inductive Phase where
  | prepared (prepared : Prepared)
  | registered (userData : Nat)
  | failed (userData : Nat)
deriving DecidableEq

/-- `waitIouringEventFdEvents` is in `EpollWait`, or it is about to send on the channel. -/
inductive EpollPc where
  | wait
  | send
deriving DecidableEq

/-- `subCqeEventInfo` is in its select, it has received a signal, it has an event to
dispatch or to run, or it has returned. -/
inductive SubPc where
  | select
  | peek
  | deliver
  | stopped
deriving DecidableEq

/-- `epollEvent` is the event that `EpollWait` has not yet reported. It is noted which
completions have been posted, which of them while an event was pending already, and which
were not in the map. -/
structure State (n : Nat) where
  ring : IoRing Sqe
  mapEvent : Table EventInfo
  submitLock : Option (Goroutine n × Phase)
  epollEvent : Bool
  epoll : EpollPc
  signCh : Nat
  sub : SubPc
  pool : Core.Dispatch.State EventInfo (Fin n)
  todo : Goroutine n → List Request
  panic : Option Panic
  posted : List Cqe
  coalesced : List Cqe
  missed : List Cqe

def State.init (n lfd : Nat) : State n :=
  { ring := .empty Sqe
    mapEvent := ∅
    submitLock := none
    epollEvent := false
    epoll := .wait
    signCh := 0
    sub := .select
    pool := .init EventInfo (Fin n)
    todo := Function.update (fun _ => []) none [.accept lfd]
    panic := none
    posted := []
    coalesced := []
    missed := [] }

inductive Event (n : Nat) where
  | prepare (g : Goroutine n)
  | register (userData : Nat)
  | submit (count : Nat)
  | submitError (count : Nat)
  | unregister
  | complete (i : Nat) (res : Int)
  | report
  | epollError
  | signal
  | receiveSignal
  | stop
  | peek
  | put
  | receive (i : Fin n)
  | finish (runner : Option (Fin n))
deriving DecidableEq

section Steps

variable {n : Nat} [NeZero n]

/-- A call of one of the four functions, up to its call of `submit`. -/
def State.prepare (s : State n) (g : Goroutine n) : Option (State n) :=
  match s.submitLock, s.todo g with
  | none, request :: rest =>
    match request.prepare 1 with
    | .error panic => some { s with panic := some panic }
    | .ok prepared =>
      if s.ring.sq.length < entries then
        some { s with
          submitLock := some (g, .prepared prepared)
          todo := Function.update s.todo g rest }
      else some { s with panic := some .nilSqe }
  | _, _ => none

/-- The entry counts as queued once it has its `user_data`, which is an address that is not
in the map. -/
def State.registered (s : State n) (g : Goroutine n) (prepared : Prepared) (userData : Nat) :
    State n :=
  { s with
    ring := s.ring.push ⟨prepared.op, userData⟩
    mapEvent := s.mapEvent.insert userData (connInfo prepared)
    submitLock := some (g, .registered userData) }

def State.completed (s : State n) (i : Nat) (cqe : Cqe) : State n :=
  { s with
    ring := s.ring.complete i cqe
    epollEvent := true
    posted := s.posted ++ [cqe]
    coalesced := if s.epollEvent then s.coalesced ++ [cqe] else s.coalesced }

def State.delivered (syncCb : Bool) (s : State n) (cqe : Cqe) (info : EventInfo)
    (pool : Core.Dispatch.State EventInfo (Fin n)) : State n :=
  { s with
    ring := s.ring.seen
    mapEvent := s.mapEvent.erase cqe.entry.userData
    sub := .deliver
    pool := pool
    todo := if syncCb then Function.update s.todo (some none) info.requests else s.todo }

/-- From `PeekCqe` to `SeenCqe`. -/
def State.peek (syncCb : Bool) (s : State n) : Option (State n) :=
  match s.ring.cq with
  | [] => some { s with sub := .select }
  | cqe :: _ =>
    match s.mapEvent.lookup cqe.entry.userData with
    | none => some { s with
        ring := s.ring.seen
        sub := .select
        missed := s.missed ++ [cqe] }
    | some info =>
      if info.cb = none ∨ info.etype = .unknow then
        some { s with ring := s.ring.seen, sub := .select }
      else
        (Core.Dispatch.step syncCb dispatchChSize (index n) s.pool
          (.take { info with res := cqe.res })).map
            (s.delivered syncCb cqe { info with res := cqe.res })

def act (syncCb : Bool) (s : State n) : Event n → Option (State n)
  | .prepare g => s.prepare g
  | .register userData =>
    match s.submitLock with
    | some (g, .prepared prepared) =>
      if userData ∈ s.mapEvent then none else some (s.registered g prepared userData)
    | _ => none
  | .submit count =>
    match s.submitLock with
    | some (_, .registered _) => some { s with ring := s.ring.submit count, submitLock := none }
    | _ => none
  | .submitError count =>
    match s.submitLock with
    | some (g, .registered userData) =>
      some { s with ring := s.ring.submit count, submitLock := some (g, .failed userData) }
    | _ => none
  | .unregister =>
    match s.submitLock with
    | some (_, .failed userData) =>
      some { s with mapEvent := s.mapEvent.erase userData, submitLock := none }
    | _ => none
  | .complete i res =>
    match s.ring.inflight[i]? with
    | some sqe =>
      if -2 ^ 31 ≤ res ∧ res < 2 ^ 31 then some (s.completed i ⟨sqe, res⟩) else none
    | none => none
  | .report =>
    if s.epoll = .wait ∧ s.epollEvent then some { s with epollEvent := false, epoll := .send }
    else none
  | .epollError => if s.epoll = .wait then some s else none
  | .signal =>
    if s.epoll = .send ∧ s.signCh < 1 then some { s with signCh := s.signCh + 1, epoll := .wait }
    else none
  | .receiveSignal =>
    if s.sub = .select ∧ 0 < s.signCh then some { s with signCh := s.signCh - 1, sub := .peek }
    else none
  | .stop => if s.sub = .select then some { s with sub := .stopped } else none
  | .peek => if s.sub = .peek then s.peek syncCb else none
  | .put =>
    if s.sub = .deliver then
      (Core.Dispatch.step syncCb dispatchChSize (index n) s.pool .put).map fun pool =>
        { s with pool := pool, sub := .select }
    else none
  | .receive i =>
    match s.pool.queues i with
    | info :: _ =>
      (Core.Dispatch.step syncCb dispatchChSize (index n) s.pool (.receive i)).map fun pool =>
        { s with pool := pool, todo := Function.update s.todo (some (some i)) info.requests }
    | [] => none
  | .finish runner =>
    if s.todo (some runner) = [] ∧ s.submitLock.map Prod.fst ≠ some (some runner) ∧
        (runner = none → s.sub = .deliver) then
      (Core.Dispatch.step syncCb dispatchChSize (index n) s.pool (.finish runner)).map fun pool =>
        { s with pool := pool, sub := if runner = none then .select else s.sub }
    else none

def step (syncCb : Bool) (s : State n) (event : Event n) : Option (State n) :=
  if s.panic = none then act syncCb s event else none

inductive Step (syncCb : Bool) (s : State n) : Event n → State n → Prop where
  | panicked {g : Goroutine n} {request : Request} {rest : List Request} {panic : Panic}
      (htodo : s.todo g = request :: rest)
      (hstuck : request.prepare 1 = .error panic ∨ entries ≤ s.ring.sq.length) :
      Step syncCb s (.prepare g) { s with panic := some panic }
  | prepared {g : Goroutine n} {request : Request} {rest : List Request} {prepared : Prepared}
      (hlock : s.submitLock = none) (htodo : s.todo g = request :: rest)
      (hprepare : request.prepare 1 = .ok prepared) (hroom : s.ring.sq.length < entries) :
      Step syncCb s (.prepare g) { s with
        submitLock := some (g, .prepared prepared)
        todo := Function.update s.todo g rest }
  | registered {g : Goroutine n} {prepared : Prepared} {userData : Nat}
      (hlock : s.submitLock = some (g, .prepared prepared)) (hnew : userData ∉ s.mapEvent) :
      Step syncCb s (.register userData) (s.registered g prepared userData)
  | submitted {g : Goroutine n} {userData count : Nat}
      (hlock : s.submitLock = some (g, .registered userData)) :
      Step syncCb s (.submit count) { s with ring := s.ring.submit count, submitLock := none }
  | submitFailed {g : Goroutine n} {userData count : Nat}
      (hlock : s.submitLock = some (g, .registered userData)) :
      Step syncCb s (.submitError count)
        { s with ring := s.ring.submit count, submitLock := some (g, .failed userData) }
  | unregistered {g : Goroutine n} {userData : Nat}
      (hlock : s.submitLock = some (g, .failed userData)) :
      Step syncCb s .unregister
        { s with mapEvent := s.mapEvent.erase userData, submitLock := none }
  | completed {i : Nat} {sqe : Sqe} {res : Int} (hsqe : s.ring.inflight[i]? = some sqe) :
      Step syncCb s (.complete i res) (s.completed i ⟨sqe, res⟩)
  | reported (hepoll : s.epoll = .wait) (hevent : s.epollEvent = true) :
      Step syncCb s .report { s with epollEvent := false, epoll := .send }
  | epollFailed : Step syncCb s .epollError s
  | signalled (hepoll : s.epoll = .send) :
      Step syncCb s .signal { s with signCh := s.signCh + 1, epoll := .wait }
  | signalReceived (hsub : s.sub = .select) (hsignal : 0 < s.signCh) :
      Step syncCb s .receiveSignal { s with signCh := s.signCh - 1, sub := .peek }
  | stopped (hsub : s.sub = .select) : Step syncCb s .stop { s with sub := .stopped }
  | peekedNone (hsub : s.sub = .peek) (hcq : s.ring.cq = []) :
      Step syncCb s .peek { s with sub := .select }
  | missed {cqe : Cqe} {rest : List Cqe} (hsub : s.sub = .peek) (hcq : s.ring.cq = cqe :: rest)
      (hlookup : s.mapEvent.lookup cqe.entry.userData = none) :
      Step syncCb s .peek
        { s with ring := s.ring.seen, sub := .select, missed := s.missed ++ [cqe] }
  | unknown {cqe : Cqe} {rest : List Cqe} {info : EventInfo} (hsub : s.sub = .peek)
      (hcq : s.ring.cq = cqe :: rest)
      (hlookup : s.mapEvent.lookup cqe.entry.userData = some info)
      (hinfo : info.cb = none ∨ info.etype = .unknow) :
      Step syncCb s .peek { s with ring := s.ring.seen, sub := .select }
  | delivered {cqe : Cqe} {rest : List Cqe} {info : EventInfo}
      {pool : Core.Dispatch.State EventInfo (Fin n)} (hsub : s.sub = .peek)
      (hcq : s.ring.cq = cqe :: rest)
      (hlookup : s.mapEvent.lookup cqe.entry.userData = some info)
      (hpool : Core.Dispatch.step syncCb dispatchChSize (index n) s.pool
        (.take { info with res := cqe.res }) = some pool) :
      Step syncCb s .peek (s.delivered syncCb cqe { info with res := cqe.res } pool)
  | put {pool : Core.Dispatch.State EventInfo (Fin n)} (hsub : s.sub = .deliver)
      (hpool : Core.Dispatch.step syncCb dispatchChSize (index n) s.pool .put = some pool) :
      Step syncCb s .put { s with pool := pool, sub := .select }
  | received {i : Fin n} {info : EventInfo} {rest : List EventInfo}
      {pool : Core.Dispatch.State EventInfo (Fin n)} (hqueue : s.pool.queues i = info :: rest)
      (hpool : Core.Dispatch.step syncCb dispatchChSize (index n) s.pool (.receive i) = some pool) :
      Step syncCb s (.receive i)
        { s with pool := pool, todo := Function.update s.todo (some (some i)) info.requests }
  | finished {runner : Option (Fin n)} {pool : Core.Dispatch.State EventInfo (Fin n)}
      (htodo : s.todo (some runner) = []) (hsub : runner = none → s.sub = .deliver)
      (hpool : Core.Dispatch.step syncCb dispatchChSize (index n) s.pool (.finish runner) =
        some pool) :
      Step syncCb s (.finish runner)
        { s with pool := pool, sub := if runner = none then .select else s.sub }

variable {syncCb : Bool} {s t : State n}

theorem prepare_sound {g : Goroutine n} (h : s.prepare g = some t) :
    Step syncCb s (.prepare g) t := by
  unfold State.prepare at h
  split at h
  · rename_i request rest hlock htodo
    split at h
    · rename_i panic hprepare
      cases h
      exact .panicked htodo (Or.inl hprepare)
    · rename_i prepared hprepare
      split at h
      · rename_i hroom
        cases h
        exact .prepared hlock htodo hprepare hroom
      · rename_i hfull
        cases h
        exact .panicked htodo (Or.inr (Nat.not_lt.mp hfull))
  · cases h

theorem peek_sound (hsub : s.sub = .peek) (h : s.peek syncCb = some t) :
    Step syncCb s .peek t := by
  unfold State.peek at h
  split at h
  · rename_i hcq
    cases h
    exact .peekedNone hsub hcq
  · rename_i cqe rest hcq
    split at h
    · rename_i hlookup
      cases h
      exact .missed hsub hcq hlookup
    · rename_i info hlookup
      split at h
      · rename_i hinfo
        cases h
        exact .unknown hsub hcq hlookup hinfo
      · rcases Option.map_eq_some_iff.mp h with ⟨pool, hpool, rfl⟩
        exact .delivered hsub hcq hlookup hpool

theorem step_sound {event : Event n} (h : step syncCb s event = some t) :
    Step syncCb s event t := by
  unfold step at h
  have hact := (Option.ite_none_right_eq_some.mp h).2
  cases event with
  | prepare g => exact prepare_sound hact
  | register userData =>
    simp only [act] at hact
    split at hact
    · rename_i g prepared hlock
      split at hact
      · cases hact
      · rename_i hnew
        cases hact
        exact .registered hlock hnew
    · cases hact
  | submit count =>
    simp only [act] at hact
    split at hact
    · rename_i g userData hlock
      cases hact
      exact .submitted hlock
    · cases hact
  | submitError count =>
    simp only [act] at hact
    split at hact
    · rename_i g userData hlock
      cases hact
      exact .submitFailed hlock
    · cases hact
  | unregister =>
    simp only [act] at hact
    split at hact
    · rename_i g userData hlock
      cases hact
      exact .unregistered hlock
    · cases hact
  | complete i res =>
    simp only [act] at hact
    split at hact
    · rename_i sqe hsqe
      cases (Option.ite_none_right_eq_some.mp hact).2
      exact .completed hsqe
    · cases hact
  | report =>
    rcases Option.ite_none_right_eq_some.mp hact with ⟨hguard, hnext⟩
    cases hnext
    exact .reported hguard.1 hguard.2
  | epollError =>
    cases (Option.ite_none_right_eq_some.mp hact).2
    exact .epollFailed
  | signal =>
    rcases Option.ite_none_right_eq_some.mp hact with ⟨hguard, hnext⟩
    cases hnext
    exact .signalled hguard.1
  | receiveSignal =>
    rcases Option.ite_none_right_eq_some.mp hact with ⟨hguard, hnext⟩
    cases hnext
    exact .signalReceived hguard.1 hguard.2
  | stop =>
    rcases Option.ite_none_right_eq_some.mp hact with ⟨hsub, hnext⟩
    cases hnext
    exact .stopped hsub
  | peek =>
    rcases Option.ite_none_right_eq_some.mp hact with ⟨hsub, hnext⟩
    exact peek_sound hsub hnext
  | put =>
    rcases Option.ite_none_right_eq_some.mp hact with ⟨hsub, hnext⟩
    rcases Option.map_eq_some_iff.mp hnext with ⟨pool, hpool, rfl⟩
    exact .put hsub hpool
  | receive i =>
    simp only [act] at hact
    split at hact
    · rename_i info rest hqueue
      rcases Option.map_eq_some_iff.mp hact with ⟨pool, hpool, rfl⟩
      exact .received hqueue hpool
    · cases hact
  | finish runner =>
    rcases Option.ite_none_right_eq_some.mp hact with ⟨hguard, hnext⟩
    rcases Option.map_eq_some_iff.mp hnext with ⟨pool, hpool, rfl⟩
    exact .finished hguard.1 hguard.2.2 hpool

end Steps

def oneConnect : List (Event 2) :=
  [.prepare none, .register 1, .submit 1, .complete 0 5, .report, .signal, .receiveSignal, .peek,
    .put, .receive 1, .prepare (some (some 1)), .register 2, .submit 1,
    .prepare (some (some 1)), .register 3, .submit 1, .finish (some 1)]

end IoWrapper.EventfdEcho.Server
