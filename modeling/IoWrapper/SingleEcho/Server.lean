import Mathlib.Algebra.Group.Int.Defs
import Mathlib.Logic.Function.Basic
import IoWrapper.GoEcho.Operations

/-! `goiouring_single_cqe.go`: one event loop on one ring. The `user_data` of a completion is
taken as a pointer to its `EventInfo`, and nothing else refers to that. -/
namespace IoWrapper.SingleEcho.Server
open Core.Machine Core.Traffic GoEcho.Operations

inductive Pc where
  | created
  | head
  | waiting
  | returned
deriving DecidableEq

/-- `IOurigGoEchoServer`, with a note of the operations that it has queued and the completions
that it has processed, and of whether an `EventInfo` has been put in the place of one that a
pending operation points to. -/
structure State where
  lfd : Nat
  ring : IoRing Sqe
  heap : Nat → EventInfo
  reused : Bool
  pc : Pc
  queued : List Op
  handled : List Cqe
  panic : Option Panic

def State.init (lfd : Nat) : State :=
  { lfd := lfd
    ring := .empty Sqe
    heap := fun _ => ⟨0, 0, .unknow⟩
    reused := false
    pc := .created
    queued := []
    handled := []
    panic := none }

/-- The completion that is being processed is the first in the queue until `SeenCqe`. -/
def State.produced (s : State) (prepared : Prepared) (userData : Nat) : State :=
  { s with
    ring := s.ring.push ⟨prepared.op, userData⟩
    heap := Function.update s.heap userData prepared.info
    reused := s.reused || decide (userData ∈ s.ring.seen.pending.map Sqe.userData)
    queued := s.queued ++ [prepared.op] }

/-- `InitBuffs` is called once, before the loop. -/
def State.produce (s : State) (request : Request) (userData : Nat) : Except Stop State :=
  match request.prepare 1 with
  | .error panic => .error (.panic panic)
  | .ok prepared =>
    if s.ring.sq.length < entries then .ok (s.produced prepared userData)
    else .error (.panic .nilSqe)

def react (lfd : Nat) (eventInfo : EventInfo) (res : Int) : Except Panic (List Request) :=
  match eventInfo.etype with
  | .accept => if res < 0 then .ok [] else .ok [.accept lfd, .recv res.toNat]
  | .read =>
    if res ≤ 0 then
      if res ≠ ebadf then .ok [.close eventInfo.cfd] else .ok []
    else .ok [.send eventInfo.cfd res.toNat]
  | .write => .ok [.recv eventInfo.cfd]
  | .close => .ok []
  | .unknow | .providBuff => .error .unsupportedType

/-- The rest of the loop after `WaitCqe` has returned a completion. -/
def State.process (s : State) (cqe : Cqe) (addresses : List Nat) : Except Stop State :=
  match react s.lfd (s.heap cqe.entry.userData) cqe.res with
  | .error panic => .error (.panic panic)
  | .ok requests => do
    let next ← produceEach State.produce s requests addresses
    .ok { next with ring := next.ring.seen, pc := .head, handled := next.handled ++ [cqe] }

inductive Event where
  | start (userData : Nat)
  | submit (count : Nat)
  | submitError (count : Nat)
  | waitError
  | handle (addresses : List Nat)
  | complete (i : Nat) (res : Int)
deriving DecidableEq

def State.settle (s : State) : Except Stop State → Option State
  | .ok next => some next
  | .error (.panic panic) => some { s with panic := some panic }
  | .error .impossible => none

def act (s : State) : Event → Option State
  | .start userData =>
    if s.pc = .created then
      s.settle do
        let next ← s.produce (.accept s.lfd) userData
        .ok { next with pc := .head }
    else none
  | .submit count =>
    if s.pc = .head then some { s with ring := s.ring.submit count, pc := .waiting } else none
  | .submitError count =>
    if s.pc = .head then some { s with ring := s.ring.submit count, pc := .returned } else none
  | .waitError => if s.pc = .waiting then some { s with pc := .head } else none
  | .handle addresses =>
    match s.pc, s.ring.cq with
    | .waiting, cqe :: _ => s.settle (s.process cqe addresses)
    | _, _ => none
  | .complete i res =>
    match s.ring.inflight[i]? with
    | some sqe =>
      if -2 ^ 31 ≤ res ∧ res < 2 ^ 31 then some { s with ring := s.ring.complete i ⟨sqe, res⟩ }
      else none
    | none => none

def step (s : State) (event : Event) : Option State :=
  if s.panic = none then act s event else none

theorem produce_eq_ok {s next : State} {request : Request} {userData : Nat}
    (h : s.produce request userData = .ok next) :
    ∃ prepared, request.prepare 1 = .ok prepared ∧ next = s.produced prepared userData := by
  unfold State.produce at h
  split at h
  · cases h
  · rename_i prepared hprepared
    split at h
    · cases h
      exact ⟨prepared, hprepared, rfl⟩
    · cases h

inductive Step (s : State) : Event → State → Prop where
  | started {userData : Nat} {next : State} (hpc : s.pc = .created)
      (hproduce : s.produce (.accept s.lfd) userData = .ok next) :
      Step s (.start userData) { next with pc := .head }
  | submitted {count : Nat} (hpc : s.pc = .head) :
      Step s (.submit count) { s with ring := s.ring.submit count, pc := .waiting }
  | submitFailed {count : Nat} (hpc : s.pc = .head) :
      Step s (.submitError count) { s with ring := s.ring.submit count, pc := .returned }
  | waitFailed (hpc : s.pc = .waiting) : Step s .waitError { s with pc := .head }
  | panicked {event : Event} {panic : Panic} : Step s event { s with panic := some panic }
  | handled {addresses : List Nat} {cqe : Cqe} {rest : List Cqe} {requests : List Request}
      {next : State} (hpc : s.pc = .waiting) (hcq : s.ring.cq = cqe :: rest)
      (hreact : react s.lfd (s.heap cqe.entry.userData) cqe.res = .ok requests)
      (hproduce : produceEach State.produce s requests addresses = .ok next) :
      Step s (.handle addresses)
        { next with ring := next.ring.seen, pc := .head, handled := next.handled ++ [cqe] }
  | completed {i : Nat} {sqe : Sqe} {res : Int} (hsqe : s.ring.inflight[i]? = some sqe) :
      Step s (.complete i res) { s with ring := s.ring.complete i ⟨sqe, res⟩ }

theorem settle_eq_some {s t : State} {result : Except Stop State}
    (h : s.settle result = some t) :
    result = .ok t ∨
      ∃ panic, result = .error (.panic panic) ∧ t = { s with panic := some panic } := by
  unfold State.settle at h
  split at h
  · cases h
    exact Or.inl rfl
  · cases h
    exact Or.inr ⟨_, rfl, rfl⟩
  · cases h

theorem step_sound {s t : State} {event : Event} (h : step s event = some t) : Step s event t := by
  unfold step at h
  have hact := (Option.ite_none_right_eq_some.mp h).2
  cases event with
  | start userData =>
    simp only [act, Option.ite_none_right_eq_some] at hact
    rcases settle_eq_some hact.2 with hok | ⟨panic, -, rfl⟩
    · rcases bind_eq_ok.mp hok with ⟨next, hproduce, hnext⟩
      cases hnext
      exact .started hact.1 hproduce
    · exact .panicked
  | submit count =>
    simp only [act, Option.ite_none_right_eq_some, Option.some.injEq] at hact
    cases hact.2
    exact .submitted hact.1
  | submitError count =>
    simp only [act, Option.ite_none_right_eq_some, Option.some.injEq] at hact
    cases hact.2
    exact .submitFailed hact.1
  | waitError =>
    simp only [act, Option.ite_none_right_eq_some, Option.some.injEq] at hact
    cases hact.2
    exact .waitFailed hact.1
  | handle addresses =>
    simp only [act] at hact
    split at hact
    · rename_i cqe rest hpc hcq
      rcases settle_eq_some hact with hok | ⟨panic, -, rfl⟩
      · unfold State.process at hok
        split at hok
        · cases hok
        · rename_i requests hreact
          rcases bind_eq_ok.mp hok with ⟨next, hproduce, hnext⟩
          cases hnext
          exact .handled hpc hcq hreact hproduce
      · exact .panicked
    · cases hact
  | complete i res =>
    simp only [act] at hact
    split at hact
    · rename_i sqe hsqe
      simp only [Option.ite_none_right_eq_some, Option.some.injEq] at hact
      cases hact.2
      exact .completed hsqe
    · cases hact

end IoWrapper.SingleEcho.Server
