import IoWrapper.Core.Relay
import IoWrapper.EchoV1.Server

/-! The bytes that go through `io_uring_echo_server_v1.c`: what its buffers hold, and the
transfers that the kernel makes between them and the files of the connections. An operation
with `IOSQE_FIXED_FILE` works on the file in its slot, and any other on the file that is open
under its descriptor. -/
namespace IoWrapper.EchoV1.Transfers
open Core.Machine Core.Traffic Core.Relay
open EchoV1.Server (Setup Op Sqe)

/-- The server, its buffers, and for each file the transfers on it. -/
structure Sys where
  server : Server.State
  bufs : Nat → List UInt8
  log : Nat → List (Transfer UInt8)

/-- The buffers come from `malloc` and may hold anything. -/
def Sys.init (u : Setup) (bufs : Nat → List UInt8) : Sys :=
  ⟨Server.State.init u, bufs, fun _ => []⟩

/-- The file that an operation works on. -/
def target (s : Server.State) (sqe : Sqe) : Option Nat :=
  if sqe.fixedFile then s.slots sqe.op.fd else s.fds sqe.op.fd

def Received (res : Int) (data : List UInt8) : Op → Prop
  | .accept _ => data = []
  | .recv _ _ len => data.length = res.toNat ∧ res ≤ len
  | .send _ _ len => data = [] ∧ res ≤ len

instance (res : Int) (data : List UInt8) : (op : Op) → Decidable (Received res data op)
  | .accept _ => inferInstanceAs (Decidable (_ = _))
  | .recv .. => inferInstanceAs (Decidable (_ ∧ _))
  | .send .. => inferInstanceAs (Decidable (_ ∧ _))

/-- Without a file an operation fails. -/
def Delivers (s : Server.State) (sqe : Sqe) (res : Int) (data : List UInt8) : Prop :=
  (target s sqe = none → res < 0) ∧ Received res data sqe.op

instance (s : Server.State) (sqe : Sqe) (res : Int) (data : List UInt8) :
    Decidable (Delivers s sqe res data) :=
  inferInstanceAs (Decidable ((_ → _) ∧ _))

def stored (bufs : Nat → List UInt8) (op : Op) (data : List UInt8) : Nat → List UInt8 :=
  match op with
  | .recv _ buf _ => Function.update bufs buf (data ++ (bufs buf).drop data.length)
  | .accept _ | .send .. => bufs

/-- The transfer that an operation has made. A send that fails has given nothing. -/
def transfers (bufs : Nat → List UInt8) (op : Op) (res : Int) (data : List UInt8) :
    List (Transfer UInt8) :=
  match op with
  | .accept _ => []
  | .recv .. => if 0 < res then [.took data] else []
  | .send _ buf _ => [.gave ((bufs buf).take res.toNat)]

def Sys.transfer (s : Sys) (sqe : Sqe) (res : Int) (data : List UInt8) : Sys :=
  match target s.server sqe with
  | some file =>
    { s with
      bufs := stored s.bufs sqe.op data
      log := Function.update s.log file (s.log file ++ transfers s.bufs sqe.op res data) }
  | none => s

inductive Event where
  | server (event : Server.Event)
  | complete (i : Nat) (res : Int) (data : List UInt8)
deriving DecidableEq

def isComplete : Server.Event → Bool
  | .complete .. => true
  | .submit _ | .submitError | .peek | .handle _ | .endBatch => false

def step (u : Setup) (s : Sys) : Event → Option Sys
  | .server event =>
    if isComplete event then none
    else (Server.step u s.server event).map fun t => { s with server := t }
  | .complete i res data =>
    match s.server.ring.inflight[i]? with
    | some sqe =>
      if Delivers s.server sqe res data then
        (Server.step u s.server (.complete i res)).map fun t =>
          { s.transfer sqe res data with server := t }
      else none
    | none => none

inductive Step (u : Setup) (s : Sys) : Event → Sys → Prop where
  | served {event : Server.Event} {t : Server.State} (hown : isComplete event = false)
      (h : Server.step u s.server event = some t) : Step u s (.server event) { s with server := t }
  | completed {i : Nat} {cqe : Server.Cqe} {data : List UInt8}
      (hsqe : s.server.ring.inflight[i]? = some cqe.entry)
      (hdelivers : Delivers s.server cqe.entry cqe.res data) (hpossible : s.server.Possible cqe) :
      Step u s (.complete i cqe.res data)
        { s.transfer cqe.entry cqe.res data with server := s.server.completed i cqe }

theorem step_sound {u : Setup} {s t : Sys} {event : Event} (h : step u s event = some t) :
    Step u s event t := by
  cases event with
  | server event =>
    cases hown : isComplete event with
    | true => simp [step, hown] at h
    | false =>
      simp only [step, hown, Bool.false_eq_true, if_false] at h
      rcases Option.map_eq_some_iff.mp h with ⟨next, hnext, rfl⟩
      exact .served hown hnext
  | complete i res data =>
    cases hsqe : s.server.ring.inflight[i]? with
    | none => simp [step, hsqe] at h
    | some sqe =>
      simp only [step, hsqe, Option.ite_none_right_eq_some, Server.step] at h
      rcases h with ⟨hdelivers, h⟩
      rcases Option.map_eq_some_iff.mp h with ⟨next, hnext, rfl⟩
      simp only [Option.ite_none_right_eq_some, Option.some.injEq] at hnext
      rcases hnext with ⟨hpossible, rfl⟩
      exact .completed hsqe hdelivers hpossible

theorem server_reachable {u : Setup} {bufs : Nat → List UInt8} {s : Sys}
    (h : Reachable (step u) (Sys.init u bufs) s) :
    Reachable (Server.step u) (Server.State.init u) s.server := by
  apply h.component Sys.server
  intro s event t hstep
  right
  cases step_sound hstep with
  | @served event _ _ hnext => exact ⟨event, hnext⟩
  | @completed i cqe data hsqe hdelivers hpossible =>
    refine ⟨.complete i cqe.res, ?_⟩
    simp only [Server.step, hsqe, if_pos hpossible]

end IoWrapper.EchoV1.Transfers
