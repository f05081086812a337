import Mathlib.Logic.Function.Basic
import IoWrapper.Core.Relay
import IoWrapper.TokenEcho.Server

/-! The bytes that go through `rust-iouring-server`: what the buffers of the slab hold, which
connection is open under a descriptor, and the transfers that the kernel makes between the two. -/
namespace IoWrapper.TokenEcho.Transfers
open Core.Machine Core.Relay Server

/-- The server, its buffers, and the files of the process with the transfers on each. The
files are numbered as they are opened. -/
structure Sys where
  server : Server.State
  bufs : Nat → List UInt8
  fds : Nat → Option Nat
  files : Nat
  log : Nat → List (Transfer UInt8)

/-- A buffer is filled with zeros when it is allocated, and never freed. -/
def Sys.init (listenFd : Nat) : Sys :=
  { server := Server.State.init listenFd
    bufs := fun _ => List.replicate bufferLen 0
    fds := Function.update (fun _ => none) listenFd (some 0)
    files := 1
    log := fun _ => [] }

/-- Which results an operation can have, with the bytes that it has received. It fails if its
descriptor is not open, and a new connection gets one that is not. -/
def Delivers (s : Sys) (result : Int) (data : List UInt8) : Op → Prop
  | .accept _ => data = [] ∧ (0 ≤ result → s.fds result.toNat = none)
  | .pollAdd _ => data = []
  | .recv fd _ len => data.length = result.toNat ∧ result ≤ len ∧ (s.fds fd = none → result < 0)
  | .send fd _ len | .write fd _ _ len =>
    data = [] ∧ result ≤ len ∧ (s.fds fd = none → result < 0)

instance (s : Sys) (result : Int) (data : List UInt8) : (op : Op) →
    Decidable (Delivers s result data op)
  | .accept _ => inferInstanceAs (Decidable (_ ∧ (_ → _)))
  | .pollAdd _ => inferInstanceAs (Decidable (_ = _))
  | .recv .. => inferInstanceAs (Decidable (_ ∧ _ ∧ (_ → _)))
  | .send .. => inferInstanceAs (Decidable (_ ∧ _ ∧ (_ → _)))
  | .write .. => inferInstanceAs (Decidable (_ ∧ _ ∧ (_ → _)))

def Sys.note (s : Sys) (fd : Nat) (transfers : List (Transfer UInt8)) : Sys :=
  match s.fds fd with
  | some file => { s with log := Function.update s.log file (s.log file ++ transfers) }
  | none => s

def Sys.transfer (s : Sys) (result : Int) (data : List UInt8) : Op → Sys
  | .accept _ =>
    if 0 ≤ result then
      { s with fds := Function.update s.fds result.toNat (some s.files), files := s.files + 1 }
    else s
  | .pollAdd _ => s
  | .recv fd bufIndex _ =>
    { s with
      bufs := Function.update s.bufs bufIndex (data ++ (s.bufs bufIndex).drop data.length) }.note
        fd (if 0 < result then [.took data] else [])
  | .send fd bufIndex _ => s.note fd [.gave ((s.bufs bufIndex).take result.toNat)]
  | .write fd bufIndex offset _ =>
    s.note fd [.gave (((s.bufs bufIndex).drop offset).take result.toNat)]

def Sys.serve (s : Sys) (t : Server.State) : Sys :=
  { s with
    server := t
    fds := fun fd => if fd ∈ t.closed.drop s.server.closed.length then none else s.fds fd }

inductive Event where
  | server (event : Server.Event)
  | complete (i : Nat) (result : Int) (data : List UInt8)
deriving DecidableEq

def isComplete : Server.Event → Bool
  | .complete .. => true
  | .submitAndWait _ | .wake | .cleanBacklog _ | .pushAccepts | .handle _ | .endPass => false

def step (s : Sys) : Event → Option Sys
  | .server event =>
    if isComplete event then none else (Server.step s.server event).map s.serve
  | .complete i result data =>
    match s.server.inflight[i]? with
    | some entry =>
      if Delivers s result data entry.op then
        (Server.step s.server (.complete i result)).map fun t =>
          { s.transfer result data entry.op with server := t }
      else none
    | none => none

inductive Step (s : Sys) : Event → Sys → Prop where
  | served {event : Server.Event} {t : Server.State} (hown : isComplete event = false)
      (h : Server.step s.server event = some t) : Step s (.server event) (s.serve t)
  | completed {i : Nat} {cqe : Cqe} {data : List UInt8}
      (hentry : s.server.inflight[i]? = some cqe.entry)
      (hdelivers : Delivers s cqe.result data cqe.entry.op) :
      Step s (.complete i cqe.result data)
        { s.transfer cqe.result data cqe.entry.op with
          server := { s.server with
            inflight := s.server.inflight.eraseIdx i
            cq := s.server.cq.post cqe } }

theorem step_sound {s t : Sys} {event : Event} (h : step s event = some t) : Step s event t := by
  cases event with
  | server event =>
    cases hown : isComplete event with
    | true => simp [step, hown] at h
    | false =>
      simp only [step, hown, Bool.false_eq_true, if_false] at h
      rcases Option.map_eq_some_iff.mp h with ⟨next, hnext, rfl⟩
      exact .served hown hnext
  | complete i result data =>
    cases hentry : s.server.inflight[i]? with
    | none => simp [step, hentry] at h
    | some entry =>
      simp only [step, hentry, Option.ite_none_right_eq_some, Server.step, Option.map_some,
        Option.some.injEq] at h
      rcases h with ⟨hdelivers, rfl⟩
      exact @Step.completed s i ⟨entry, result⟩ data hentry hdelivers

theorem server_reachable {listenFd : Nat} {s : Sys} (h : Reachable step (Sys.init listenFd) s) :
    Reachable Server.step (Server.State.init listenFd) s.server := by
  apply h.component Sys.server
  intro s event t hstep
  right
  cases step_sound hstep with
  | @served event _ _ hnext => exact ⟨event, hnext⟩
  | @completed i cqe data hentry hdelivers =>
    refine ⟨.complete i cqe.result, ?_⟩
    simp only [Server.step, hentry]

def pass : List Event := [.server .wake, .server (.cleanBacklog .ok), .server .pushAccepts]

def served (i : Nat) (result : Int) (data : List UInt8) (key : Nat) : List Event :=
  .complete i result data :: pass ++ [.server (.handle key), .server .endPass,
    .server (.submitAndWait .ok)] ++ pass ++ [.server .endPass, .server (.submitAndWait .ok)]

def oneConnect : List Event := .server (.submitAndWait .ok) :: served 0 5 [] 1

def oneMessage : List Event := oneConnect ++ served 2 1 [] 0 ++ served 3 3 [7, 8, 9] 0

end IoWrapper.TokenEcho.Transfers
