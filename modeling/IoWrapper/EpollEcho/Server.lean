import Mathlib.Algebra.Group.Int.Defs
import Mathlib.Logic.Function.Basic
import IoWrapper.Core.Machine

/-! `c-epoll-server/main.c` with the kernel it runs on. The listening socket is reported as
long as a client waits to be accepted; a connection is reported once for what has come in
since the last report. A connection is shut down but never closed, so that its descriptor is
never given to another one. -/
namespace IoWrapper.EpollEcho.Server
open Core.Machine

def maxEvents : Nat := 1024

def maxMessageLen : Nat := 2048

/-- A connection: the bytes that wait to be read, whether the client has hung up, whether the
connection is registered, has something to report and has been shut down, and the bytes that
have been given to `send`; with a note of how many bytes the last `recv` has found waiting, and
whether bytes have come in since. -/
structure Conn where
  unread : List UInt8
  hup : Bool
  interest : Bool
  ready : Bool
  shut : Bool
  sent : List UInt8
  found : Nat
  late : Bool
deriving DecidableEq

def Conn.blank : Conn := ⟨[], false, false, false, false, [], 0, false⟩

inductive News where
  | data (bytes : List UInt8)
  | hangUp
  | reset
deriving DecidableEq

/-- A client that has hung up sends no more bytes, and a connection that is shut down takes
none. -/
def News.Possible (c : Conn) : News → Prop
  | .data bytes => bytes ≠ [] ∧ c.hup = false ∧ c.shut = false
  | .hangUp => c.hup = false
  | .reset => True

instance (c : Conn) : (news : News) → Decidable (news.Possible c)
  | .data bytes => inferInstanceAs (Decidable (bytes ≠ [] ∧ _ ∧ _))
  | .hangUp => inferInstanceAs (Decidable (_ = _))
  | .reset => isTrue trivial

def Conn.hear (c : Conn) : News → Conn
  | .data bytes => { c with unread := c.unread ++ bytes, ready := c.interest, late := true }
  -- what has come in before a reset can still be read
  | .hangUp | .reset => { c with hup := true, ready := c.interest }

/-- `EPOLL_CTL_ADD`; what is there already is reported. -/
def Conn.register (c : Conn) : Conn :=
  { c with interest := true, ready := !c.unread.isEmpty || c.hup }

def Conn.reported (c : Conn) : Conn := { c with ready := false }

def Conn.recv (c : Conn) : Conn :=
  { c with unread := c.unread.drop maxMessageLen, found := c.unread.length, late := false }

/-- `EPOLL_CTL_DEL`. -/
def Conn.remove (c : Conn) : Conn := { c with interest := false, ready := false }

def Conn.shutDown (c : Conn) : Conn := { c with shut := true }

/-- The call that the loop is at. A `send` on a broken connection may end the process by
`SIGPIPE`. -/
inductive Pc where
  | waiting
  | handling
  | sending (fd : Nat) (bytes : List UInt8)
  | removing (fd : Nat)
  | shutting (fd : Nat)
  | exited (msg : String)
  | killed
deriving DecidableEq

/-- The clients that wait to be accepted, the accepted connections by descriptor, and the
events that are still to be handled. -/
structure State where
  backlog : List Conn
  conns : Nat → Option Conn
  events : List Nat
  pc : Pc

def State.init : State := ⟨[], fun _ => none, [], .waiting⟩

inductive Client where
  | queued (i : Nat)
  | accepted (fd : Nat)
deriving DecidableEq

/-- A report names the descriptors of the events; `ret` and `ctl` are what `accept4` and
`epoll_ctl` return. -/
inductive Event where
  | connect
  | hear (client : Client) (news : News)
  | wait (fds : List Nat)
  | waitError
  | handle (ret ctl : Int)
  | send (killed : Bool)
  | remove
  | shutDown
  | endBatch
deriving DecidableEq

/-- What `epoll_wait` may report. -/
def State.Pending (s : State) (sockListenFd fd : Nat) : Prop :=
  fd = sockListenFd ∧ s.backlog ≠ [] ∨ ∃ c ∈ s.conns fd, c.interest = true ∧ c.ready = true

instance (s : State) (sockListenFd fd : Nat) : Decidable (s.Pending sockListenFd fd) :=
  inferInstanceAs (Decidable (_ ∧ _ ∨ ∃ c ∈ s.conns fd, c.interest = true ∧ c.ready = true))

def State.setConn (s : State) (fd : Nat) (c : Conn) : State :=
  { s with conns := Function.update s.conns fd (some c) }

def State.report (s : State) (fds : List Nat) : State :=
  { s with
    conns := fun fd => if fd ∈ fds then (s.conns fd).map Conn.reported else s.conns fd
    events := fds
    pc := .handling }

/-- The branch for the listening socket, which blocks if no client waits. -/
def State.accept (s : State) (sockListenFd : Nat) (ret ctl : Int) : Option State :=
  if ret = -1 then some { s with pc := .exited "Error accepting new connection..\n" }
  else
    match s.backlog with
    | c :: backlog =>
      if 0 ≤ ret ∧ ret.toNat ≠ sockListenFd ∧ s.conns ret.toNat = none then
        if ctl = -1 then some { s with pc := .exited "Error adding new event to epoll..\n" }
        else some ({ s with backlog := backlog }.setConn ret.toNat c.register)
      else none
    | [] => none

def State.hear (s : State) (client : Client) (news : News) : Option State :=
  match client with
  | .queued i =>
    match s.backlog[i]? with
    | some c =>
      if news.Possible c then some { s with backlog := s.backlog.set i (c.hear news) } else none
    | none => none
  | .accepted fd =>
    match s.conns fd with
    | some c => if news.Possible c then some (s.setConn fd (c.hear news)) else none
    | none => none

/-- With nothing to read `recv` returns 0 or -1. -/
def State.recv (s : State) (fd : Nat) (c : Conn) : State :=
  { s with pc := if c.unread = [] then .removing fd else .sending fd (c.unread.take maxMessageLen) }
    |>.setConn fd c.recv

def State.handle (s : State) (sockListenFd : Nat) (ret ctl : Int) : Option State :=
  match s.events with
  | fd :: rest =>
    if fd = sockListenFd then { s with events := rest }.accept sockListenFd ret ctl
    else (s.conns fd).map ({ s with events := rest }.recv fd)
  | [] => none

def State.send (s : State) (killed : Bool) : Option State :=
  match s.pc with
  | .sending fd bytes =>
    (s.conns fd).bind fun c =>
      if killed then if c.hup then some { s with pc := .killed } else none
      else some ({ s with pc := .handling }.setConn fd { c with sent := c.sent ++ bytes })
  | _ => none

def step (sockListenFd : Nat) (s : State) : Event → Option State
  | .connect => some { s with backlog := s.backlog ++ [Conn.blank] }
  | .hear client news => s.hear client news
  | .wait fds =>
    if s.pc = .waiting ∧ fds ≠ [] ∧ fds.Nodup ∧ fds.length ≤ maxEvents ∧
        ∀ fd ∈ fds, s.Pending sockListenFd fd then some (s.report fds)
    else none
  | .waitError =>
    if s.pc = .waiting then some { s with pc := .exited "Error in epoll_wait..\n" } else none
  | .handle ret ctl => if s.pc = .handling then s.handle sockListenFd ret ctl else none
  | .send killed => s.send killed
  | .remove =>
    match s.pc with
    | .removing fd => (s.conns fd).map fun c => { s with pc := .shutting fd }.setConn fd c.remove
    | _ => none
  | .shutDown =>
    match s.pc with
    | .shutting fd => (s.conns fd).map fun c => { s with pc := .handling }.setConn fd c.shutDown
    | _ => none
  | .endBatch =>
    if s.pc = .handling ∧ s.events = [] then some { s with pc := .waiting } else none

inductive Step (sockListenFd : Nat) (s : State) : Event → State → Prop where
  | connected : Step sockListenFd s .connect { s with backlog := s.backlog ++ [Conn.blank] }
  | heardQueued {i : Nat} {c : Conn} {news : News} (hconn : s.backlog[i]? = some c)
      (hpossible : news.Possible c) :
      Step sockListenFd s (.hear (.queued i) news)
        { s with backlog := s.backlog.set i (c.hear news) }
  | heard {fd : Nat} {c : Conn} {news : News} (hconn : s.conns fd = some c)
      (hpossible : news.Possible c) :
      Step sockListenFd s (.hear (.accepted fd) news) (s.setConn fd (c.hear news))
  | reported {fds : List Nat} (hpc : s.pc = .waiting) (hne : fds ≠ []) (hnodup : fds.Nodup)
      (hlen : fds.length ≤ maxEvents) (hpending : ∀ fd ∈ fds, s.Pending sockListenFd fd) :
      Step sockListenFd s (.wait fds) (s.report fds)
  | failed (hpc : s.pc = .waiting) :
      Step sockListenFd s .waitError { s with pc := .exited "Error in epoll_wait..\n" }
  | notAccepted {rest : List Nat} {ret ctl : Int} {msg : String} (hpc : s.pc = .handling)
      (hevents : s.events = sockListenFd :: rest) :
      Step sockListenFd s (.handle ret ctl) { s with events := rest, pc := .exited msg }
  | accepted {rest : List Nat} {ret ctl : Int} {c : Conn} {backlog : List Conn}
      (hpc : s.pc = .handling) (hevents : s.events = sockListenFd :: rest)
      (hbacklog : s.backlog = c :: backlog) (hne : ret.toNat ≠ sockListenFd)
      (hfree : s.conns ret.toNat = none) :
      Step sockListenFd s (.handle ret ctl)
        ({ s with events := rest, backlog := backlog }.setConn ret.toNat c.register)
  | received {fd : Nat} {rest : List Nat} {ret ctl : Int} {c : Conn} (hpc : s.pc = .handling)
      (hevents : s.events = fd :: rest) (hne : fd ≠ sockListenFd) (hconn : s.conns fd = some c) :
      Step sockListenFd s (.handle ret ctl) ({ s with events := rest }.recv fd c)
  | sent {fd : Nat} {bytes : List UInt8} {c : Conn} (hpc : s.pc = .sending fd bytes)
      (hconn : s.conns fd = some c) :
      Step sockListenFd s (.send false)
        ({ s with pc := .handling }.setConn fd { c with sent := c.sent ++ bytes })
  | killed {fd : Nat} {bytes : List UInt8} {c : Conn} (hpc : s.pc = .sending fd bytes)
      (hconn : s.conns fd = some c) (hhup : c.hup = true) :
      Step sockListenFd s (.send true) { s with pc := .killed }
  | removed {fd : Nat} {c : Conn} (hpc : s.pc = .removing fd) (hconn : s.conns fd = some c) :
      Step sockListenFd s .remove ({ s with pc := .shutting fd }.setConn fd c.remove)
  | shutDown {fd : Nat} {c : Conn} (hpc : s.pc = .shutting fd) (hconn : s.conns fd = some c) :
      Step sockListenFd s .shutDown ({ s with pc := .handling }.setConn fd c.shutDown)
  | ended (hpc : s.pc = .handling) (hevents : s.events = []) :
      Step sockListenFd s .endBatch { s with pc := .waiting }

section Sound

variable {sockListenFd : Nat} {s t : State}

theorem hear_sound {client : Client} {news : News} (h : s.hear client news = some t) :
    Step sockListenFd s (.hear client news) t := by
  cases client with
  | queued i =>
    cases hconn : s.backlog[i]? with
    | none => simp [State.hear, hconn] at h
    | some c =>
      simp only [State.hear, hconn, Option.ite_none_right_eq_some, Option.some.injEq] at h
      rw [← h.2]
      exact .heardQueued hconn h.1
  | accepted fd =>
    cases hconn : s.conns fd with
    | none => simp [State.hear, hconn] at h
    | some c =>
      simp only [State.hear, hconn, Option.ite_none_right_eq_some, Option.some.injEq] at h
      rw [← h.2]
      exact .heard hconn h.1

theorem accept_sound {rest : List Nat} {ret ctl : Int} (hpc : s.pc = .handling)
    (hevents : s.events = sockListenFd :: rest)
    (h : ({ s with events := rest } : State).accept sockListenFd ret ctl = some t) :
    Step sockListenFd s (.handle ret ctl) t := by
  unfold State.accept at h
  split at h
  · cases h
    exact .notAccepted hpc hevents
  · cases hbacklog : s.backlog with
    | nil => simp [hbacklog] at h
    | cons c backlog =>
      simp only [hbacklog, Option.ite_none_right_eq_some] at h
      rcases h with ⟨⟨-, hne, hfree⟩, h⟩
      split at h
      · cases h
        rw [← hbacklog]
        exact .notAccepted hpc hevents
      · cases h
        exact .accepted hpc hevents hbacklog hne hfree

theorem handle_sound {ret ctl : Int} (hpc : s.pc = .handling)
    (h : s.handle sockListenFd ret ctl = some t) : Step sockListenFd s (.handle ret ctl) t := by
  cases hevents : s.events with
  | nil => simp [State.handle, hevents] at h
  | cons fd rest =>
    simp only [State.handle, hevents] at h
    split at h
    · rename_i hfd
      subst hfd
      exact accept_sound hpc hevents h
    · rename_i hne
      rcases Option.map_eq_some_iff.mp h with ⟨c, hconn, rfl⟩
      exact .received hpc hevents hne hconn

theorem send_sound {killed : Bool} (h : s.send killed = some t) :
    Step sockListenFd s (.send killed) t := by
  cases hpc : s.pc with
  | sending fd bytes =>
    simp only [State.send, hpc] at h
    rcases Option.bind_eq_some_iff.mp h with ⟨c, hconn, h⟩
    cases killed with
    | true =>
      simp only [if_true, Option.ite_none_right_eq_some, Option.some.injEq] at h
      rw [← h.2]
      exact .killed hpc hconn h.1
    | false =>
      simp only [Bool.false_eq_true, if_false, Option.some.injEq] at h
      rw [← h]
      exact .sent hpc hconn
  | waiting | handling | removing | shutting | exited | killed => simp [State.send, hpc] at h

theorem step_sound {event : Event} (h : step sockListenFd s event = some t) :
    Step sockListenFd s event t := by
  cases event with
  | connect =>
    cases h
    exact .connected
  | hear client news => exact hear_sound h
  | wait fds =>
    simp only [step, Option.ite_none_right_eq_some, Option.some.injEq] at h
    rcases h with ⟨⟨hpc, hne, hnodup, hlen, hpending⟩, rfl⟩
    exact .reported hpc hne hnodup hlen hpending
  | waitError =>
    simp only [step, Option.ite_none_right_eq_some, Option.some.injEq] at h
    rw [← h.2]
    exact .failed h.1
  | handle ret ctl =>
    simp only [step, Option.ite_none_right_eq_some] at h
    exact handle_sound h.1 h.2
  | send killed => exact send_sound h
  | remove =>
    cases hpc : s.pc with
    | removing fd =>
      simp only [step, hpc] at h
      rcases Option.map_eq_some_iff.mp h with ⟨c, hconn, rfl⟩
      exact .removed hpc hconn
    | waiting | handling | sending | shutting | exited | killed => simp [step, hpc] at h
  | shutDown =>
    cases hpc : s.pc with
    | shutting fd =>
      simp only [step, hpc] at h
      rcases Option.map_eq_some_iff.mp h with ⟨c, hconn, rfl⟩
      exact .shutDown hpc hconn
    | waiting | handling | sending | removing | exited | killed => simp [step, hpc] at h
  | endBatch =>
    simp only [step, Option.ite_none_right_eq_some, Option.some.injEq] at h
    rw [← h.2]
    exact .ended h.1.1 h.1.2

end Sound

end IoWrapper.EpollEcho.Server
