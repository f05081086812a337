import Mathlib.Logic.Function.Basic
import Mathlib.Algebra.Group.Int.Defs
import IoWrapper.Core.Calls
import IoWrapper.Core.Relay

/-! `tcp_epoll_send_recvmsg_echo_demo.c` and `tcp_epoll_send_recvmsg_iouring_echo_demo.c`, with
the kernel they run on. The two differ in how they make the calls `recvmsg` and `sendmsg`. All
descriptors are reported on an edge, the listening socket among them, and a report of it is
answered with one `accept`. -/
namespace IoWrapper.EpollDemo.Server
open Core.Machine Core.Calls Core.Relay

def maxEvents : Nat := 10

def maxMessageLen : Nat := 1024

/-- An event, and whether it has `EPOLLERR` or `EPOLLHUP`. -/
structure Report where
  fd : Nat
  broken : Bool
deriving DecidableEq

inductive Call where
  | epollWait
  | accept
  | ctlAdd (fd : Nat)
  | ctlDel (fd : Nat)
  | recvmsg (fd len : Nat)
  | sendmsg (fd : Nat) (bytes : List UInt8)
  | shutdown (fd : Nat)
  | close (fd : Nat)
deriving DecidableEq

/-- What the kernel answers; a failure is a negative number, which says why. -/
inductive Reply where
  | reports (events : List Report)
  | received (res : Int) (bytes : List UInt8)
  | ret (res : Int)
deriving DecidableEq

/-- The call that the loop is at, with the events that are still to be handled. -/
inductive Pc where
  | waiting
  | accepting (rest : List Report)
  | adding (fd : Nat) (rest : List Report)
  | receiving (fd : Nat) (rest : List Report)
  | removing (fd : Nat) (rest : List Report)
  | shuttingDown (fd : Nat) (rest : List Report)
  | sending (fd len : Nat) (rest : List Report)
  | closing (fd : Nat) (rest : List Report)
  | exited (msg : String)
deriving DecidableEq

structure State where
  pc : Pc
  buffer : List UInt8
deriving DecidableEq

def next (sockfd : Nat) : List Report → Pc
  | [] => .waiting
  | event :: rest =>
    if event.broken then .closing event.fd rest
    else if event.fd = sockfd then .accepting rest
    else .receiving event.fd rest

inductive Next (sockfd : Nat) : List Report → Pc → Prop where
  | done : Next sockfd [] .waiting
  | broken (event : Report) (rest : List Report) (hbroken : event.broken = true) :
      Next sockfd (event :: rest) (.closing event.fd rest)
  | listener (event : Report) (rest : List Report) (hbroken : event.broken = false)
      (hfd : event.fd = sockfd) : Next sockfd (event :: rest) (.accepting rest)
  | conn (event : Report) (rest : List Report) (hfd : event.fd ≠ sockfd) :
      Next sockfd (event :: rest) (.receiving event.fd rest)

theorem next_spec (sockfd : Nat) (events : List Report) :
    Next sockfd events (next sockfd events) := by
  cases events with
  | nil => exact .done
  | cons event rest =>
    rw [next]
    cases hbroken : event.broken with
    | true => exact .broken event rest hbroken
    | false =>
      rw [if_neg Bool.false_ne_true]
      by_cases hfd : event.fd = sockfd
      · rw [if_pos hfd]
        exact .listener event rest hbroken hfd
      · rw [if_neg hfd]
        exact .conn event rest hfd

def State.call (s : State) : Option Call :=
  match s.pc with
  | .waiting => some .epollWait
  | .accepting _ => some .accept
  | .adding fd _ => some (.ctlAdd fd)
  | .receiving fd _ => some (.recvmsg fd (maxMessageLen - 1))
  | .removing fd _ => some (.ctlDel fd)
  | .shuttingDown fd _ => some (.shutdown fd)
  | .sending fd len _ => some (.sendmsg fd (s.buffer.take len))
  | .closing fd _ => some (.close fd)
  | .exited _ => none

def State.resume (sockfd : Nat) (s : State) (reply : Reply) : State :=
  match s.pc, reply with
  | .waiting, .reports events => { s with pc := next sockfd events }
  | .waiting, .ret _ => { s with pc := .exited "epoll_wait" }
  | .accepting rest, .ret res =>
    if res = -1 then { s with pc := .exited "error" } else { s with pc := .adding res.toNat rest }
  | .adding _ rest, .ret res =>
    if res = -1 then { s with pc := .exited "Error adding new event to epoll..\n" }
    else { s with pc := next sockfd rest }
  | .receiving fd rest, .received res bytes =>
    { pc := if res ≤ 0 then .removing fd rest else .sending fd res.toNat rest
      buffer := bytes ++ s.buffer.drop bytes.length }
  | .removing fd rest, .ret _ => { s with pc := .shuttingDown fd rest }
  | .shuttingDown _ rest, .ret _ => { s with pc := next sockfd rest }
  | .sending fd _ rest, .ret res =>
    { s with pc := if res < 0 then .closing fd rest else next sockfd rest }
  | .closing _ rest, .ret _ => { s with pc := next sockfd rest }
  | _, _ => s

/-- The functions of the C library report every failure as -1. -/
def libc : Reply → Reply
  | .reports events => .reports events
  | .received res bytes => .received (if res < 0 then -1 else res) bytes
  | .ret res => .ret (if res < 0 then -1 else res)

def plain (sockfd : Nat) : Process Call Reply State where
  call := State.call
  resume s reply := s.resume sockfd (libc reply)

def viaRing : Call → Bool
  | .recvmsg .. | .sendmsg .. => true
  | .epollWait | .accept | .ctlAdd _ | .ctlDel _ | .shutdown _ | .close _ => false

/-- `cqe->res` is the answer of the kernel itself. -/
def iouring (sockfd : Nat) : Process Call Reply State where
  call := State.call
  resume s reply := s.resume sockfd (if s.call.any viaRing then reply else libc reply)

structure Conn where
  interest : Bool
  shut : Bool
  log : List (Transfer UInt8)
deriving DecidableEq

/-- The clients that wait to be accepted, whether their coming is still to be reported, and the
connections by descriptor. -/
structure World where
  listening : Bool
  backlog : Nat
  ready : Bool
  conns : Nat → Option Conn

def World.init : World := ⟨true, 0, false, fun _ => none⟩

/-- What `epoll_wait` may report. -/
def World.Reports (w : World) (sockfd : Nat) (event : Report) : Prop :=
  event.fd = sockfd ∧ w.listening = true ∧ (w.ready = true ∨ event.broken = true) ∨
    ∃ c ∈ w.conns event.fd, c.interest = true

instance (w : World) (sockfd : Nat) (event : Report) : Decidable (w.Reports sockfd event) :=
  inferInstanceAs (Decidable (_ ∧ _ ∧ (_ ∨ _) ∨ ∃ c ∈ w.conns event.fd, c.interest = true))

def World.setConn (w : World) (fd : Nat) (c : Conn) : World :=
  { w with conns := Function.update w.conns fd (some c) }

def World.close (w : World) (sockfd fd : Nat) : World :=
  { w with
    listening := w.listening && fd != sockfd
    conns := Function.update w.conns fd none }

def World.report (w : World) (sockfd : Nat) (events : List Report) : World :=
  { w with ready := w.ready && !(events.map Report.fd).contains sockfd }

/-- `accept` blocks while no client waits, and returns a descriptor that is not open. -/
def World.accept (w : World) (sockfd : Nat) (res : Int) : Option World :=
  if res < 0 then some w
  else if w.listening = true ∧ 0 < w.backlog ∧ res.toNat ≠ sockfd ∧ w.conns res.toNat = none then
    some ({ w with backlog := w.backlog - 1 }.setConn res.toNat ⟨false, false, []⟩)
  else none

def World.transfer (w : World) (fd : Nat) (res : Int) (log : List (Transfer UInt8)) :
    Option World :=
  match w.conns fd with
  | some c => some (w.setConn fd { c with log := c.log ++ log })
  | none => if res < 0 then some w else none

def World.alter (w : World) (fd : Nat) (f : Conn → Conn) : World :=
  { w with conns := Function.update w.conns fd ((w.conns fd).map f) }

def answer (sockfd : Nat) (w : World) : Call → Reply → Option World
  | .epollWait, .reports events =>
    if events ≠ [] ∧ (events.map Report.fd).Nodup ∧ events.length ≤ maxEvents ∧
        ∀ event ∈ events, w.Reports sockfd event then some (w.report sockfd events)
    else none
  | .epollWait, .ret res => if res < 0 then some w else none
  | .accept, .ret res => w.accept sockfd res
  | .ctlAdd fd, .ret res =>
    if res < 0 then some w else some (w.alter fd fun c => { c with interest := true })
  | .ctlDel fd, .ret _ => some (w.alter fd fun c => { c with interest := false })
  | .recvmsg fd len, .received res bytes =>
    if bytes.length = res.toNat ∧ res ≤ len then
      w.transfer fd res (if 0 < res then [.took bytes] else [])
    else none
  | .sendmsg fd bytes, .ret res =>
    if res ≤ bytes.length then w.transfer fd res [.gave (bytes.take res.toNat)] else none
  | .shutdown fd, .ret _ => some (w.alter fd fun c => { c with shut := true })
  | .close fd, .ret _ => some (w.close sockfd fd)
  | _, _ => none

def World.connect (w : World) (_ : Unit) : Option World :=
  if w.listening = true then some { w with backlog := w.backlog + 1, ready := true } else none

def kernel (sockfd : Nat) : Kernel Call Reply World Unit where
  answer := answer sockfd
  outside := World.connect

def State.init : State := ⟨.waiting, List.replicate maxMessageLen 0⟩

abbrev Event := Act Reply Unit

def step (sockfd : Nat) : World × State → Event → Option (World × State) :=
  direct (plain sockfd) (kernel sockfd)

inductive Step (sockfd : Nat) (w : World) (s : State) : Event → World → State → Prop where
  | connected (hlistening : w.listening = true) :
      Step sockfd w s (.outside ()) { w with backlog := w.backlog + 1, ready := true } s
  | reported {events : List Report} (hpc : s.pc = .waiting)
      (hnodup : (events.map Report.fd).Nodup)
      (hreports : ∀ event ∈ events, w.Reports sockfd event) :
      Step sockfd w s (.call (.reports events)) (w.report sockfd events)
        { s with pc := next sockfd events }
  | exited {reply : Reply} (msg : String) (hpc : ∀ fd len rest, s.pc ≠ .sending fd len rest) :
      Step sockfd w s (.call reply) w { s with pc := .exited msg }
  | accepted {rest : List Report} {res : Int} (hpc : s.pc = .accepting rest)
      (hbacklog : 0 < w.backlog) (hne : res.toNat ≠ sockfd) (hfree : w.conns res.toNat = none) :
      Step sockfd w s (.call (.ret res))
        ({ w with backlog := w.backlog - 1 }.setConn res.toNat ⟨false, false, []⟩)
        { s with pc := .adding res.toNat rest }
  | added {fd : Nat} {rest : List Report} {res : Int} (hpc : s.pc = .adding fd rest) :
      Step sockfd w s (.call (.ret res)) (w.alter fd fun c => { c with interest := true })
        { s with pc := next sockfd rest }
  | received {fd : Nat} {rest : List Report} {res : Int} {bytes : List UInt8} {c : Conn}
      (hpc : s.pc = .receiving fd rest) (hlen : bytes.length = res.toNat)
      (hle : res ≤ (maxMessageLen - 1 : Nat)) (hres : 0 < res) (hconn : w.conns fd = some c) :
      Step sockfd w s (.call (.received res bytes))
        (w.setConn fd { c with log := c.log ++ [.took bytes] })
        ⟨.sending fd bytes.length rest, bytes ++ s.buffer.drop bytes.length⟩
  | ended {fd : Nat} {rest : List Report} {res : Int} (hpc : s.pc = .receiving fd rest)
      (hres : res ≤ 0) :
      Step sockfd w s (.call (.received res [])) w { s with pc := .removing fd rest }
  | removed {fd : Nat} {rest : List Report} {res : Int} (hpc : s.pc = .removing fd rest) :
      Step sockfd w s (.call (.ret res)) (w.alter fd fun c => { c with interest := false })
        { s with pc := .shuttingDown fd rest }
  | shutDown {fd : Nat} {rest : List Report} {res : Int} (hpc : s.pc = .shuttingDown fd rest) :
      Step sockfd w s (.call (.ret res)) (w.alter fd fun c => { c with shut := true })
        { s with pc := next sockfd rest }
  | sent {fd len : Nat} {rest : List Report} {res : Int} {c : Conn}
      (hpc : s.pc = .sending fd len rest) (hle : res ≤ (s.buffer.take len).length)
      (hconn : w.conns fd = some c) :
      Step sockfd w s (.call (.ret res))
        (w.setConn fd { c with log := c.log ++ [.gave ((s.buffer.take len).take res.toNat)] })
        { s with pc := if res < 0 then .closing fd rest else next sockfd rest }
  | unsent {fd len : Nat} {rest : List Report} {res : Int} (hpc : s.pc = .sending fd len rest)
      (hconn : w.conns fd = none) :
      Step sockfd w s (.call (.ret res)) w { s with pc := .closing fd rest }
  | closed {fd : Nat} {rest : List Report} {res : Int} (hpc : s.pc = .closing fd rest) :
      Step sockfd w s (.call (.ret res)) (w.close sockfd fd) { s with pc := next sockfd rest }

section Sound

variable {sockfd : Nat} {w w' : World} {s : State}

theorem libc_failed {res : Int} : (if res < 0 then -1 else res) = -1 ↔ res < 0 := by
  split <;> omega

theorem setConn_self {fd : Nat} {c : Conn} (h : w.conns fd = some c) : w.setConn fd c = w := by
  rw [World.setConn, ← h, Function.update_eq_self]

theorem transfer_eq_some {fd : Nat} {res : Int} {log : List (Transfer UInt8)}
    (h : w.transfer fd res log = some w') :
    (∃ c, w.conns fd = some c ∧ w' = w.setConn fd { c with log := c.log ++ log }) ∨
      w.conns fd = none ∧ res < 0 ∧ w' = w := by
  unfold World.transfer at h
  cases hconn : w.conns fd with
  | some c =>
    rw [hconn] at h
    cases h
    exact Or.inl ⟨c, rfl, rfl⟩
  | none =>
    rw [hconn] at h
    rcases Option.ite_none_right_eq_some.mp h with ⟨hres, h⟩
    cases h
    exact Or.inr ⟨rfl, hres, rfl⟩

theorem accepted_sound {rest : List Report} {res : Int} (hpc : s.pc = .accepting rest)
    (h : w.accept sockfd res = some w') :
    Step sockfd w s (.call (.ret res)) w' (s.resume sockfd (libc (.ret res))) := by
  simp only [libc, State.resume, hpc, libc_failed]
  unfold World.accept at h
  by_cases hres : res < 0
  · rw [if_pos hres] at h
    cases h
    rw [if_pos hres]
    exact .exited _ (by simp [hpc])
  · rw [if_neg hres] at h
    rcases Option.ite_none_right_eq_some.mp h with ⟨⟨-, hbacklog, hne, hfree⟩, hnext⟩
    cases hnext
    rw [if_neg hres, if_neg hres]
    exact .accepted hpc hbacklog hne hfree

theorem added_sound {fd : Nat} {rest : List Report} {res : Int} (hpc : s.pc = .adding fd rest)
    (h : answer sockfd w (.ctlAdd fd) (.ret res) = some w') :
    Step sockfd w s (.call (.ret res)) w' (s.resume sockfd (libc (.ret res))) := by
  simp only [libc, State.resume, hpc, libc_failed]
  simp only [answer] at h
  by_cases hres : res < 0
  · rw [if_pos hres] at h
    cases h
    rw [if_pos hres]
    exact .exited _ (by simp [hpc])
  · rw [if_neg hres] at h
    cases h
    rw [if_neg hres]
    exact .added hpc

theorem received_sound {fd : Nat} {rest : List Report} {res : Int} {bytes : List UInt8}
    (hpc : s.pc = .receiving fd rest)
    (h : answer sockfd w (.recvmsg fd (maxMessageLen - 1)) (.received res bytes) = some w') :
    Step sockfd w s (.call (.received res bytes)) w'
      (s.resume sockfd (libc (.received res bytes))) := by
  rcases Option.ite_none_right_eq_some.mp h with ⟨⟨hlen, hle⟩, hnext⟩
  simp only [libc, State.resume, hpc]
  by_cases hres : 0 < res
  · rw [if_pos hres] at hnext
    rcases transfer_eq_some hnext with ⟨c, hconn, rfl⟩ | ⟨-, hfailed, -⟩
    · rw [if_neg (by omega), if_neg (by omega), ← hlen]
      exact .received hpc hlen hle hres hconn
    · omega
  · have hnil : bytes = [] := List.eq_nil_of_length_eq_zero (by omega)
    subst hnil
    rw [if_neg hres] at hnext
    have hsame : w' = w := by
      rcases transfer_eq_some hnext with ⟨c, hconn, rfl⟩ | ⟨-, -, hsame⟩
      · rw [List.append_nil]
        exact setConn_self hconn
      · exact hsame
    subst hsame
    have hpos : (if res < 0 then -1 else res) ≤ 0 := by split <;> omega
    rw [if_pos hpos]
    exact .ended hpc (by omega)

theorem sent_sound {fd len : Nat} {rest : List Report} {res : Int}
    (hpc : s.pc = .sending fd len rest)
    (h : answer sockfd w (.sendmsg fd (s.buffer.take len)) (.ret res) = some w') :
    Step sockfd w s (.call (.ret res)) w' (s.resume sockfd (libc (.ret res))) := by
  rcases Option.ite_none_right_eq_some.mp h with ⟨hle, hnext⟩
  have hsign : (if res < 0 then -1 else res) < 0 ↔ res < 0 := by split <;> omega
  simp only [libc, State.resume, hpc, hsign]
  rcases transfer_eq_some hnext with ⟨c, hconn, rfl⟩ | ⟨hconn, hfailed, rfl⟩
  · exact .sent hpc hle hconn
  · rw [if_pos hfailed]
    exact .unsent hpc hconn

theorem call_sound {c : Call} {reply : Reply} (hcall : s.call = some c)
    (hanswer : answer sockfd w c reply = some w') :
    Step sockfd w s (.call reply) w' (s.resume sockfd (libc reply)) := by
  unfold State.call at hcall
  cases hpc : s.pc with
  | waiting =>
    rw [hpc] at hcall
    cases hcall
    cases reply with
    | reports events =>
      rcases Option.ite_none_right_eq_some.mp hanswer with ⟨⟨-, hnodup, -, hreports⟩, h⟩
      cases h
      simp only [libc, State.resume, hpc]
      exact .reported hpc hnodup hreports
    | ret res =>
      rcases Option.ite_none_right_eq_some.mp hanswer with ⟨-, h⟩
      cases h
      simp only [libc, State.resume, hpc]
      exact .exited _ (by simp [hpc])
    | received res bytes => cases hanswer
  | accepting rest =>
    rw [hpc] at hcall
    cases hcall
    cases reply with
    | ret res => exact accepted_sound hpc hanswer
    | reports | received => cases hanswer
  | adding fd rest =>
    rw [hpc] at hcall
    cases hcall
    cases reply with
    | ret res => exact added_sound hpc hanswer
    | reports | received => cases hanswer
  | receiving fd rest =>
    rw [hpc] at hcall
    cases hcall
    cases reply with
    | received res bytes => exact received_sound hpc hanswer
    | reports | ret => cases hanswer
  | removing fd rest =>
    rw [hpc] at hcall
    cases hcall
    cases reply with
    | ret res =>
      cases hanswer
      simp only [libc, State.resume, hpc]
      exact .removed hpc
    | reports | received => cases hanswer
  | shuttingDown fd rest =>
    rw [hpc] at hcall
    cases hcall
    cases reply with
    | ret res =>
      cases hanswer
      simp only [libc, State.resume, hpc]
      exact .shutDown hpc
    | reports | received => cases hanswer
  | sending fd len rest =>
    rw [hpc] at hcall
    cases hcall
    cases reply with
    | ret res => exact sent_sound hpc hanswer
    | reports | received => cases hanswer
  | closing fd rest =>
    rw [hpc] at hcall
    cases hcall
    cases reply with
    | ret res =>
      cases hanswer
      simp only [libc, State.resume, hpc]
      exact .closed hpc
    | reports | received => cases hanswer
  | exited msg =>
    rw [hpc] at hcall
    cases hcall

theorem step_sound {t : World × State} {event : Event} (h : step sockfd (w, s) event = some t) :
    Step sockfd w s event t.1 t.2 := by
  cases event with
  | call reply =>
    rcases Option.bind_eq_some_iff.mp h with ⟨c, hcall, h⟩
    rcases Option.map_eq_some_iff.mp h with ⟨w', hanswer, rfl⟩
    exact call_sound hcall hanswer
  | outside d =>
    rcases Option.map_eq_some_iff.mp h with ⟨w', hconnect, rfl⟩
    rcases Option.ite_none_right_eq_some.mp hconnect with ⟨hlistening, h⟩
    cases h
    exact .connected hlistening

end Sound

end IoWrapper.EpollDemo.Server
