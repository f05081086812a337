import Mathlib.Algebra.Group.Int.Defs
import Mathlib.Logic.Function.Basic
import IoWrapper.Core.Calls
import IoWrapper.Core.Relay

/-! `tcp_send_recvmsg_echo_demo.c` and `tcp_send_recvmsg_iouring_echo_demo.go`, with the kernel
they run on. They take one client after the other, send it back what it has sent first, and
close the connection. The second one makes its calls through a ring, all but `close`. -/
namespace IoWrapper.SeqEcho.Server
open Core.Machine Core.Calls Core.Relay

def maxBufferSize : Nat := 1024
def entries : Nat := 1024

inductive Call where
  | accept
  | recvmsg (fd buf len : Nat)
  | sendmsg (fd buf len : Nat)
  | close (fd : Nat)
deriving DecidableEq

structure Reply where
  res : Int
  bytes : List UInt8
deriving DecidableEq

inductive Pc where
  | accepting
  | receiving (fd : Nat)
  | sending (fd len : Nat)
  | closing (fd : Nat)
  | ended
deriving DecidableEq

structure State where
  pc : Pc
  turn : Nat
deriving DecidableEq

def State.init : State := ⟨.accepting, 0⟩

def State.next (s : State) : State := ⟨.accepting, s.turn + 1⟩

/-- In what the two programs differ: the buffer of a turn, the length of a receive, whether the
loop goes on after a failed `accept`, and whether it goes on to send, and to close, after a
receive that has found the end. -/
structure Program where
  buf : Nat → Nat
  len : Nat
  retries : Bool
  answersEmpty : Bool

/-- The buffer is declared before the loop, and keeps a place for the terminating zero. -/
def cDemo : Program := ⟨fun _ => 0, maxBufferSize - 1, true, true⟩

/-- The buffer is declared in the loop. -/
def goDemo : Program := ⟨fun turn => turn, maxBufferSize, false, false⟩

def Program.call (p : Program) (s : State) : Option Call :=
  match s.pc with
  | .accepting => some .accept
  | .receiving fd => some (.recvmsg fd (p.buf s.turn) p.len)
  | .sending fd len => some (.sendmsg fd (p.buf s.turn) len)
  | .closing fd => some (.close fd)
  | .ended => none

def Program.resume (p : Program) (s : State) (reply : Reply) : State :=
  match s.pc with
  | .accepting =>
    if reply.res < 0 then if p.retries then s.next else { s with pc := .ended }
    else { s with pc := .receiving reply.res.toNat }
  | .receiving fd =>
    if reply.res < 0 then { s with pc := .closing fd }
    else if reply.res = 0 ∧ p.answersEmpty = false then s.next
    else { s with pc := .sending fd reply.res.toNat }
  | .sending fd _ => { s with pc := .closing fd }
  | .closing _ => s.next
  | .ended => s

def Program.process (p : Program) : Process Call Reply State := ⟨p.call, p.resume⟩

def viaRing : Call → Bool
  | .accept | .recvmsg .. | .sendmsg .. => true
  | .close _ => false

/-- What the loop does when `WaitCqe` fails. -/
def giveUp (s : State) : Option State :=
  match s.pc with
  | .accepting => some s.next
  | .receiving fd | .sending fd _ => some { s with pc := .closing fd }
  | .closing _ | .ended => some s

structure Conn where
  log : List (Transfer UInt8)
  ended : Bool
deriving DecidableEq

structure World where
  memory : Nat → List UInt8
  conns : Nat → Option Conn

def World.init : World := ⟨fun _ => List.replicate maxBufferSize 0, fun _ => none⟩

def World.setConn (w : World) (fd : Nat) (c : Conn) : World :=
  { w with conns := Function.update w.conns fd (some c) }

def World.store (w : World) (buf : Nat) (bytes : List UInt8) : World :=
  { w with memory := Function.update w.memory buf (bytes ++ (w.memory buf).drop bytes.length) }

/-- A call on a descriptor without a connection fails. -/
def World.withConn (w : World) (fd : Nat) (res : Int) (f : Conn → World) : Option World :=
  match w.conns fd with
  | some c => some (f c)
  | none => if res < 0 then some w else none

/-- `accept` returns a number that is not open. It may be that of the listener in the Go program:
nothing keeps `cf` after its number has been asked for, and its finalizer closes it. -/
def answer (w : World) (call : Call) (reply : Reply) : Option World :=
  match call with
  | .accept =>
    if reply.res < 0 then some w
    else if w.conns reply.res.toNat = none then
      some (w.setConn reply.res.toNat ⟨[], false⟩)
    else none
  | .recvmsg fd buf len =>
    if reply.bytes.length = reply.res.toNat ∧ reply.res ≤ len then
      w.withConn fd reply.res fun c =>
        if 0 < reply.res then
          (w.store buf reply.bytes).setConn fd { c with log := c.log ++ [.took reply.bytes] }
        else if reply.res = 0 then w.setConn fd { c with ended := true }
        else w
    else none
  | .sendmsg fd buf len =>
    if reply.res ≤ len then
      w.withConn fd reply.res fun c =>
        w.setConn fd
          { c with log := c.log ++ [.gave (((w.memory buf).take len).take reply.res.toNat)] }
    else none
  | .close fd => some { w with conns := Function.update w.conns fd none }

def kernel : Kernel Call Reply World Empty := ⟨answer, fun _ d => d.elim⟩

def step (p : Program) : World × State → Act Reply Empty → Option (World × State) :=
  direct p.process kernel

/-- The program with the ring, as long as `WaitCqe` does not fail. -/
def ringStep : Ringed Call Reply State World → RingAct Reply Empty →
    Option (Ringed Call Reply State World) :=
  restrict Patient (ringed goDemo.process kernel viaRing giveUp)

inductive Step (p : Program) (w : World) (s : State) : World → State → Prop where
  | refused (hpc : s.pc = .accepting) :
      Step p w s w (if p.retries then s.next else { s with pc := .ended })
  | accepted {fd : Nat} (hpc : s.pc = .accepting) (hfree : w.conns fd = none) :
      Step p w s (w.setConn fd ⟨[], false⟩) { s with pc := .receiving fd }
  | received {fd : Nat} {bytes : List UInt8} {c : Conn} (hpc : s.pc = .receiving fd)
      (hconn : w.conns fd = some c) (hbytes : bytes ≠ []) :
      Step p w s
        ((w.store (p.buf s.turn) bytes).setConn fd { c with log := c.log ++ [.took bytes] })
        { s with pc := .sending fd bytes.length }
  | answered {fd : Nat} {c : Conn} (hpc : s.pc = .receiving fd) (hconn : w.conns fd = some c)
      (hanswers : p.answersEmpty = true) :
      Step p w s (w.setConn fd { c with ended := true }) { s with pc := .sending fd 0 }
  | left {fd : Nat} {c : Conn} (hpc : s.pc = .receiving fd) (hconn : w.conns fd = some c)
      (hanswers : p.answersEmpty = false) :
      Step p w s (w.setConn fd { c with ended := true }) s.next
  | failed {fd : Nat} (hpc : s.pc = .receiving fd) : Step p w s w { s with pc := .closing fd }
  | sent {fd len count : Nat} {c : Conn} (hpc : s.pc = .sending fd len)
      (hconn : w.conns fd = some c) :
      Step p w s
        (w.setConn fd { c with
          log := c.log ++ [.gave (((w.memory (p.buf s.turn)).take len).take count)] })
        { s with pc := .closing fd }
  | unsent {fd len : Nat} (hpc : s.pc = .sending fd len) (hconn : w.conns fd = none) :
      Step p w s w { s with pc := .closing fd }
  | closed {fd : Nat} (hpc : s.pc = .closing fd) :
      Step p w s { w with conns := Function.update w.conns fd none } s.next

section Sound

variable {p : Program} {w w' : World} {s : State}

theorem withConn_eq_some {fd : Nat} {res : Int} {f : Conn → World}
    (h : w.withConn fd res f = some w') :
    (∃ c, w.conns fd = some c ∧ w' = f c) ∨ w.conns fd = none ∧ res < 0 ∧ w' = w := by
  unfold World.withConn at h
  cases hconn : w.conns fd with
  | some c =>
    rw [hconn] at h
    cases h
    exact Or.inl ⟨c, rfl, rfl⟩
  | none =>
    rw [hconn] at h
    rcases Option.ite_none_right_eq_some.mp h with ⟨hres, h⟩
    cases h
    exact Or.inr ⟨rfl, hres, rfl⟩

theorem received_sound {fd : Nat} {reply : Reply} (hpc : s.pc = .receiving fd)
    (h : answer w (.recvmsg fd (p.buf s.turn) p.len) reply = some w') :
    Step p w s w' (p.resume s reply) := by
  rcases Option.ite_none_right_eq_some.mp h with ⟨⟨hlen, -⟩, h⟩
  simp only [Program.resume, hpc]
  rcases withConn_eq_some h with ⟨c, hconn, rfl⟩ | ⟨-, hres, rfl⟩
  · rcases Int.lt_trichotomy reply.res 0 with hneg | hzero | hpos
    · rw [if_neg (by omega), if_neg (by omega), if_pos hneg]
      exact .failed hpc
    · rw [if_neg (by omega), if_pos hzero, if_neg (by omega)]
      cases hanswers : p.answersEmpty with
      | true =>
        rw [if_neg (by simp), hzero]
        exact .answered hpc hconn hanswers
      | false =>
        rw [if_pos ⟨hzero, rfl⟩]
        exact .left hpc hconn hanswers
    · have hbytes : reply.bytes ≠ [] := by
        intro hnil
        rw [hnil, List.length_nil] at hlen
        omega
      rw [if_pos hpos, if_neg (by omega), if_neg (by omega), ← hlen]
      exact .received hpc hconn hbytes
  · rw [if_pos hres]
    exact .failed hpc

theorem step_sound {t : World × State} {act : Act Reply Empty}
    (h : step p (w, s) act = some t) : Step p w s t.1 t.2 := by
  cases act with
  | outside d => exact d.elim
  | call reply =>
    rcases Option.bind_eq_some_iff.mp h with ⟨c, hcall, h⟩
    rcases Option.map_eq_some_iff.mp h with ⟨w', hanswer, rfl⟩
    change p.call s = some c at hcall
    change answer w c reply = some w' at hanswer
    change Step p w s w' (p.resume s reply)
    unfold Program.call at hcall
    cases hpc : s.pc with
    | accepting =>
      rw [hpc] at hcall
      cases hcall
      simp only [Program.resume, hpc]
      simp only [answer] at hanswer
      by_cases hres : reply.res < 0
      · rw [if_pos hres] at hanswer
        cases hanswer
        rw [if_pos hres]
        exact .refused hpc
      · rw [if_neg hres] at hanswer
        rcases Option.ite_none_right_eq_some.mp hanswer with ⟨hfree, hnext⟩
        cases hnext
        rw [if_neg hres]
        exact .accepted hpc hfree
    | receiving fd =>
      rw [hpc] at hcall
      cases hcall
      exact received_sound hpc hanswer
    | sending fd len =>
      rw [hpc] at hcall
      cases hcall
      rcases Option.ite_none_right_eq_some.mp hanswer with ⟨-, hnext⟩
      simp only [Program.resume, hpc]
      rcases withConn_eq_some hnext with ⟨c, hconn, rfl⟩ | ⟨hconn, -, rfl⟩
      · exact .sent hpc hconn
      · exact .unsent hpc hconn
    | closing fd =>
      rw [hpc] at hcall
      cases hcall
      cases hanswer
      simp only [Program.resume, hpc]
      exact .closed hpc
    | ended =>
      rw [hpc] at hcall
      cases hcall

end Sound

end IoWrapper.SeqEcho.Server
