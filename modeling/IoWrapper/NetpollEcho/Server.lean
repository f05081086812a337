import Mathlib.Logic.Function.Basic
import IoWrapper.Core.Machine

/-! `golang-netpoll-server/main.go` on the Go runtime. Each connection is served by a
goroutine of its own, in a buffer that it finds by the number of a duplicate of its
descriptor. The duplicate belongs to an `os.File` that is not used after its number has been
asked for, so its finalizer may close it while the connection is still served. -/
namespace IoWrapper.NetpollEcho.Server
open Core.Machine

def maxConns : Nat := 10240

def maxMsgLen : Nat := 2048

/-- What an open descriptor belongs to; the rest of the process has descriptors too. -/
inductive Owner where
  | conn (i : Nat)
  | dup (i : Nat)
  | other
deriving DecidableEq

inductive ReadErr where
  | eof
  | other
deriving DecidableEq

/-- Where `handleConn` is: before `File`, with the file that `File` has returned or nil, in
`Read` or in `Write` with an element of `buffs`, or returned. The bytes in `Write` are a note
of what has been read. -/
inductive Stage where
  | starting
  | filed (f : Option Nat)
  | reading (buff : Nat)
  | writing (buff : Nat) (data : List UInt8)
  | returned
deriving DecidableEq

/-- A connection with its descriptor, and the duplicate as long as it is open. -/
structure Conn where
  fd : Nat
  dup : Option Nat
  stage : Stage
deriving DecidableEq

/-- How the process ends: an index out of range, or `log.Fatal`. -/
inductive Crash where
  | index (i : Int)
  | fatal
deriving DecidableEq

structure Written where
  read : List UInt8
  bytes : List UInt8
deriving DecidableEq

/-- The connections in the order of their acceptance, the descriptors that are open, and what
has been stored in the elements of `buffs`. -/
structure State where
  conns : List Conn
  fds : Nat → Option Owner
  buffs : Nat → List UInt8
  written : List Written
  crash : Option Crash

/-- The other descriptors that are open when the first client connects are opened by events. -/
def State.init : State := ⟨[], fun _ => none, fun _ => [], [], none⟩

/-- What the goroutine of a connection does, or the finalizer of its file: `File` returns a
file with a number, or an error; then come `Fd` and the index, `Read`, with what `Close`
returns if it comes to that, and `Write`. -/
inductive Act where
  | file (f : Option Nat)
  | index
  | read (data : List UInt8) (err : Option ReadErr) (closed : Bool)
  | write (done : Bool)
  | finalize
deriving DecidableEq

inductive Event where
  | accept (fd : Nat)
  | acceptError
  | act (i : Nat) (act : Act)
  | openOther (fd : Nat)
  | closeOther (fd : Nat)
deriving DecidableEq

def State.setConn (s : State) (i : Nat) (c : Conn) : State := { s with conns := s.conns.set i c }

def State.setFd (s : State) (fd : Nat) (owner : Option Owner) : State :=
  { s with fds := Function.update s.fds fd owner }

def State.fail (s : State) (crash : Crash) : State := { s with crash := some crash }

/-- `int(f.Fd())`; a nil file has the number of all ones. -/
def fdNumber : Option Nat → Int
  | some fd => fd
  | none => -1

/-- `buffs[int(f.Fd())]`. -/
def State.index (s : State) (i : Nat) (c : Conn) (f : Option Nat) : State :=
  let n := fdNumber f
  if 0 ≤ n ∧ n < maxConns then s.setConn i { c with stage := .reading n.toNat }
  else s.fail (.index n)

def State.store (s : State) (buff : Nat) (data : List UInt8) : State :=
  { s with buffs := Function.update s.buffs buff (data ++ (s.buffs buff).drop data.length) }

/-- The body of the loop up to `Write`. -/
def State.read (s : State) (i : Nat) (c : Conn) (buff : Nat) (data : List UInt8)
    (err : Option ReadErr) (closed : Bool) : State :=
  if err = some .eof ∨ data = [] then
    if closed then (s.setFd c.fd none).setConn i { c with stage := .returned } else s.fail .fatal
  else if err ≠ none then s.fail .fatal
  else (s.store buff data).setConn i { c with stage := .writing buff data }

def State.log (s : State) (written : Written) : State :=
  { s with written := s.written ++ [written] }

/-- `conn.Write(buff[:n])`, and back to the head of the loop. -/
def State.write (s : State) (i : Nat) (c : Conn) (buff : Nat) (data : List UInt8) (done : Bool) :
    State :=
  if done then
    (s.log ⟨data, (s.buffs buff).take data.length⟩).setConn i { c with stage := .reading buff }
  else s.fail .fatal

def Stage.past : Stage → Bool
  | .starting | .filed _ => false
  | .reading _ | .writing .. | .returned => true

/-- The duplicate gets a number that is not open; its finalizer may run when the file is not
used any more. -/
def State.act (s : State) (i : Nat) (c : Conn) (act : Act) : Option State :=
  match act, c.stage with
  | .file none, .starting => some (s.setConn i { c with stage := .filed none })
  | .file (some d), .starting =>
    if s.fds d = none then
      some ((s.setFd d (some (.dup i))).setConn i
        { c with dup := some d, stage := .filed (some d) })
    else none
  | .index, .filed f => some (s.index i c f)
  | .read data err closed, .reading buff =>
    if data.length ≤ maxMsgLen then some (s.read i c buff data err closed) else none
  | .write done, .writing buff data => some (s.write i c buff data done)
  | .finalize, stage =>
    match c.dup with
    | some d =>
      if stage.past then some ((s.setFd d none).setConn i { c with dup := none }) else none
    | none => none
  | _, _ => none

def State.accept (s : State) (fd : Nat) : State :=
  { s.setFd fd (some (.conn s.conns.length)) with conns := s.conns ++ [⟨fd, none, .starting⟩] }

def step (s : State) (event : Event) : Option State :=
  if s.crash = none then
    match event with
    | .accept fd => if s.fds fd = none then some (s.accept fd) else none
    | .acceptError => some (s.fail .fatal)
    | .act i act => (s.conns[i]?).bind fun c => s.act i c act
    | .openOther fd => if s.fds fd = none then some (s.setFd fd (some .other)) else none
    | .closeOther fd => if s.fds fd = some .other then some (s.setFd fd none) else none
  else none

section Calls

variable {s t : State} {i : Nat} {c : Conn}

inductive Acted (s : State) (i : Nat) (c : Conn) : Act → State → Prop where
  | noFile (hstage : c.stage = .starting) :
      Acted s i c (.file none) (s.setConn i { c with stage := .filed none })
  | filed {d : Nat} (hstage : c.stage = .starting) (hfree : s.fds d = none) :
      Acted s i c (.file (some d)) ((s.setFd d (some (.dup i))).setConn i
        { c with dup := some d, stage := .filed (some d) })
  | indexed {d : Nat} (hstage : c.stage = .filed (some d)) (hlt : d < maxConns) :
      Acted s i c .index (s.setConn i { c with stage := .reading d })
  | closed {buff : Nat} {data : List UInt8} {err : Option ReadErr} {closed : Bool}
      (hstage : c.stage = .reading buff) :
      Acted s i c (.read data err closed) ((s.setFd c.fd none).setConn i
        { c with stage := .returned })
  | stored {buff : Nat} {data : List UInt8} {err : Option ReadErr} {closed : Bool}
      (hstage : c.stage = .reading buff) (hlen : data.length ≤ maxMsgLen) :
      Acted s i c (.read data err closed) ((s.store buff data).setConn i
        { c with stage := .writing buff data })
  | wrote {buff : Nat} {data : List UInt8} {done : Bool} (hstage : c.stage = .writing buff data) :
      Acted s i c (.write done) ((s.log ⟨data, (s.buffs buff).take data.length⟩).setConn i
        { c with stage := .reading buff })
  | finalized {d : Nat} (hdup : c.dup = some d) (hpast : c.stage.past = true) :
      Acted s i c .finalize ((s.setFd d none).setConn i { c with dup := none })
  | crashed {act : Act} {crash : Crash} : Acted s i c act (s.fail crash)

theorem index_acted {f : Option Nat} (hstage : c.stage = .filed f) :
    Acted s i c .index (s.index i c f) := by
  unfold State.index
  cases f with
  | none => exact .crashed
  | some d =>
    dsimp only [fdNumber]
    by_cases hlt : d < maxConns
    · rw [if_pos ⟨Int.natCast_nonneg d, Int.ofNat_lt.mpr hlt⟩]
      exact .indexed hstage hlt
    · rw [if_neg (by omega)]
      exact .crashed

theorem read_acted {buff : Nat} {data : List UInt8} {err : Option ReadErr} {closed : Bool}
    (hstage : c.stage = .reading buff) (hlen : data.length ≤ maxMsgLen) :
    Acted s i c (.read data err closed) (s.read i c buff data err closed) := by
  unfold State.read
  split
  · split
    · exact .closed hstage
    · exact .crashed
  · split
    · exact .crashed
    · exact .stored hstage hlen

theorem write_acted {buff : Nat} {data : List UInt8} {done : Bool}
    (hstage : c.stage = .writing buff data) :
    Acted s i c (.write done) (s.write i c buff data done) := by
  unfold State.write
  split
  · exact .wrote hstage
  · exact .crashed

theorem act_sound {act : Act} (h : s.act i c act = some t) : Acted s i c act t := by
  unfold State.act at h
  split at h
  · rename_i hstage
    cases h
    exact .noFile hstage
  · rename_i hstage
    simp only [Option.ite_none_right_eq_some, Option.some.injEq] at h
    rw [← h.2]
    exact .filed hstage h.1
  · rename_i hstage
    cases h
    exact index_acted hstage
  · rename_i hstage
    simp only [Option.ite_none_right_eq_some, Option.some.injEq] at h
    rw [← h.2]
    exact read_acted hstage h.1
  · rename_i hstage
    cases h
    exact write_acted hstage
  · split at h
    · rename_i hdup
      simp only [Option.ite_none_right_eq_some, Option.some.injEq] at h
      rw [← h.2]
      exact .finalized hdup h.1
    · cases h
  · cases h

end Calls

inductive Step (s : State) : Event → State → Prop where
  | accepted {fd : Nat} (hfree : s.fds fd = none) : Step s (.accept fd) (s.accept fd)
  | notAccepted : Step s .acceptError (s.fail .fatal)
  | acted {i : Nat} {c : Conn} {act : Act} {t : State} (hconn : s.conns[i]? = some c)
      (hacted : Acted s i c act t) : Step s (.act i act) t
  | otherOpened {fd : Nat} (hfree : s.fds fd = none) :
      Step s (.openOther fd) (s.setFd fd (some .other))
  | otherClosed {fd : Nat} (hfd : s.fds fd = some .other) :
      Step s (.closeOther fd) (s.setFd fd none)

theorem step_sound {s t : State} {event : Event} (h : step s event = some t) : Step s event t := by
  unfold step at h
  rw [Option.ite_none_right_eq_some] at h
  replace h := h.2
  cases event with
  | accept fd =>
    simp only [Option.ite_none_right_eq_some, Option.some.injEq] at h
    rw [← h.2]
    exact .accepted h.1
  | acceptError =>
    cases h
    exact .notAccepted
  | act i act =>
    rcases Option.bind_eq_some_iff.mp h with ⟨c, hconn, hact⟩
    exact .acted hconn (act_sound hact)
  | openOther fd =>
    simp only [Option.ite_none_right_eq_some, Option.some.injEq] at h
    rw [← h.2]
    exact .otherOpened h.1
  | closeOther fd =>
    simp only [Option.ite_none_right_eq_some, Option.some.injEq] at h
    rw [← h.2]
    exact .otherClosed h.1

end IoWrapper.NetpollEcho.Server
