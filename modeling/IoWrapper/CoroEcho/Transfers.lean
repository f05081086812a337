import IoWrapper.CoroEcho.Server

/-! The bytes that go through `coroutine_io_uring_echo_server.cpp`. The kernel issues the entries
in the order in which they were queued, lends a buffer of the group to a receive that asks for
one, and moves bytes between the buffers and the connections when it completes an operation. -/
namespace IoWrapper.CoroEcho.Transfers
open Core.Machine Server
open Echo.Server (Conn maxMessageLen buffersCount enobufs bufferFlags onConn)

/-- The server with the buffers and the connections that have a coroutine. The first entries in
the kernel are issued, and `held` has the buffers that are taken for them; the others are still
to be issued. It is noted which connections have been shut down. -/
structure Sys where
  server : Server.State
  held : List (Option Nat)
  group : List Nat
  bufs : Nat → List UInt8
  conns : List Conn
  accepted : Nat
  ended : List (Option Nat)

def Sys.init (listenFd : Nat) : Sys :=
  { server := Server.State.init listenFd
    held := []
    group := List.range buffersCount
    bufs := fun _ => List.replicate maxMessageLen 0
    conns := []
    accepted := 0
    ended := [] }

inductive Event where
  | submit
  | handle
  | endPass
  | issue
  | provide (res : Int)
  | take (i bid : Nat)
  | giveBack (i : Nat)
  | complete (i : Nat) (res : Int) (data : List UInt8)
deriving DecidableEq

def Sys.receive (s : Sys) (fd bid : Nat) (data : List UInt8) : Sys :=
  { s with
    bufs := Function.update s.bufs bid (data ++ (s.bufs bid).drop data.length)
    conns := onConn fd (Conn.receive data) s.conns }

def Sys.transmit (s : Sys) (fd bid count : Nat) : Sys :=
  { s with conns := onConn fd (Conn.transmit ((s.bufs bid).take count)) s.conns }

def Sys.accept (s : Sys) (fd : Nat) : Sys :=
  { s with
    conns := s.conns ++ [⟨s.accepted, fd, [], []⟩]
    accepted := s.accepted + 1 }

/-- `shutdown`, with a note of the connection. -/
def Sys.shutdown (s : Sys) (fd : Nat) : Sys :=
  match s.conns.findIdx? fun c => c.fd == fd with
  | some i =>
    { s with
      conns := s.conns.eraseIdx i
      ended := s.ended ++ [s.conns[i]?.map Conn.id] }
  | none => { s with ended := s.ended ++ [none] }

def outcome (s : Sys) (sqe : Sqe) (held : Option Nat) (res : Int) (data : List UInt8) :
    Option (Nat × Sys) :=
  match sqe.op, held with
  | .accept _, _ =>
    if data ≠ [] then none
    else if res < 0 then some (0, s)
    else some (0, s.accept res.toNat)
  | .recv fd _, some bid =>
    if res ≠ -enobufs ∧ data.length = res.toNat ∧ data.length ≤ maxMessageLen then
      some (bufferFlags bid, s.receive fd bid data)
    else none
  | .recv _ _, none =>
    if data = [] ∧ res ≤ 0 ∧ (res = -enobufs → s.group = []) then some (0, s) else none
  | .send fd bid len, _ =>
    if data = [] ∧ res ≠ 0 ∧ res ≤ len then some (0, s.transmit fd bid res.toNat) else none
  | .provideBuffers _ _ _, _ => none

def Sys.handled (s : Sys) (server : Server.State) : Sys :=
  match s.server.cq with
  | cqe :: _ =>
    match server.pc, (handleCqe s.server.listenFd s.server.connections cqe).ended with
    | .pass, some fd => { s with server := server }.shutdown fd
    | _, _ => { s with server := server }
  | [] => s

def step (s : Sys) : Event → Option Sys
  | .submit => (Server.step s.server .submit).map fun server => { s with server := server }
  | .handle => (Server.step s.server .handle).map s.handled
  | .endPass => (Server.step s.server .endPass).map fun server => { s with server := server }
  | .issue =>
    match s.server.inflight[s.held.length]? with
    | some sqe =>
      if sqe.userData.type = .provBuf then none else some { s with held := s.held ++ [none] }
    | none => none
  | .provide res =>
    match s.server.inflight[s.held.length]? with
    | some sqe =>
      match sqe.op with
      | .provideBuffers bid _ _ =>
        (Server.step s.server (.complete s.held.length res 0)).map fun server =>
          { s with
            server := server
            group := if 0 ≤ res then s.group ++ [bid] else s.group }
      | _ => none
    | none => none
  | .take i bid =>
    match s.server.inflight[i]?, s.held[i]? with
    | some sqe, some none =>
      if sqe.userData.type = .read ∧ bid ∈ s.group then
        some { s with group := s.group.erase bid, held := s.held.set i (some bid) }
      else none
    | _, _ => none
  | .giveBack i =>
    match s.server.inflight[i]?, s.held[i]? with
    | some sqe, some (some bid) =>
      if sqe.userData.type = .read then
        some { s with group := s.group ++ [bid], held := s.held.set i none }
      else none
    | _, _ => none
  | .complete i res data =>
    match s.server.inflight[i]?, s.held[i]? with
    | some sqe, some held =>
      (outcome s sqe held res data).bind fun p =>
        (Server.step s.server (.complete i res p.1)).map fun server =>
          { p.2 with server := server, held := s.held.eraseIdx i }
    | _, _ => none

inductive Done (s : Sys) (sqe : Sqe) (res : Int) :
    Option Nat → List UInt8 → Nat → Sys → Prop where
  | accepted {fd : Nat} {held : Option Nat} (hop : sqe.op = .accept fd) (hres : 0 ≤ res) :
      Done s sqe res held [] 0 (s.accept res.toNat)
  | acceptFailed {fd : Nat} {held : Option Nat} (hop : sqe.op = .accept fd) (hres : res < 0) :
      Done s sqe res held [] 0 s
  | received {fd len bid : Nat} {data : List UInt8} (hop : sqe.op = .recv fd len)
      (hbufs : res ≠ -enobufs) (hdata : data.length = res.toNat)
      (hlen : data.length ≤ maxMessageLen) :
      Done s sqe res (some bid) data (bufferFlags bid) (s.receive fd bid data)
  | recvFailed {fd len : Nat} (hop : sqe.op = .recv fd len) (hres : res ≤ 0)
      (hbufs : res = -enobufs → s.group = []) : Done s sqe res none [] 0 s
  | sent {fd bid len : Nat} {held : Option Nat} (hop : sqe.op = .send fd bid len)
      (hres : res ≠ 0) (hle : res ≤ len) :
      Done s sqe res held [] 0 (s.transmit fd bid res.toNat)

theorem outcome_done {s u : Sys} {sqe : Sqe} {held : Option Nat} {res : Int} {data : List UInt8}
    {flags : Nat} (h : outcome s sqe held res data = some (flags, u)) :
    Done s sqe res held data flags u := by
  unfold outcome at h
  cases hop : sqe.op with
  | accept fd =>
    simp only [hop] at h
    split at h
    · cases h
    · rename_i hdata
      cases not_ne_iff.mp hdata
      split at h
      · rename_i hres
        cases h
        exact .acceptFailed hop hres
      · rename_i hres
        cases h
        exact .accepted hop (Int.not_lt.mp hres)
  | recv fd len =>
    cases held with
    | some bid =>
      simp only [hop] at h
      rcases Option.ite_none_right_eq_some.mp h with ⟨⟨hbufs, hdata, hlen⟩, h⟩
      cases h
      exact .received hop hbufs hdata hlen
    | none =>
      simp only [hop] at h
      rcases Option.ite_none_right_eq_some.mp h with ⟨⟨rfl, hres, hbufs⟩, hdone⟩
      cases hdone
      exact .recvFailed hop hres hbufs
  | send fd bid len =>
    simp only [hop] at h
    rcases Option.ite_none_right_eq_some.mp h with ⟨⟨rfl, hres, hle⟩, hdone⟩
    cases hdone
    exact .sent hop hres hle
  | provideBuffers bid len nr =>
    simp only [hop] at h
    cases h

theorem Done.same {s u : Sys} {sqe : Sqe} {held : Option Nat} {res : Int} {data : List UInt8}
    {flags : Nat} (h : Done s sqe res held data flags u) :
    u.server = s.server ∧ u.held = s.held := by
  cases h <;> exact ⟨rfl, rfl⟩

inductive Step (s : Sys) : Event → Sys → Prop where
  | submitted {server : Server.State} (hserver : Server.step s.server .submit = some server) :
      Step s .submit { s with server := server }
  | handled {server : Server.State} (hserver : Server.step s.server .handle = some server) :
      Step s .handle (s.handled server)
  | passEnded {server : Server.State} (hserver : Server.step s.server .endPass = some server) :
      Step s .endPass { s with server := server }
  | issued {sqe : Sqe} (hsqe : s.server.inflight[s.held.length]? = some sqe)
      (htype : sqe.userData.type ≠ .provBuf) : Step s .issue { s with held := s.held ++ [none] }
  | provided {sqe : Sqe} {bid len nr : Nat} {res : Int} {server : Server.State}
      (hsqe : s.server.inflight[s.held.length]? = some sqe)
      (hop : sqe.op = .provideBuffers bid len nr)
      (hserver : Server.step s.server (.complete s.held.length res 0) = some server) :
      Step s (.provide res)
        { s with
          server := server
          group := if 0 ≤ res then s.group ++ [bid] else s.group }
  | took {i bid : Nat} {sqe : Sqe} (hsqe : s.server.inflight[i]? = some sqe)
      (hheld : s.held[i]? = some none) (htype : sqe.userData.type = .read) (hbid : bid ∈ s.group) :
      Step s (.take i bid)
        { s with group := s.group.erase bid, held := s.held.set i (some bid) }
  | gaveBack {i bid : Nat} {sqe : Sqe} (hsqe : s.server.inflight[i]? = some sqe)
      (hheld : s.held[i]? = some (some bid)) (htype : sqe.userData.type = .read) :
      Step s (.giveBack i) { s with group := s.group ++ [bid], held := s.held.set i none }
  | completed {i flags : Nat} {res : Int} {data : List UInt8} {sqe : Sqe} {held : Option Nat}
      {u : Sys} {server : Server.State} (hsqe : s.server.inflight[i]? = some sqe)
      (hheld : s.held[i]? = some held) (hdone : Done s sqe res held data flags u)
      (hserver : Server.step s.server (.complete i res flags) = some server) :
      Step s (.complete i res data) { u with server := server, held := s.held.eraseIdx i }

theorem step_sound {s t : Sys} {event : Event} (h : step s event = some t) : Step s event t := by
  cases event with
  | submit =>
    rcases Option.map_eq_some_iff.mp h with ⟨server, hserver, rfl⟩
    exact .submitted hserver
  | handle =>
    rcases Option.map_eq_some_iff.mp h with ⟨server, hserver, rfl⟩
    exact .handled hserver
  | endPass =>
    rcases Option.map_eq_some_iff.mp h with ⟨server, hserver, rfl⟩
    exact .passEnded hserver
  | issue =>
    simp only [step] at h
    split at h
    · rename_i sqe hsqe
      split at h
      · cases h
      · rename_i htype
        cases h
        exact .issued hsqe htype
    · cases h
  | provide res =>
    simp only [step] at h
    split at h
    · rename_i sqe hsqe
      split at h
      · rename_i bid len nr hop
        rcases Option.map_eq_some_iff.mp h with ⟨server, hserver, rfl⟩
        exact .provided hsqe hop hserver
      · cases h
    · cases h
  | take i bid =>
    simp only [step] at h
    split at h
    · rename_i sqe hsqe hheld
      rcases Option.ite_none_right_eq_some.mp h with ⟨⟨htype, hbid⟩, h⟩
      cases h
      exact .took hsqe hheld htype hbid
    · cases h
  | giveBack i =>
    simp only [step] at h
    split at h
    · rename_i sqe bid hsqe hheld
      rcases Option.ite_none_right_eq_some.mp h with ⟨htype, h⟩
      cases h
      exact .gaveBack hsqe hheld htype
    · cases h
  | complete i res data =>
    simp only [step] at h
    split at h
    · rename_i sqe held hsqe hheld
      rcases Option.bind_eq_some_iff.mp h with ⟨⟨flags, u⟩, houtcome, h⟩
      rcases Option.map_eq_some_iff.mp h with ⟨server, hserver, rfl⟩
      exact .completed hsqe hheld (outcome_done houtcome) hserver
    · cases h

section Server

variable {s t : Sys}

@[simp] theorem shutdown_server (s : Sys) (fd : Nat) : (s.shutdown fd).server = s.server := by
  unfold Sys.shutdown
  split <;> rfl

theorem handled_server {server : Server.State} (h : Server.step s.server .handle = some server) :
    (s.handled server).server = server := by
  unfold Sys.handled
  cases hcq : s.server.cq with
  | nil => simp [Server.step, hcq] at h
  | cons cqe rest =>
    dsimp only
    split
    · exact shutdown_server _ _
    · rfl

theorem server_step {event : Event} (h : step s event = some t) :
    t.server = s.server ∨ ∃ e, Server.step s.server e = some t.server := by
  cases step_sound h with
  | submitted hserver => exact Or.inr ⟨_, hserver⟩
  | handled hserver => exact Or.inr ⟨_, by rw [handled_server hserver]; exact hserver⟩
  | passEnded hserver => exact Or.inr ⟨_, hserver⟩
  | issued | took | gaveBack => exact Or.inl rfl
  | provided _ _ hserver => exact Or.inr ⟨_, hserver⟩
  | completed _ _ _ hserver => exact Or.inr ⟨_, hserver⟩

theorem server_reachable {listenFd : Nat} (h : Reachable step (Sys.init listenFd) s) :
    Reachable Server.step (Server.State.init listenFd) s.server := by
  apply h.invariant fun s => Reachable Server.step (Server.State.init listenFd) s.server
  · exact Reachable.refl _ _
  · intro s event t _ hs hstep
    rcases server_step hstep with hsame | ⟨e, hserver⟩
    · exact hsame ▸ hs
    · exact hs.tail hserver

end Server

def connect (fd : Int) : List Event :=
  [.submit, .issue, .complete 0 fd [], .handle, .endPass, .submit, .issue, .issue]

end IoWrapper.CoroEcho.Transfers
