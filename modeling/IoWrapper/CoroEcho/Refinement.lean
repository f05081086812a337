import IoWrapper.Core.Labels
import IoWrapper.CoroEcho.Lockstep
import IoWrapper.CoroEcho.Transfers
import IoWrapper.Echo.Fidelity

/-! The coroutine server and its kernel, seen as `io_uring_echo_server.c` and its kernel. As long
as no receive fails, every state of the one is a state of the other, with the same buffers and
the same bytes on every connection; what holds of the one then holds of the other. -/
namespace IoWrapper.CoroEcho.Refinement
open Core.Machine Core.Labels Core.Tables Server Matching Lockstep Transfers
open Echo.Server (Op Conn maxMessageLen groupId iosqeBufferSelect enobufs bufferFlags)

theorem connInfo_provideBuffers (bid len nr : Nat) :
    (⟨0, .provBuf, 0⟩ : Echo.Server.ConnInfo) = Op.connInfo (.provideBuffers bid len nr) := rfl

def entry : Op → Echo.Server.Sqe
  | .accept fd => Echo.Server.addAccept fd 0
  | .recv fd _ => Echo.Server.addSocketRead fd groupId maxMessageLen iosqeBufferSelect
  | .send fd bid len => Echo.Server.addSocketWrite fd bid len 0
  | .provideBuffers bid len nr =>
    ⟨.provideBuffers bid len nr, 0, groupId, ⟨0, .provBuf, 0⟩, connInfo_provideBuffers bid len nr⟩

def ofSqe (sqe : Sqe) : Echo.Server.Sqe := entry sqe.op

def ofCqe (cqe : Cqe) : Echo.Server.Cqe := ⟨ofSqe cqe.sqe, cqe.res, cqe.flags⟩

/-- Where the other server is then. It has no counterpart of the two crashes: where this one
runs out of entries or calls `std::terminate`, the other one goes on with its pass. -/
def ofPc : Server.Pc → Echo.Server.Pc
  | .submitting => .submitting
  | .pass | .nullSqe | .stopped .terminate => .pass
  | .stopped (.exit text) => .exited text

def echo (s : Sys) : Echo.Server.State :=
  { listenFd := s.server.listenFd
    sq := s.server.sq.map ofSqe
    submitted := (waiting s.server.inflight s.held).map ofSqe
    inflight := served (fun sqe held => ⟨ofSqe sqe, held⟩) s.server.inflight s.held
    cq := s.server.cq.map ofCqe
    group := s.group
    bufs := s.bufs
    conns := s.conns
    accepted := s.accepted
    closes := s.ended
    pc := ofPc s.server.pc }

def ofEvent (s : Sys) : Transfers.Event → Echo.Server.Event
  | .submit => .submit s.server.sq.length
  | .handle => .handle
  | .endPass => .endPass
  | .issue => .issue
  | .provide res => .provide res
  | .take i bid => .take i bid
  | .giveBack i => .giveBack i
  | .complete i res data => .complete i res data

/-- No receive fails, unless there is no buffer for it. -/
def Sound (s : Sys) : Transfers.Event → Prop
  | .complete i res _ => ∀ sqe ∈ s.server.inflight[i]?,
      sqe.userData.type = .read → 0 ≤ res ∨ res = -enobufs
  | _ => True

instance (s : Sys) : (event : Transfers.Event) → Decidable (Sound s event)
  | .complete i _ _ => inferInstanceAs (Decidable (∀ sqe ∈ s.server.inflight[i]?, _))
  | .submit | .handle | .endPass | .issue | .provide _ | .take .. | .giveBack _ =>
    inferInstanceAs (Decidable True)

section Entries

theorem view_view (op : Op) : view (view op) = view op := by
  cases op <;> rfl

theorem entry_op (op : Op) : (entry op).op = view op := by
  cases op <;> rfl

theorem entry_view (op : Op) : entry (view op) = entry op := by
  cases op <;> rfl

theorem ofSqe_type (sqe : Sqe) : (ofSqe sqe).userData.type = sqe.userData.type := by
  rw [(ofSqe sqe).described, ofSqe, entry_op, type_view, ← type_of_op]

theorem answers_ofCqe (cqe : Cqe) : Answers cqe (ofCqe cqe) := by
  refine ⟨?_, rfl, rfl⟩
  rw [ofCqe, ofSqe, entry_op, view_view]

theorem queued_eq (listenFd : Nat) (cqe : Echo.Server.Cqe) :
    (Echo.Server.handleCqe listenFd cqe).queued.map (fun sqe => entry sqe.op) =
      (Echo.Server.handleCqe listenFd cqe).queued := by
  unfold Echo.Server.handleCqe
  dsimp only
  split
  · rfl
  · split
    · split <;> rfl
    · split <;> rfl
    · split <;> rfl
    · rfl

theorem queued_of_outcome {listenFd : Nat} {cqe : Cqe} {reaction : Reaction}
    (h : Lockstep.outcome reaction = outcomeC (Echo.Server.handleCqe listenFd (ofCqe cqe))) :
    reaction.queued.map ofSqe = (Echo.Server.handleCqe listenFd (ofCqe cqe)).queued := by
  have hqueued := congrArg (fun o => o.queued.map entry) h
  simp only [Lockstep.outcome, outcomeC, List.map_map, Function.comp_def, entry_view] at hqueued
  rw [← queued_eq]
  exact hqueued

end Entries

structure Tracks (s : Sys) : Prop where
  issued : s.held.length ≤ s.server.inflight.length
  known : ∀ fd ∈ s.conns.map Conn.fd, fd ∈ s.server.fds ++ s.server.cq.flatMap opened
  sound : ∀ cqe ∈ s.server.cq, cqe.userData.type = .read → 0 ≤ cqe.res ∨ cqe.res = -enobufs

section Tracks

variable {s t : Sys}

theorem Tracks.fresh (h : Tracks s) {sqe : Sqe} {res : Int} (hpossible : s.server.Possible sqe res)
    (htype : sqe.userData.type = .accept) (hres : 0 ≤ res) :
    res.toNat ≠ s.server.listenFd ∧ res.toNat ∉ s.conns.map Conn.fd := by
  rcases hpossible.2.2 htype hres with ⟨hlisten, hnew⟩
  exact ⟨hlisten, fun hmem => hnew (h.known _ hmem)⟩

theorem shutdown_same (s : Sys) (fd : Nat) :
    (s.shutdown fd).held = s.held ∧ ∀ c ∈ (s.shutdown fd).conns, c ∈ s.conns := by
  unfold Sys.shutdown
  split
  · exact ⟨rfl, fun c hc => List.mem_of_mem_eraseIdx hc⟩
  · exact ⟨rfl, fun c hc => hc⟩

theorem handled_same (s : Sys) (server : Server.State) :
    (s.handled server).held = s.held ∧ ∀ c ∈ (s.handled server).conns, c ∈ s.conns := by
  unfold Sys.handled
  split
  · split
    · exact shutdown_same _ _
    · exact ⟨rfl, fun c hc => hc⟩
  · exact ⟨rfl, fun c hc => hc⟩

theorem Tracks.of_handled (h : Tracks s) {server : Server.State}
    (hserver : Server.step s.server .handle = some server) : Tracks (s.handled server) := by
  rcases handled_same s server with ⟨hheld, hconns⟩
  have hfds : ∀ fd ∈ (s.handled server).conns.map Conn.fd,
      fd ∈ s.server.fds ++ s.server.cq.flatMap opened :=
    fun fd hfd => h.known fd (List.map_subset _ hconns hfd)
  have hissued := h.issued
  constructor
  case issued =>
    rw [hheld, handled_server hserver]
    cases Server.step_sound hserver with
    | stopped | overran | handled => exact hissued
  case known =>
    intro fd hfd
    have hown := hfds fd hfd
    rw [handled_server hserver]
    cases Server.step_sound hserver with
    | stopped | overran => exact hown
    | handled hpc hcq =>
      rw [hcq, List.flatMap_cons, ← List.append_assoc] at hown
      exact hown
  case sound =>
    rw [handled_server hserver]
    cases Server.step_sound hserver with
    | stopped | overran => exact h.sound
    | handled hpc hcq =>
      intro cqe hcqe
      exact h.sound cqe (by rw [hcq]; exact List.mem_cons_of_mem _ hcqe)

theorem fds_of_done {u : Sys} {sqe : Sqe} {held : Option Nat} {res : Int} {data : List UInt8}
    {flags fd : Nat} (h : Done s sqe res held data flags u) (hfd : fd ∈ u.conns.map Conn.fd) :
    fd ∈ s.conns.map Conn.fd ∨ fd ∈ opened ⟨sqe, res, flags⟩ := by
  cases h with
  | accepted hop hres =>
    have htype : sqe.userData.type = .accept := by
      rw [type_of_op, hop]
      rfl
    have hopened : opened ⟨sqe, res, 0⟩ = [res.toNat] := if_pos ⟨htype, hres⟩
    rw [hopened]
    simpa [Sys.accept] using hfd
  | acceptFailed | recvFailed => exact Or.inl hfd
  | @received own len bid data hop =>
    simp only [Sys.receive] at hfd
    rw [Echo.Pending.map_onConn Conn.fd own (Conn.receive data) fun _ => rfl] at hfd
    exact Or.inl hfd
  | @sent own bid len held hop =>
    simp only [Sys.transmit] at hfd
    rw [Echo.Pending.map_onConn Conn.fd own (Conn.transmit _) fun _ => rfl] at hfd
    exact Or.inl hfd

theorem Tracks.step {event : Transfers.Event} (h : Tracks s) (hsound : Sound s event)
    (hstep : Transfers.Step s event t) : Tracks t := by
  cases hstep with
  | submitted hserver =>
    cases Server.step_sound hserver with
    | submitted hpc =>
      refine ⟨?_, h.known, h.sound⟩
      rw [List.length_append]
      exact Nat.le_add_right_of_le h.issued
  | handled hserver => exact h.of_handled hserver
  | passEnded hserver =>
    cases Server.step_sound hserver with
    | passEnded => exact ⟨h.issued, h.known, h.sound⟩
  | issued hsqe =>
    refine ⟨?_, h.known, h.sound⟩
    rw [List.length_append, List.length_singleton]
    exact (List.getElem?_eq_some_iff.mp hsqe).1
  | took | gaveBack =>
    refine ⟨?_, h.known, h.sound⟩
    rw [List.length_set]
    exact h.issued
  | @provided sqe bid len nr res server hsqe hop hserver =>
    have hlt := (List.getElem?_eq_some_iff.mp hsqe).1
    cases Server.step_sound hserver with
    | @completed _ _ _ own hown hpossible =>
      rw [hsqe] at hown
      cases hown
      refine ⟨?_, fun fd hfd => ?_, fun cqe hcqe htype => ?_⟩
      · rw [List.length_eraseIdx_of_lt hlt]
        exact Nat.le_sub_one_of_lt hlt
      · rw [List.flatMap_append, ← List.append_assoc]
        exact List.mem_append_left _ (h.known fd hfd)
      · rcases List.mem_append.mp hcqe with hcqe | hcqe
        · exact h.sound cqe hcqe htype
        · rw [List.mem_singleton.mp hcqe, cqe_type hop] at htype
          cases htype
  | @completed i flags res data sqe held u server hsqe hheld hdone hserver =>
    have hlt := (List.getElem?_eq_some_iff.mp hsqe).1
    have hlt' := (List.getElem?_eq_some_iff.mp hheld).1
    cases Server.step_sound hserver with
    | @completed _ _ _ own hown hpossible =>
      rw [hsqe] at hown
      cases hown
      refine ⟨?_, fun fd hfd => ?_, fun cqe hcqe htype => ?_⟩
      · rw [List.length_eraseIdx_of_lt hlt, List.length_eraseIdx_of_lt hlt']
        exact Nat.sub_le_sub_right h.issued 1
      · rw [List.flatMap_append, ← List.append_assoc]
        rcases fds_of_done hdone hfd with hfd | hfd
        · exact List.mem_append_left _ (h.known fd hfd)
        · exact List.mem_append_right _ (by simpa using hfd)
      · rcases List.mem_append.mp hcqe with hcqe | hcqe
        · exact h.sound cqe hcqe htype
        · rw [List.mem_singleton.mp hcqe] at htype ⊢
          exact hsound sqe hsqe htype

end Tracks

section Steps

variable {s t : Sys} {listenFd : Nat}

theorem handleCqe_enobufs {connections : Table ConnTask} {cqe : Cqe} (h : cqe.res = -enobufs) :
    handleCqe listenFd connections cqe =
      ⟨[], connections, none, some (.exit Echo.Server.noBufsText)⟩ := by
  simp [handleCqe, h]

theorem outcome_eq (hwired : Matching.Wired s.server) (htracks : Tracks s) {cqe : Cqe}
    {rest : List Cqe} (hcq : s.server.cq = cqe :: rest)
    (hfits : ∀ cqe ∈ (echo s).cq, cqe.userData.type = .read → cqe.res ≤ maxMessageLen) :
    Lockstep.outcome (handleCqe s.server.listenFd s.server.connections cqe) =
      outcomeC (Echo.Server.handleCqe s.server.listenFd (ofCqe cqe)) := by
  have hmem : cqe ∈ s.server.cq := by rw [hcq]; exact List.mem_cons_self ..
  by_cases hbufs : cqe.res = -enobufs
  · have hother : (ofCqe cqe).res = -enobufs := hbufs
    rw [handleCqe_enobufs hbufs]
    simp [Lockstep.outcome, outcomeC, Echo.Server.handleCqe, hother]
  · refine (answers_ofCqe cqe).outcome_eq ?_ (hwired.answer hcq)
    intro htype
    have htype' : cqe.userData.type = .read := (answers_ofCqe cqe).type_eq.trans htype
    have hle := hfits (ofCqe cqe) (List.mem_map_of_mem hmem) htype
    rcases htracks.sound cqe hmem htype' with hres | hres
    · exact ⟨hres, hle⟩
    · exact absurd hres hbufs

theorem echo_shutdown (s : Sys) (fd : Nat) : echo (s.shutdown fd) = (echo s).close fd := by
  unfold Sys.shutdown Echo.Server.State.close
  simp only [echo]
  cases s.conns.findIdx? fun c => c.fd == fd <;> rfl

theorem echo_step_handle {cqe : Cqe} {rest : List Cqe} (hpc : s.server.pc = .pass)
    (hcq : s.server.cq = cqe :: rest) :
    Echo.Server.step (echo s) .handle = some ((echo s).handled (ofCqe cqe) (rest.map ofCqe)) := by
  simp [Echo.Server.step, echo, hpc, hcq, ofPc]

theorem echo_handled (hwired : Matching.Wired s.server) (htracks : Tracks s)
    (hfits : ∀ cqe ∈ (echo s).cq, cqe.userData.type = .read → cqe.res ≤ maxMessageLen)
    {server : Server.State} (hserver : Server.step s.server .handle = some server) :
    echo (s.handled server) = echo s ∨
      Echo.Server.step (echo s) .handle = some (echo (s.handled server)) := by
  cases Server.step_sound hserver with
  | @stopped cqe rest stop hpc hcq hstop =>
    have hexit := congrArg Outcome.stop (outcome_eq hwired htracks hcq hfits)
    rw [Lockstep.outcome, hstop, eq_comm] at hexit
    rcases Option.map_eq_some_iff.mp hexit with ⟨text, htext, rfl⟩
    right
    rw [echo_step_handle hpc hcq, handled_of_exit _ htext]
    simp only [Sys.handled, hcq, echo]
    rfl
  | @overran cqe rest hpc hcq hroom =>
    left
    simp only [Sys.handled, hcq, echo, hpc]
    rfl
  | @handled cqe rest hpc hcq hstop hroom =>
    have hsame := outcome_eq hwired htracks hcq hfits
    have hexit := congrArg Outcome.stop hsame
    rw [Lockstep.outcome, hstop, eq_comm] at hexit
    have hexit := Option.map_eq_none_iff.mp hexit
    have hclose : _ = (Echo.Server.handleCqe s.server.listenFd (ofCqe cqe)).close :=
      congrArg Outcome.ended hsame
    have hqueued := queued_of_outcome hsame
    right
    rw [echo_step_handle hpc hcq, Echo.Server.State.handled]
    have hlisten : (echo s).listenFd = s.server.listenFd := rfl
    rw [hlisten, hexit]
    dsimp only
    rw [Echo.Server.State.react, ← hclose, ← hqueued]
    simp only [Sys.handled, hcq, hpc, Lockstep.outcome]
    cases (handleCqe s.server.listenFd s.server.connections cqe).ended with
    | none => simp [echo, hpc]
    | some fd =>
      dsimp only
      rw [echo_shutdown]
      simp [echo, hpc]

section Kernel

variable {sqe : Sqe} {held : Option Nat} {i : Nat}

theorem echo_inflight (hsqe : s.server.inflight[i]? = some sqe) (hheld : s.held[i]? = some held) :
    (echo s).inflight[i]? = some ⟨ofSqe sqe, held⟩ :=
  served_getElem? _ hsqe hheld

theorem echo_submitted (hsqe : s.server.inflight[s.held.length]? = some sqe) :
    (echo s).submitted =
      ofSqe sqe :: (s.server.inflight.drop (s.held.length + 1)).map ofSqe := by
  simp only [echo]
  rw [waiting_eq_cons hsqe, List.map_cons]

theorem echo_outcome {u : Sys} {res : Int} {data : List UInt8} {flags : Nat}
    (h : Done s sqe res held data flags u)
    (hfresh : sqe.userData.type = .accept → 0 ≤ res →
      res.toNat ≠ s.server.listenFd ∧ res.toNat ∉ s.conns.map Conn.fd) :
    Echo.Server.outcome (echo s) ⟨ofSqe sqe, held⟩ res data = some (flags, echo u) := by
  have hop : (ofSqe sqe).op = view sqe.op := entry_op _
  unfold Echo.Server.outcome
  cases h with
  | accepted haccept hres =>
    rcases hfresh (by rw [type_of_op, haccept]; rfl) hres with ⟨hlisten, hnew⟩
    have hfree : ¬(res.toNat = (echo s).listenFd ∨ res.toNat ∈ (echo s).conns.map Conn.fd) :=
      not_or.mpr ⟨hlisten, hnew⟩
    simp only [hop, haccept, view]
    rw [if_neg (not_not.mpr rfl), if_neg (Int.not_lt.mpr hres), if_neg hfree]
    rfl
  | acceptFailed haccept hres =>
    simp only [hop, haccept, view]
    rw [if_neg (not_not.mpr rfl), if_pos hres]
  | received hrecv hbufs hdata hlen =>
    simp only [hop, hrecv, view]
    rw [if_pos ⟨hbufs, hdata, hlen⟩]
    rfl
  | recvFailed hrecv hres hbufs =>
    simp only [hop, hrecv, view]
    rw [if_pos ⟨trivial, hres, hbufs⟩]
  | sent hsend hres hle =>
    simp only [hop, hsend, view]
    rw [if_pos ⟨trivial, hres, hle⟩]
    rfl

end Kernel

theorem echo_step (hwired : Matching.Wired s.server) (htracks : Tracks s)
    (hfits : ∀ cqe ∈ (echo s).cq, cqe.userData.type = .read → cqe.res ≤ maxMessageLen)
    {event : Transfers.Event} (h : Transfers.Step s event t) :
    echo t = echo s ∨ Echo.Server.step (echo s) (ofEvent s event) = some (echo t) := by
  -- Only where this server crashes does the other one stay where it is.
  cases h with
  | submitted hserver =>
    cases Server.step_sound hserver with
    | submitted hpc =>
      right
      simp only [ofEvent, Echo.Server.step, echo, hpc, ofPc, if_true]
      rw [served_append _ _ htracks.issued, waiting_append _ htracks.issued, List.map_append,
        List.drop_eq_nil_of_le (by simp), List.take_of_length_le (by simp), List.map_nil]
  | handled hserver => exact echo_handled hwired htracks hfits hserver
  | passEnded hserver =>
    cases Server.step_sound hserver with
    | passEnded hpc hcq =>
      right
      simp only [ofEvent, Echo.Server.step, echo, hpc, hcq, ofPc, List.map_nil, and_self, if_true]
  | issued hsqe htype =>
    right
    simp only [ofEvent, Echo.Server.step]
    rw [echo_submitted hsqe]
    dsimp only
    rw [ofSqe_type, if_neg htype]
    simp only [echo]
    rw [served_concat _ _ hsqe, waiting_concat]
  | @provided sqe bid len nr res server hsqe hop hserver =>
    have hecho : (ofSqe sqe).op = .provideBuffers bid len nr := by
      rw [ofSqe, entry_op, hop]
      rfl
    cases Server.step_sound hserver with
    | @completed _ _ _ own hown hpossible =>
      rw [hsqe] at hown
      cases hown
      right
      simp only [ofEvent, Echo.Server.step]
      rw [echo_submitted hsqe]
      dsimp only
      rw [hecho]
      simp only [echo]
      rw [served_eraseIdx_length, waiting_eraseIdx_length, List.map_append]
      rfl
  | took hsqe hheld htype hbid =>
    right
    simp only [ofEvent, Echo.Server.step]
    rw [echo_inflight hsqe hheld]
    dsimp only
    rw [ofSqe_type, if_pos ⟨htype, hbid⟩]
    simp only [echo]
    rw [served_set _ _ hsqe, waiting_set]
  | gaveBack hsqe hheld htype =>
    right
    simp only [ofEvent, Echo.Server.step]
    rw [echo_inflight hsqe hheld]
    dsimp only
    rw [ofSqe_type, if_pos htype]
    simp only [echo]
    rw [served_set _ _ hsqe, waiting_set]
  | @completed i flags res data sqe held u server hsqe hheld hdone hserver =>
    cases Server.step_sound hserver with
    | @completed _ _ _ own hown hpossible =>
      rw [hsqe] at hown
      cases hown
      right
      have hlt : i < s.held.length := List.getElem?_eq_some_iff.mp hheld |>.1
      simp only [ofEvent, Echo.Server.step]
      rw [echo_inflight hsqe hheld]
      dsimp only
      rw [echo_outcome hdone (htracks.fresh hpossible)]
      rcases hdone.same with ⟨hserver, hheld⟩
      simp only [Option.map_some, Echo.Server.State.post, echo, hserver, hheld]
      rw [served_eraseIdx, waiting_eraseIdx hlt, List.map_append]
      rfl

end Steps

section Runs

variable {listenFd : Nat} {s t : Sys}

theorem echo_init (listenFd : Nat) :
    echo (Sys.init listenFd) = Echo.Server.State.init listenFd := by
  simp [echo, Sys.init, Server.State.init, Echo.Server.State.init, served, waiting, ofPc, ofSqe,
    entry, addAccept]

theorem tracks_init (listenFd : Nat) : Tracks (Sys.init listenFd) :=
  ⟨Nat.le_refl 0, fun _ h => absurd h List.not_mem_nil, fun _ h => absurd h List.not_mem_nil⟩

theorem tracks_of_reachable (h : Reachable (restrict Sound Transfers.step) (Sys.init listenFd) s) :
    Tracks s := by
  apply h.invariant Tracks (tracks_init listenFd)
  intro s event t _ hs hstep
  rcases restrict_eq_some.mp hstep with ⟨hsound, hnext⟩
  exact hs.step hsound (Transfers.step_sound hnext)

theorem follow {event : Transfers.Event}
    (h : Reachable (restrict Sound Transfers.step) (Sys.init listenFd) s)
    (hecho : Reachable Echo.Server.step (Echo.Server.State.init listenFd) (echo s))
    (hstep : Transfers.step s event = some t) :
    echo t = echo s ∨ Echo.Server.step (echo s) (ofEvent s event) = some (echo t) :=
  echo_step (wired_of_reachable (server_reachable h.of_restrict)) (tracks_of_reachable h)
    (message_fits hecho) (Transfers.step_sound hstep)

/-- As long as no receive fails, the coroutine server and its kernel are always in a state of the
server without coroutines and its kernel: the same operations are pending, the same buffers are
in the group and hold the same bytes, and each connection has received and been sent the same. -/
theorem refines (h : Reachable (restrict Sound Transfers.step) (Sys.init listenFd) s) :
    Reachable Echo.Server.step (Echo.Server.State.init listenFd) (echo s) := by
  apply h.invariant fun s => Reachable Echo.Server.step (Echo.Server.State.init listenFd) (echo s)
  · rw [echo_init]
    exact Reachable.refl _ _
  · intro s event t hreach hs hstep
    rcases follow hreach hs (restrict_eq_some.mp hstep).2 with hsame | hnext
    · exact hsame ▸ hs
    · exact hs.tail hnext

/-- No receive fails, each reports a buffer, and every send sends all that it is asked to. -/
def Steady (s : Sys) (event : Transfers.Event) : Prop :=
  Sound s event ∧ Echo.Fidelity.Faithful (echo s) (ofEvent s event)

instance (s : Sys) (event : Transfers.Event) : Decidable (Steady s event) :=
  inferInstanceAs (Decidable (_ ∧ _))

theorem refines_steady (h : Reachable (restrict Steady Transfers.step) (Sys.init listenFd) s) :
    Reachable (restrict Echo.Fidelity.Faithful Echo.Server.step)
      (Echo.Server.State.init listenFd) (echo s) := by
  apply h.invariant fun s => Reachable (restrict Echo.Fidelity.Faithful Echo.Server.step)
    (Echo.Server.State.init listenFd) (echo s)
  · rw [echo_init]
    exact Reachable.refl _ _
  · intro s event t hreach hs hstep
    rcases restrict_eq_some.mp hstep with ⟨⟨-, hfaithful⟩, hnext⟩
    have hsound := hreach.restrict_mono (fun _ _ (h : Steady _ _) => h.1)
    rcases follow hsound hs.of_restrict hnext with hsame | hother
    · exact hsame ▸ hs
    · exact hs.tail (restrict_eq_some.mpr ⟨hfaithful, hother⟩)

theorem owes_of_recv {sqe : Sqe} {fd len : Nat} (hsqe : sqe ∈ s.server.sq ++ s.server.inflight)
    (hop : sqe.op = .recv fd len) : Echo.Fidelity.StateOwes (echo s) fd [] := by
  have howed : Echo.Fidelity.owedOp s.bufs (ofSqe sqe).op = some (fd, []) := by
    rw [ofSqe, entry_op, hop]
    rfl
  rcases List.mem_append.mp hsqe with hsqe | hsqe
  · exact .queued (List.mem_append_right _ (List.mem_map_of_mem hsqe)) howed
  · rcases mem_served_or_waiting (fun sqe held => (⟨ofSqe sqe, held⟩ : Echo.Server.Issued)) hsqe
      with ⟨held, hissued⟩ | hwaiting
    · exact .issued hissued howed
    · exact .queued (List.mem_append_left _ (List.mem_map_of_mem hwaiting)) howed

/-- While a coroutine waits for the receive that it has queued, its client has been sent back all
that was received from it and nothing else. -/
theorem echoes_while_receiving {sqe : Sqe} {fd len : Nat}
    (h : Reachable (restrict Steady Transfers.step) (Sys.init listenFd) s)
    (hsqe : sqe ∈ s.server.sq ++ s.server.inflight) (hop : sqe.op = .recv fd len) :
    (∃ c ∈ s.conns, c.fd = fd) ∧ ∀ c ∈ s.conns, c.fd = fd → c.sent = c.received := by
  have hecho := refines_steady h
  have howes := owes_of_recv hsqe hop
  constructor
  · exact List.mem_map.mp
      ((Echo.Pending.wired_of_reachable hecho.of_restrict).mem_fds howes.weight)
  · intro c hc hfd
    have hall := Echo.Fidelity.echoed_of_reachable hecho fd [] howes c hc hfd
    rw [hall, List.append_nil]

end Runs

def oneMessage : List Transfers.Event :=
  connect 5 ++ [.take 0 7, .complete 0 2 [104, 105], .handle, .endPass, .submit, .issue,
    .complete 1 2 [], .handle, .endPass, .submit, .provide 0, .issue]

theorem refines_one_message : ∃ s,
    Reachable (restrict Sound Transfers.step) (Sys.init 3) s ∧
      s.conns = [⟨0, 5, [104, 105], [104, 105]⟩] ∧
      Reachable Echo.Server.step (Echo.Server.State.init 3) (echo s) := by
  have hrun : (run (restrict Sound Transfers.step) (Sys.init 3) oneMessage).map Sys.conns =
      some [⟨0, 5, [104, 105], [104, 105]⟩] := by
    decide +kernel
  rcases Reachable.of_view hrun with ⟨s, hreach, hconns⟩
  exact ⟨s, hreach, hconns, refines hreach⟩

theorem echoes_while_receiving_one_message : ∃ s,
    Reachable (restrict Steady Transfers.step) (Sys.init 3) s ∧
      s.conns.map Conn.received = [[104, 105]] ∧
      ∀ c ∈ s.conns, c.fd = 5 → c.sent = c.received := by
  have hrun : (run (restrict Steady Transfers.step) (Sys.init 3) oneMessage).map
      (fun s => (s.conns.map Conn.received,
        decide (∃ sqe ∈ s.server.sq ++ s.server.inflight, sqe.op = .recv 5 maxMessageLen))) =
      some ([[104, 105]], true) := by
    decide +kernel
  rcases Reachable.of_view hrun with ⟨s, hreach, hview⟩
  simp only [Prod.mk.injEq, decide_eq_true_eq] at hview
  rcases hview with ⟨hreceived, sqe, hsqe, hop⟩
  exact ⟨s, hreach, hreceived, (echoes_while_receiving hreach hsqe hop).2⟩

end IoWrapper.CoroEcho.Refinement
