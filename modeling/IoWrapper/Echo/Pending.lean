import IoWrapper.Echo.Accounting

/-! What the echo server is waiting for: one accept at any time, and one
operation, a receive or a send, on each connection. So a connection is closed
once, with nothing left pending on its descriptor, whatever is reused. -/
namespace IoWrapper.Echo.Pending
open Core.Machine Core.Pool Server Accounting

def indicator (p : Nat → Bool) (fd : Nat) : Nat := if p fd then 1 else 0

def isAccept : Op → Nat
  | .accept _ => 1
  | .recv _ _ | .send _ _ _ | .provideBuffers _ _ _ => 0

def onFd (p : Nat → Bool) : Op → Nat
  | .recv fd _ => indicator p fd
  | .send fd _ _ => indicator p fd
  | .accept _ | .provideBuffers _ _ _ => 0

def returned (p : Nat → Bool) (cqe : Cqe) : Nat :=
  match cqe.sqe.op with
  | .accept _ => if 0 ≤ cqe.res then indicator p cqe.res.toNat else 0
  | .recv _ _ | .send _ _ _ | .provideBuffers _ _ _ => 0

def acceptsPending (s : State) : Nat := opWeigh isAccept (fun _ => 0) s

def pendingOn (s : State) (p : Nat → Bool) : Nat := opWeigh (onFd p) (fun _ => 0) s

structure Wired (s : State) : Prop where
  accepts : acceptsPending s = 1
  ties : ∀ p, opWeigh (onFd p) (returned p) s = total (indicator p) (s.conns.map Conn.fd)
  distinct : (s.conns.map Conn.fd).Nodup
  ledger : (s.closes ++ (s.conns.map Conn.id).map some).Perm
    ((List.range s.accepted).map some)

theorem map_onConn {β : Type} (field : Conn → β) (fd : Nat) (update : Conn → Conn)
    (h : ∀ c, field (update c) = field c) (conns : List Conn) :
    (onConn fd update conns).map field = conns.map field := by
  unfold onConn
  rw [List.map_map]
  apply List.map_congr_left
  intro c _
  simp only [Function.comp_apply]
  split
  · exact h c
  · rfl

@[simp] theorem map_fd_receive (s : State) (fd bid : Nat) (data : List UInt8) :
    (s.receive fd bid data).conns.map Conn.fd = s.conns.map Conn.fd :=
  map_onConn Conn.fd fd (Conn.receive data) (fun _ => rfl) s.conns

@[simp] theorem map_id_receive (s : State) (fd bid : Nat) (data : List UInt8) :
    (s.receive fd bid data).conns.map Conn.id = s.conns.map Conn.id :=
  map_onConn Conn.id fd (Conn.receive data) (fun _ => rfl) s.conns

@[simp] theorem map_fd_transmit (s : State) (fd bid count : Nat) :
    (s.transmit fd bid count).conns.map Conn.fd = s.conns.map Conn.fd :=
  map_onConn Conn.fd fd (Conn.transmit ((s.bufs bid).take count)) (fun _ => rfl) s.conns

@[simp] theorem map_id_transmit (s : State) (fd bid count : Nat) :
    (s.transmit fd bid count).conns.map Conn.id = s.conns.map Conn.id :=
  map_onConn Conn.id fd (Conn.transmit ((s.bufs bid).take count)) (fun _ => rfl) s.conns

theorem Wired.of_same {s t : State} (hs : Wired s)
    (hfds : t.conns.map Conn.fd = s.conns.map Conn.fd)
    (hids : t.conns.map Conn.id = s.conns.map Conn.id) (hcloses : t.closes = s.closes)
    (haccepted : t.accepted = s.accepted) (haccepts : acceptsPending t = acceptsPending s)
    (hties : ∀ p, opWeigh (onFd p) (returned p) t = opWeigh (onFd p) (returned p) s) :
    Wired t := by
  constructor
  case accepts => exact haccepts.trans hs.accepts
  case ties =>
    intro p
    rw [hties, hfds]
    exact hs.ties p
  case distinct =>
    rw [hfds]
    exact hs.distinct
  case ledger =>
    rw [hcloses, hids, haccepted]
    exact hs.ledger

theorem Wired.answered {s : State} {cqe : Cqe} {rest : List Cqe} (hs : Wired s)
    (hcq : s.cq = cqe :: rest) (more : List Sqe)
    (haccepts : total (fun sqe => isAccept sqe.op) more = isAccept cqe.sqe.op)
    (hties : ∀ p, total (fun sqe => onFd p sqe.op) more = onFd p cqe.sqe.op + returned p cqe) :
    Wired (s.answered rest more) := by
  refine hs.of_same rfl rfl rfl rfl ?_ fun p => ?_
  · have hmove := opWeigh_answered isAccept (fun _ => 0) hcq more
    unfold acceptsPending
    omega
  · have hmove := opWeigh_answered (onFd p) (returned p) hcq more
    have := hties p
    omega

theorem Wired.posted {s u : State} {i : Nat} {f : Issued} (hs : Wired s) (res : Int)
    (flags : Nat) (hf : u.inflight[i]? = some f)
    (hfds : u.conns.map Conn.fd = s.conns.map Conn.fd)
    (hids : u.conns.map Conn.id = s.conns.map Conn.id) (hcloses : u.closes = s.closes)
    (haccepted : u.accepted = s.accepted)
    (hsame : ∀ weight extra, opWeigh weight extra u = opWeigh weight extra s)
    (hreturned : ∀ p, returned p ⟨f.sqe, res, flags⟩ = 0) :
    Wired (u.post i ⟨f.sqe, res, flags⟩) := by
  refine hs.of_same hfds hids hcloses haccepted ?_ fun p => ?_
  · unfold acceptsPending
    rw [opWeigh_post _ _ res flags hf, hsame, Nat.add_zero]
  · rw [opWeigh_post _ _ res flags hf, hsame, hreturned, Nat.add_zero]

theorem Wired.accepted {s : State} {i fd : Nat} {f : Issued} {res : Int} (hs : Wired s)
    (hf : s.inflight[i]? = some f) (hop : f.sqe.op = .accept fd) (hres : 0 ≤ res)
    (hfresh : res.toNat ∉ s.conns.map Conn.fd) :
    Wired ((s.accept res.toNat).post i ⟨f.sqe, res, 0⟩) := by
  have hf' : (s.accept res.toNat).inflight[i]? = some f := hf
  have hfds : ((s.accept res.toNat).post i ⟨f.sqe, res, 0⟩).conns.map Conn.fd =
      s.conns.map Conn.fd ++ [res.toNat] := by
    simp [State.post, State.accept]
  constructor
  case accepts =>
    unfold acceptsPending
    rw [opWeigh_post _ _ res 0 hf']
    exact hs.accepts
  case ties =>
    intro p
    have hsame : opWeigh (onFd p) (returned p) (s.accept res.toNat) =
        opWeigh (onFd p) (returned p) s := rfl
    rw [opWeigh_post _ _ res 0 hf', hsame, hs.ties p, hfds]
    simp [returned, hop, hres]
  case distinct =>
    rw [hfds, List.nodup_append_comm]
    exact List.nodup_cons.mpr ⟨hfresh, hs.distinct⟩
  case ledger =>
    have hids : ((s.accept res.toNat).post i ⟨f.sqe, res, 0⟩).conns.map Conn.id =
        s.conns.map Conn.id ++ [s.accepted] := by
      simp [State.post, State.accept]
    rw [hids, List.map_append, ← List.append_assoc]
    simp only [State.post, State.accept, List.range_succ, List.map_append, List.map_cons,
      List.map_nil]
    exact hs.ledger.append_right _

theorem Wired.mem_fds {s : State} (hs : Wired s) {fd : Nat}
    (h : 0 < opWeigh (onFd (· == fd)) (returned (· == fd)) s) :
    fd ∈ s.conns.map Conn.fd := by
  rw [hs.ties] at h
  by_contra hnot
  have hzero : total (indicator (· == fd)) (s.conns.map Conn.fd) = 0 := by
    rw [total_eq_zero_iff]
    intro own hown
    have hne : own ≠ fd := fun heq => hnot (heq ▸ hown)
    simp [indicator, hne]
  omega

theorem close_of_mem {s : State} {fd : Nat} (h : fd ∈ s.conns.map Conn.fd) :
    ∃ i c, s.conns[i]? = some c ∧ c.fd = fd ∧
      s.close fd = { s with
        conns := s.conns.eraseIdx i
        closes := s.closes ++ [some c.id] } := by
  rcases List.mem_map.mp h with ⟨c, hc, hfd⟩
  cases hfind : s.conns.findIdx? fun c => c.fd == fd with
  | none =>
    have := List.findIdx?_eq_none_iff.mp hfind c hc
    simp [hfd] at this
  | some i =>
    rcases List.findIdx?_eq_some_iff_getElem.mp hfind with ⟨hlt, hown, -⟩
    refine ⟨i, s.conns[i], List.getElem?_eq_getElem hlt, by simpa using hown, ?_⟩
    simp [State.close, hfind, hlt]

theorem Wired.hungUp {s : State} {cqe : Cqe} {rest : List Cqe} {fd len : Nat} (hs : Wired s)
    (hcq : s.cq = cqe :: rest) (hop : cqe.sqe.op = .recv fd len) (bid gid : Nat) :
    ∃ c ∈ s.conns, c.fd = fd ∧
      ((s.answered rest [addProvideBuf bid gid]).close fd).closes = s.closes ++ [some c.id] ∧
      fd ∉ ((s.answered rest [addProvideBuf bid gid]).close fd).conns.map Conn.fd ∧
      Wired ((s.answered rest [addProvideBuf bid gid]).close fd) := by
  have hmove : ∀ p, opWeigh (onFd p) (returned p) (s.answered rest [addProvideBuf bid gid]) +
      indicator p fd = opWeigh (onFd p) (returned p) s := by
    intro p
    have hmove := opWeigh_answered (onFd p) (returned p) hcq [addProvideBuf bid gid]
    simpa [onFd, returned, hop] using hmove
  have hmem : fd ∈ s.conns.map Conn.fd := by
    apply hs.mem_fds
    have := hmove (· == fd)
    simp only [indicator, beq_self_eq_true, if_true] at this
    omega
  have hmem' : fd ∈ (s.answered rest [addProvideBuf bid gid]).conns.map Conn.fd := hmem
  rcases close_of_mem hmem' with ⟨i, c, hi, hfd, hclose⟩
  have hi' : s.conns[i]? = some c := hi
  have hrest : (s.conns.map Conn.fd).Perm (fd :: (s.conns.eraseIdx i).map Conn.fd) := by
    rw [← hfd, ← List.map_cons]
    exact (perm_eraseIdx hi').map Conn.fd
  have hfds : ((s.answered rest [addProvideBuf bid gid]).close fd).conns.map Conn.fd =
      (s.conns.eraseIdx i).map Conn.fd := by
    rw [hclose]
    rfl
  have hdistinct := List.nodup_cons.mp (hrest.nodup_iff.mp hs.distinct)
  refine ⟨c, List.mem_of_getElem? hi', hfd, by rw [hclose]; rfl, ?_, ?_⟩
  · rw [hfds]
    exact hdistinct.1
  constructor
  case accepts =>
    have haccepts := opWeigh_answered isAccept (fun _ => 0) hcq [addProvideBuf bid gid]
    simp only [isAccept, hop, addProvideBuf_op, total_cons, total_nil] at haccepts
    unfold acceptsPending
    rw [opWeigh_close]
    exact haccepts.trans hs.accepts
  case ties =>
    intro p
    have hties := hs.ties p
    have htotal : total (indicator p) (s.conns.map Conn.fd) =
        indicator p fd + total (indicator p) ((s.conns.eraseIdx i).map Conn.fd) := by
      rw [← total_cons]
      exact (hrest.map (indicator p)).sum_nat
    have := hmove p
    rw [opWeigh_close, hfds]
    omega
  case distinct =>
    rw [hfds]
    exact hdistinct.2
  case ledger =>
    have hids : (some c.id :: ((s.conns.eraseIdx i).map Conn.id).map some).Perm
        ((s.conns.map Conn.id).map some) := by
      rw [← List.map_cons, ← List.map_cons]
      exact (((perm_eraseIdx hi').map Conn.id).map some).symm
    rw [hclose]
    simp only [State.answered, List.append_assoc, List.singleton_append]
    exact (hids.append_left s.closes).trans hs.ledger

theorem Wired.step {s t : State} {event : Event} (hs : Wired s) (h : Step s event t) :
    Wired t := by
  cases h with
  | submitted =>
    exact hs.of_same rfl rfl rfl rfl (opWeigh_submitted _ _ _ _ _)
      fun _ => opWeigh_submitted _ _ _ _ _
  | passEnded | exited => exact hs.of_same rfl rfl rfl rfl rfl fun _ => rfl
  | handledProvide hpc hcq hop =>
    exact hs.answered hcq [] (by simp [isAccept, hop]) (by simp [onFd, returned, hop])
  | handledAccept hpc hcq hop hres =>
    exact hs.answered hcq _ (by simp [isAccept, hop])
      (by simp [onFd, returned, hop, hres])
  | handledAcceptError hpc hcq hop hres =>
    exact hs.answered hcq _ (by simp [isAccept, hop])
      (by simp [onFd, returned, hop, Int.not_le.mpr hres])
  | handledHangup hpc hcq hop hres hbufs =>
    rcases hs.hungUp hcq hop _ _ with ⟨c, -, -, -, -, ht⟩
    exact ht
  | handledRead hpc hcq hop hres =>
    exact hs.answered hcq _ (by simp [isAccept, hop])
      (by simp [onFd, returned, hop])
  | handledWrite hpc hcq hop =>
    exact hs.answered hcq _ (by simp [isAccept, hop])
      (by simp [onFd, returned, hop])
  | issued hsub =>
    exact hs.of_same rfl rfl rfl rfl (opWeigh_issued _ _ hsub) fun _ => opWeigh_issued _ _ hsub
  | provided hsub hop =>
    refine hs.of_same rfl rfl rfl rfl ?_ fun p => ?_
    · exact opWeigh_provided _ _ _ _ hsub
    · rw [opWeigh_provided _ _ _ _ hsub]
      simp [returned, hop]
  | took hf hop =>
    exact hs.of_same rfl rfl rfl rfl (opWeigh_lent _ _ _ _ hf) fun _ => opWeigh_lent _ _ _ _ hf
  | gaveBack hf hop =>
    exact hs.of_same rfl rfl rfl rfl (opWeigh_lent _ _ _ _ hf) fun _ => opWeigh_lent _ _ _ _ hf
  | accepted hf hop hres hfresh => exact hs.accepted hf hop hres hfresh
  | acceptFailed hf hop hres =>
    exact hs.posted _ _ hf rfl rfl rfl rfl (fun _ _ => rfl)
      (by simp [returned, hop, Int.not_le.mpr hres])
  | @received i fd len bid sqe res data hf hop hbufs hdata hlen =>
    exact hs.posted res _ (show (s.receive fd bid data).inflight[i]? = _ from hf)
      (map_fd_receive ..) (map_id_receive ..) rfl rfl (fun _ _ => rfl) (by simp [returned, hop])
  | recvFailed hf hop =>
    exact hs.posted _ _ hf rfl rfl rfl rfl (fun _ _ => rfl) (by simp [returned, hop])
  | @sent i fd bid len f res hf hop hres hle =>
    exact hs.posted res _ (show (s.transmit fd bid res.toNat).inflight[i]? = _ from hf)
      (map_fd_transmit ..) (map_id_transmit ..) rfl rfl (fun _ _ => rfl)
      (by simp [returned, hop])

theorem wired_init (listenFd : Nat) : Wired (State.init listenFd) := by
  refine ⟨rfl, fun p => rfl, List.nodup_nil, List.Perm.refl _⟩

theorem wired_of_reachable {listenFd : Nat} {s : State}
    (h : Reachable step (State.init listenFd) s) : Wired s :=
  h.invariant Wired (wired_init listenFd) fun _ _ _ _ hs hstep => hs.step (step_sound hstep)

/-- The completion of the accept that opened the descriptor has been processed. -/
def Serving (s : State) (fd : Nat) : Prop :=
  fd ∈ s.conns.map Conn.fd ∧
    ∀ cqe ∈ s.cq, cqe.userData.type = .accept → cqe.res ≠ fd

instance (s : State) (fd : Nat) : Decidable (Serving s fd) :=
  inferInstanceAs (Decidable (_ ∧ _))

theorem opWeigh_eq_pendingOn (s : State) (p : Nat → Bool) :
    opWeigh (onFd p) (returned p) s = pendingOn s p + total (returned p) s.cq := by
  unfold pendingOn opWeigh weigh
  rw [total_add]
  simp only [Nat.add_zero]
  omega

theorem total_indicator (fds : List Nat) (fd : Nat) :
    total (indicator (· == fd)) fds = fds.count fd := by
  rw [← total_eq_count]
  unfold indicator
  simp only [beq_iff_eq]

theorem returned_of_type_accept {cqe : Cqe} {fd : Nat} (htype : cqe.userData.type = .accept)
    (hres : cqe.res = fd) : returned (· == fd) cqe = 1 := by
  unfold returned
  rw [Cqe.userData, cqe.sqe.described] at htype
  cases hop : cqe.sqe.op with
  | accept own => simp [hres, indicator]
  | _ =>
    rw [hop] at htype
    cases htype

theorem returned_eq_zero {cqe : Cqe} {fd : Nat}
    (h : cqe.userData.type = .accept → cqe.res ≠ fd) : returned (· == fd) cqe = 0 := by
  unfold returned
  rw [Cqe.userData, cqe.sqe.described] at h
  cases hop : cqe.sqe.op with
  | accept own =>
    rw [hop] at h
    have hne := h rfl
    simp only [indicator, beq_iff_eq]
    split
    · rw [if_neg (by omega)]
    · rfl
  | _ => rfl

theorem Wired.pendingOn_eq {s : State} (hs : Wired s) (fd : Nat) :
    pendingOn s (· == fd) = if Serving s fd then 1 else 0 := by
  have hties := hs.ties (· == fd)
  rw [opWeigh_eq_pendingOn, total_indicator] at hties
  by_cases hopen : fd ∈ s.conns.map Conn.fd
  · rw [List.count_eq_one_of_mem hs.distinct hopen] at hties
    by_cases hnew : ∀ cqe ∈ s.cq, cqe.userData.type = .accept → cqe.res ≠ fd
    · rw [if_pos ⟨hopen, hnew⟩]
      have hzero : total (returned (· == fd)) s.cq = 0 := by
        rw [total_eq_zero_iff]
        exact fun cqe hcqe => returned_eq_zero (hnew cqe hcqe)
      omega
    · rw [if_neg fun hserving => hnew hserving.2]
      push Not at hnew
      rcases hnew with ⟨cqe, hcqe, htype, hres⟩
      have hle := le_total_of_mem (returned (· == fd)) hcqe
      rw [returned_of_type_accept htype hres] at hle
      omega
  · rw [if_neg fun hserving => hopen hserving.1]
    rw [List.count_eq_zero_of_not_mem hopen] at hties
    omega

/-- Over every run: one accept is pending; there is one pending receive or send
on each connection being served and none elsewhere; each connection accepted so
far is open or has been closed once; and a close leaves nothing pending on the
descriptor it closes. -/
theorem one_pending {listenFd : Nat} {s : State} (h : Reachable step (State.init listenFd) s) :
    acceptsPending s = 1 ∧
      (∀ fd, pendingOn s (· == fd) = if Serving s fd then 1 else 0) ∧
      (s.closes ++ (s.conns.map Conn.id).map some).Perm ((List.range s.accepted).map some) ∧
      ∀ t, step s .handle = some t → t.closes ≠ s.closes →
        ∃ c ∈ s.conns, t.closes = s.closes ++ [some c.id] ∧ pendingOn t (· == c.fd) = 0 := by
  have hs := wired_of_reachable h
  refine ⟨hs.accepts, hs.pendingOn_eq, hs.ledger, fun t hstep hcloses => ?_⟩
  cases step_sound hstep with
  | handledHangup hpc hcq hop hres hbufs =>
    rcases hs.hungUp hcq hop _ _ with ⟨c, hc, hfd, hclosed, hgone, ht⟩
    refine ⟨c, hc, hclosed, ?_⟩
    rw [ht.pendingOn_eq, if_neg]
    rw [hfd]
    exact fun hserving => hgone hserving.1
  | _ => exact absurd rfl hcloses

theorem one_pending_reused : ∃ s, Reachable step (State.init 3) s ∧ s.closes = [some 0] ∧
    s.conns.map Conn.id = [1] ∧ Serving s 5 ∧ pendingOn s (· == 5) = 1 := by
  have hrun : (run step (State.init 3) (connect 5 ++ ([.complete 0 0 [], .handle, .endPass,
      .submit 1, .provide 0, .complete 0 5 [], .handle, .handle] : List Event))).map
        (fun s => (s.closes, s.conns.map Conn.id, decide (Serving s 5))) =
      some ([some 0], [1], true) := by
    decide +kernel
  rcases Reachable.of_view hrun with ⟨s, hreach, hview⟩
  simp only [Prod.mk.injEq, decide_eq_true_eq] at hview
  refine ⟨s, hreach, hview.1, hview.2.1, hview.2.2, ?_⟩
  rw [(one_pending hreach).2.1 5, if_pos hview.2.2]

end IoWrapper.Echo.Pending
