import IoWrapper.CoroEcho.Server

/-! Every coroutine waits for one operation. The operation is a receive when the
coroutine is suspended in `echo_read` and a send when it is suspended in `echo_write`, so
that a completion resumes it where the operation was started. -/
namespace IoWrapper.CoroEcho.Matching
open Core.Machine Core.Tables Core.Pool Server
open Echo.Server (Op maxMessageLen iosqeBufferSelect enobufs noBufsText provideErrorText)

def onFd (fd : Nat) : Op → Bool
  | .recv own _ => fd == own
  | .send own _ _ => fd == own
  | .accept _ | .provideBuffers _ _ _ => false

inductive Awaits (task : ConnTask) : Op → Prop where
  | read (len : Nat) (hpoint : task.point = .echoRead) :
      Awaits task (.recv task.promise.connInfo.fd len)
  | write (len : Nat) (hpoint : task.point = .echoWrite) :
      Awaits task (.send task.promise.connInfo.fd task.promise.connInfo.bid len)

def Owns (task : ConnTask) (fd : Nat) : Prop := task.fd = fd ∧ task.promise.connInfo.fd = fd

structure Matched (ops : List Op) (connections : Table ConnTask) : Prop where
  awaited : ∀ fd, ∀ op ∈ ops, onFd fd op →
    ∃ task, connections.lookup fd = some task ∧ Awaits task op
  owned : ∀ fd task, connections.lookup fd = some task → Owns task fd
  single : ∀ fd, ops.countP (onFd fd) ≤ 1
  served : ∀ fd task, connections.lookup fd = some task → ∃ op ∈ ops, onFd fd op

section Matched

variable {ops ops' : List Op} {connections connections' : Table ConnTask} {op : Op} {fd : Nat}
  {task : ConnTask}

theorem Matched.perm (h : Matched ops connections) (hperm : ops'.Perm ops) :
    Matched ops' connections := by
  refine ⟨fun fd op hop => h.awaited fd op (hperm.mem_iff.mp hop), h.owned, ?_, ?_⟩
  · intro fd
    rw [hperm.countP_eq]
    exact h.single fd
  · intro fd task htask
    rcases h.served fd task htask with ⟨op, hop, hon⟩
    exact ⟨op, hperm.mem_iff.mpr hop, hon⟩

theorem Matched.congr (h : Matched ops connections)
    (hsame : ∀ fd, connections'.lookup fd = connections.lookup fd) :
    Matched ops connections' := by
  refine ⟨?_, ?_, h.single, ?_⟩
  · intro fd op hop hon
    rw [hsame]
    exact h.awaited fd op hop hon
  · intro fd task htask
    rw [hsame] at htask
    exact h.owned fd task htask
  · intro fd task htask
    rw [hsame] at htask
    exact h.served fd task htask

theorem Matched.cons_other (h : Matched ops connections) (hother : ∀ fd, onFd fd op = false) :
    Matched (op :: ops) connections := by
  refine ⟨?_, h.owned, ?_, ?_⟩
  · intro fd own hown hon
    rcases List.mem_cons.mp hown with heq | hown
    · rw [heq, hother] at hon
      cases hon
    · exact h.awaited fd own hown hon
  · intro fd
    rw [List.countP_cons, hother]
    exact h.single fd
  · intro fd task htask
    rcases h.served fd task htask with ⟨own, hown, hon⟩
    exact ⟨own, List.mem_cons_of_mem op hown, hon⟩

theorem Matched.of_cons_other (h : Matched (op :: ops) connections)
    (hother : ∀ fd, onFd fd op = false) : Matched ops connections := by
  refine ⟨fun fd own hown => h.awaited fd own (List.mem_cons_of_mem op hown), h.owned, ?_, ?_⟩
  · intro fd
    have := h.single fd
    rw [List.countP_cons, hother] at this
    exact this
  · intro fd task htask
    rcases h.served fd task htask with ⟨own, hown, hon⟩
    rcases List.mem_cons.mp hown with heq | hown
    · rw [heq, hother] at hon
      cases hon
    · exact ⟨own, hown, hon⟩

theorem Matched.enter (h : Matched ops connections) (hnew : fd ∉ connections)
    (hop : ∀ own, onFd own op = (own == fd)) (hawaits : Awaits task op) (howns : Owns task fd) :
    Matched (op :: ops) (connections.insert fd task) := by
  have hnone := AList.lookup_eq_none.mpr hnew
  have hquiet : ∀ own ∈ ops, onFd fd own = false := by
    intro own hown
    rw [← Bool.not_eq_true]
    intro hon
    rcases h.awaited fd own hown hon with ⟨other, hother, -⟩
    rw [hnone] at hother
    cases hother
  constructor
  case awaited =>
    intro own other hother hon
    rcases List.mem_cons.mp hother with heq | hother
    · rw [heq, hop, beq_iff_eq] at hon
      rw [heq, hon]
      exact ⟨task, AList.lookup_insert connections, hawaits⟩
    · have hne : own ≠ fd := by
        rintro rfl
        rw [hquiet other hother] at hon
        cases hon
      rw [AList.lookup_insert_ne hne]
      exact h.awaited own other hother hon
  case owned =>
    intro own other hother
    by_cases heq : own = fd
    · rw [heq, AList.lookup_insert] at hother
      rw [heq, ← Option.some.inj hother]
      exact howns
    · rw [AList.lookup_insert_ne heq] at hother
      exact h.owned own other hother
  case single =>
    intro own
    rw [List.countP_cons, hop]
    by_cases heq : own = fd
    · have hzero : ops.countP (onFd own) = 0 := by
        rw [List.countP_eq_zero, heq]
        intro other hother
        rw [hquiet other hother]
        exact Bool.false_ne_true
      rw [hzero]
      split <;> omega
    · rw [if_neg (by simpa using heq)]
      exact h.single own
  case served =>
    intro own other hother
    by_cases heq : own = fd
    · exact ⟨op, List.mem_cons_self .., by rw [hop, heq, beq_self_eq_true]⟩
    · rw [AList.lookup_insert_ne heq] at hother
      rcases h.served own other hother with ⟨last, hlast, hon⟩
      exact ⟨last, List.mem_cons_of_mem op hlast, hon⟩

theorem Matched.leave (h : Matched (op :: ops) connections)
    (hop : ∀ own, onFd own op = (own == fd)) : Matched ops (connections.erase fd) := by
  have hquiet : ∀ own ∈ ops, onFd fd own = false := by
    intro own hown
    rw [← Bool.not_eq_true]
    intro hon
    have hsingle := h.single fd
    rw [List.countP_cons, hop, beq_self_eq_true, if_pos rfl] at hsingle
    have hpos : 0 < ops.countP (onFd fd) := List.countP_pos_iff.mpr ⟨own, hown, hon⟩
    omega
  constructor
  case awaited =>
    intro own other hother hon
    have hne : own ≠ fd := by
      rintro rfl
      rw [hquiet other hother] at hon
      cases hon
    rw [AList.lookup_erase_ne hne]
    exact h.awaited own other (List.mem_cons_of_mem op hother) hon
  case owned =>
    intro own other hother
    have hne : own ≠ fd := by
      rintro rfl
      rw [AList.lookup_erase] at hother
      cases hother
    rw [AList.lookup_erase_ne hne] at hother
    exact h.owned own other hother
  case single =>
    intro own
    have := h.single own
    rw [List.countP_cons] at this
    omega
  case served =>
    intro own other hother
    have hne : own ≠ fd := by
      rintro rfl
      rw [AList.lookup_erase] at hother
      cases hother
    rw [AList.lookup_erase_ne hne] at hother
    rcases h.served own other hother with ⟨last, hlast, hon⟩
    rcases List.mem_cons.mp hlast with heq | hlast
    · rw [heq, hop, beq_iff_eq] at hon
      exact absurd hon hne
    · exact ⟨last, hlast, hon⟩

theorem Matched.advance (h : Matched (op :: ops) connections) {op' : Op}
    (hop : ∀ own, onFd own op = (own == fd)) (hop' : ∀ own, onFd own op' = (own == fd))
    (hawaits : Awaits task op') (howns : Owns task fd) :
    Matched (op' :: ops) (connections.insert fd task) := by
  have henter := (h.leave hop).enter (notMem_erase connections fd) hop' hawaits howns
  refine henter.congr fun own => ?_
  by_cases heq : own = fd
  · rw [heq, AList.lookup_insert, AList.lookup_insert]
  · rw [AList.lookup_insert_ne heq, AList.lookup_insert_ne heq, AList.lookup_erase_ne heq]

end Matched

inductive Answer (listenFd : Nat) (connections : Table ConnTask) (cqe : Cqe) :
    Reaction → Prop where
  | exited {text : String}
      (hwhy : cqe.res = -enobufs ∨ cqe.userData.type = .provBuf ∧ cqe.res < 0)
      (htext : text = if cqe.res = -enobufs then noBufsText else provideErrorText cqe.res) :
      Answer listenFd connections cqe ⟨[], connections, none, some (.exit text)⟩
  | provided {bid len nr : Nat} (hop : cqe.sqe.op = .provideBuffers bid len nr)
      (hres : 0 ≤ cqe.res) : Answer listenFd connections cqe ⟨[], connections, none, none⟩
  | acceptFailed {fd : Nat} (hop : cqe.sqe.op = .accept fd) (hbufs : cqe.res ≠ -enobufs)
      (hres : cqe.res < 0) :
      Answer listenFd connections cqe ⟨[addAccept listenFd 0], connections, none, none⟩
  | accepted {fd : Nat} {sqe : Sqe} {task : ConnTask} (hop : cqe.sqe.op = .accept fd)
      (hres : 0 ≤ cqe.res) (hnew : cqe.res.toNat ∉ connections)
      (hsqe : sqe.op = .recv cqe.res.toNat maxMessageLen) (hawaits : Awaits task sqe.op)
      (howns : Owns task cqe.res.toNat) :
      Answer listenFd connections cqe
        ⟨[sqe, addAccept listenFd 0], connections.insert cqe.res.toNat task, none, none⟩
  | hungUp {fd len : Nat} {sqe : Sqe} {task : ConnTask} (hop : cqe.sqe.op = .recv fd len)
      (hbufs : cqe.res ≠ -enobufs) (htask : connections.lookup fd = some task)
      (hsize : sizeOfInt cqe.res = 0)
      (hsqe : sqe.op = .provideBuffers (cqe.flags >>> 16) maxMessageLen 1) :
      Answer listenFd connections cqe ⟨[sqe], connections.erase fd, some fd, none⟩
  | read {fd len : Nat} {sqe : Sqe} {task next : ConnTask} (hop : cqe.sqe.op = .recv fd len)
      (hbufs : cqe.res ≠ -enobufs) (htask : connections.lookup fd = some task)
      (hsize : sizeOfInt cqe.res ≠ 0)
      (hsqe : sqe.op = .send fd (cqe.flags >>> 16) (lenOfSize (sizeOfInt cqe.res)))
      (hawaits : Awaits next sqe.op) (howns : Owns next fd) :
      Answer listenFd connections cqe ⟨[sqe], connections.insert fd next, none, none⟩
  | wrote {fd bid len : Nat} {sqe sqe' : Sqe} {task next : ConnTask}
      (hop : cqe.sqe.op = .send fd bid len) (hbufs : cqe.res ≠ -enobufs)
      (htask : connections.lookup fd = some task)
      (hsqe : sqe.op = .provideBuffers bid maxMessageLen 1)
      (hsqe' : sqe'.op = .recv fd maxMessageLen) (hawaits : Awaits next sqe'.op)
      (howns : Owns next fd) :
      Answer listenFd connections cqe ⟨[sqe, sqe'], connections.insert fd next, none, none⟩

theorem type_of_op (sqe : Sqe) : sqe.userData.type = sqe.op.connInfo.type := by
  have h := sqe.described
  cases hop : sqe.op with
  | accept fd =>
    rw [hop] at h
    rw [show sqe.userData = _ from h]
    rfl
  | recv fd len =>
    rw [hop] at h
    exact h.2
  | send fd bid len =>
    rw [hop] at h
    rw [show sqe.userData = _ from h]
    rfl
  | provideBuffers bid len nr =>
    rw [hop] at h
    exact h.1

theorem fd_of_recv {sqe : Sqe} {fd len : Nat} (hop : sqe.op = .recv fd len) :
    sqe.userData.fd = fd := by
  have h := sqe.described
  rw [hop] at h
  exact h.1

theorem fd_of_send {sqe : Sqe} {fd bid len : Nat} (hop : sqe.op = .send fd bid len) :
    sqe.userData.fd = fd := by
  have h := sqe.described
  rw [hop] at h
  rw [show sqe.userData = _ from h]

variable {listenFd : Nat} {connections : Table ConnTask} {cqe : Cqe}

theorem cqe_type {op : Op} (hop : cqe.sqe.op = op) : cqe.userData.type = op.connInfo.type := by
  rw [Cqe.userData, type_of_op, hop]

theorem ne_enobufs {res : Int} (h : 0 ≤ res) : res ≠ -enobufs := by
  unfold enobufs
  omega

theorem not_exited_of_nonneg (h : 0 ≤ cqe.res) :
    ¬(cqe.res = -enobufs ∨ cqe.userData.type = .provBuf ∧ cqe.res < 0) := by
  rintro (hbufs | ⟨-, hneg⟩)
  · exact ne_enobufs h hbufs
  · omega

theorem answer_accept {fd : Nat} (hop : cqe.sqe.op = .accept fd) (hres : 0 ≤ cqe.res)
    (hnew : cqe.res.toNat ∉ connections) :
    Answer listenFd connections cqe (handleCqe listenFd connections cqe) := by
  have hbufs := ne_enobufs hres
  have htype : cqe.userData.type = .accept := cqe_type hop
  simp only [handleCqe, hbufs, htype, hres, hnew, emplace, if_true, if_false, AList.lookup_insert,
    resumed, ConnTask.resume, handleEcho, ConnTask.setFd, AList.insert_insert, List.cons_append,
    List.nil_append]
  exact .accepted hop hres hnew rfl (.read _ rfl) ⟨rfl, rfl⟩

theorem answer_recv {fd len : Nat} {task : ConnTask} (hop : cqe.sqe.op = .recv fd len)
    (hbufs : cqe.res ≠ -enobufs) (htask : connections.lookup fd = some task)
    (hpoint : task.point = .echoRead) (howns : Owns task fd) :
    Answer listenFd connections cqe (handleCqe listenFd connections cqe) := by
  have htype : cqe.userData.type = .read := cqe_type hop
  have hfd : cqe.userData.fd = fd := fd_of_recv hop
  have hlookup : connections.lookup cqe.userData.fd = some task := by
    rw [hfd]
    exact htask
  by_cases hsize : sizeOfInt cqe.res ≤ 0
  · have hreaction : handleCqe listenFd connections cqe =
        ⟨[(echoAddBuffer (task.setRead (cqe.flags >>> 16) (sizeOfInt cqe.res)).promise).2],
          connections.erase fd, some fd, none⟩ := by
      simp only [handleCqe, hbufs, htype, hlookup, if_false, resumed, ConnTask.resume,
        ConnTask.setRead, hpoint, hsize, if_true, howns.1]
    rw [hreaction]
    exact .hungUp hop hbufs htask (Nat.le_zero.mp hsize) rfl
  · have hreaction : handleCqe listenFd connections cqe =
        ⟨[(echoWrite (task.setRead (cqe.flags >>> 16) (sizeOfInt cqe.res)).promise
            (sizeOfInt cqe.res) 0).2],
          connections.insert fd ⟨task.fd, .echoWrite,
            (echoWrite (task.setRead (cqe.flags >>> 16) (sizeOfInt cqe.res)).promise
              (sizeOfInt cqe.res) 0).1⟩, none, none⟩ := by
      simp only [handleCqe, hbufs, htype, hlookup, hfd, if_false, resumed, ConnTask.resume,
        ConnTask.setRead, hpoint, hsize]
    have hsend : (echoWrite (task.setRead (cqe.flags >>> 16) (sizeOfInt cqe.res)).promise
        (sizeOfInt cqe.res) 0).2.op =
        .send fd (cqe.flags >>> 16) (lenOfSize (sizeOfInt cqe.res)) := by
      rw [← howns.2]
      rfl
    rw [hreaction]
    exact .read hop hbufs htask (fun hzero => hsize (Nat.le_of_eq hzero)) hsend (.write _ rfl) howns

theorem answer_send {fd bid len : Nat} {task : ConnTask} (hop : cqe.sqe.op = .send fd bid len)
    (hbufs : cqe.res ≠ -enobufs) (htask : connections.lookup fd = some task)
    (hpoint : task.point = .echoWrite) (howns : Owns task fd)
    (hbid : task.promise.connInfo.bid = bid) :
    Answer listenFd connections cqe (handleCqe listenFd connections cqe) := by
  have htype : cqe.userData.type = .write := cqe_type hop
  have hfd : cqe.userData.fd = fd := fd_of_send hop
  have hlookup : connections.lookup cqe.userData.fd = some task := by
    rw [hfd]
    exact htask
  have hreaction : handleCqe listenFd connections cqe =
      ⟨[(echoAddBuffer task.promise).2,
          (echoRead (echoAddBuffer task.promise).1 maxMessageLen iosqeBufferSelect).2],
        connections.insert fd ⟨task.fd, .echoRead,
          (echoRead (echoAddBuffer task.promise).1 maxMessageLen iosqeBufferSelect).1⟩,
        none, none⟩ := by
    simp only [handleCqe, hbufs, htype, hlookup, hfd, if_false, resumed, ConnTask.resume, hpoint]
  have hprovide : (echoAddBuffer task.promise).2.op = .provideBuffers bid maxMessageLen 1 := by
    rw [← hbid]
    rfl
  have hrecv : (echoRead (echoAddBuffer task.promise).1 maxMessageLen iosqeBufferSelect).2.op =
      .recv fd maxMessageLen := by
    rw [← howns.2]
    rfl
  rw [hreaction]
  exact .wrote hop hbufs htask hprovide hrecv (.read _ rfl) howns

/-- With coroutines that match the operations, the handler finds the coroutine of every
receive and send that completes, suspended where it waits for it. -/
theorem handle_answer {ops : List Op} (h : Matched (cqe.sqe.op :: ops) connections)
    (hfresh : cqe.userData.type = .accept → 0 ≤ cqe.res → cqe.res.toNat ∉ connections) :
    Answer listenFd connections cqe (handleCqe listenFd connections cqe) := by
  by_cases hbufs : cqe.res = -enobufs
  · simp only [handleCqe, hbufs, if_true]
    exact .exited (Or.inl hbufs) (if_pos hbufs).symm
  cases hop : cqe.sqe.op with
  | accept fd =>
    by_cases hres : 0 ≤ cqe.res
    · exact answer_accept hop hres (hfresh (cqe_type hop) hres)
    · simp only [handleCqe, hbufs, cqe_type hop, Op.connInfo, hres, if_false, List.nil_append]
      exact .acceptFailed hop hbufs (by omega)
  | recv fd len =>
    rcases h.awaited fd _ (List.mem_cons_self ..) (by simp [hop, onFd]) with ⟨task, htask, hawaits⟩
    rw [hop] at hawaits
    cases hawaits with
    | read _ hpoint => exact answer_recv hop hbufs htask hpoint (h.owned _ task htask)
  | send fd bid len =>
    rcases h.awaited fd _ (List.mem_cons_self ..) (by simp [hop, onFd]) with ⟨task, htask, hawaits⟩
    rw [hop] at hawaits
    cases hawaits with
    | write _ hpoint => exact answer_send hop hbufs htask hpoint (h.owned _ task htask) rfl
  | provideBuffers bid len nr =>
    by_cases hres : cqe.res < 0
    · simp only [handleCqe, hbufs, cqe_type hop, Op.connInfo, hres, if_true, if_false]
      exact .exited (Or.inr ⟨cqe_type hop, hres⟩) (if_neg hbufs).symm
    · simp only [handleCqe, hbufs, cqe_type hop, Op.connInfo, hres, if_false]
      exact .provided hop (by omega)

theorem onFd_eq {op op' : Op} (h : op = op') (fd : Nat) : onFd fd op = onFd fd op' := by
  rw [h]

theorem Matched.handled {ops : List Op} {reaction : Reaction}
    (h : Matched (cqe.sqe.op :: ops) connections)
    (hanswer : Answer listenFd connections cqe reaction) (hstop : reaction.stop = none) :
    Matched (reaction.queued.map Sqe.op ++ ops) reaction.connections := by
  cases hanswer with
  | exited => cases hstop
  | provided hop => exact h.of_cons_other (onFd_eq hop)
  | acceptFailed hop => exact (h.of_cons_other (onFd_eq hop)).cons_other fun _ => rfl
  | accepted hop hres hnew hsqe hawaits howns =>
    have hrest : Matched (.accept listenFd :: ops) connections :=
      (h.of_cons_other (onFd_eq hop)).cons_other fun _ => rfl
    exact hrest.enter hnew (onFd_eq hsqe) hawaits howns
  | hungUp hop hbufs htask hsize hsqe => exact (h.leave (onFd_eq hop)).cons_other (onFd_eq hsqe)
  | read hop hbufs htask hsize hsqe hawaits howns =>
    exact h.advance (onFd_eq hop) (onFd_eq hsqe) hawaits howns
  | wrote hop hbufs htask hsqe hsqe' hawaits howns =>
    exact (h.advance (onFd_eq hop) (onFd_eq hsqe') hawaits howns).cons_other (onFd_eq hsqe)

def isAccept : Op → Bool
  | .accept _ => true
  | .recv _ _ | .send _ _ _ | .provideBuffers _ _ _ => false

theorem Answer.accepts {reaction : Reaction} (h : Answer listenFd connections cqe reaction)
    (hstop : reaction.stop = none) :
    (reaction.queued.map Sqe.op).countP isAccept = [cqe.sqe.op].countP isAccept := by
  cases h with
  | exited => cases hstop
  | provided hop => rw [hop]; rfl
  | acceptFailed hop => rw [hop]; rfl
  | accepted hop hres hnew hsqe => simp [hop, hsqe, isAccept, addAccept]
  | hungUp hop hbufs htask hsize hsqe => simp [hop, hsqe, isAccept]
  | read hop hbufs htask hsize hsqe => simp [hop, hsqe, isAccept]
  | wrote hop hbufs htask hsqe hsqe' => simp [hop, hsqe, hsqe', isAccept]

def pendingOps (s : State) : List Op :=
  (s.sq ++ s.inflight).map Sqe.op ++ s.cq.map fun cqe => cqe.sqe.op

structure Wired (s : State) : Prop where
  matched : Matched (pendingOps s) s.connections
  accepts : (pendingOps s).countP isAccept = 1
  fresh : (s.fds ++ s.cq.flatMap opened).Nodup
  held : ∀ fd ∈ s.connections, fd ∈ s.fds

theorem pendingOps_submitted (s : State) (pc : Pc) :
    (pendingOps { s with sq := [], inflight := s.inflight ++ s.sq, pc := pc }).Perm
      (pendingOps s) := by
  simp only [pendingOps, List.nil_append]
  exact (List.perm_append_comm.map Sqe.op).append_right _

theorem pendingOps_of_cq {s : State} {rest : List Cqe} (hcq : s.cq = cqe :: rest) :
    (pendingOps s).Perm
      (cqe.sqe.op :: ((s.sq ++ s.inflight).map Sqe.op ++ rest.map fun cqe => cqe.sqe.op)) := by
  unfold pendingOps
  rw [hcq, List.map_cons]
  exact List.perm_middle

theorem pendingOps_handled (s : State) (queued : List Sqe) (rest : List Cqe)
    (connections : Table ConnTask) (fds : List Nat) (handled : List Cqe) :
    (pendingOps { s with
      sq := s.sq ++ queued
      cq := rest
      connections := connections
      fds := fds
      handled := handled }).Perm
      (queued.map Sqe.op ++
        ((s.sq ++ s.inflight).map Sqe.op ++ rest.map fun cqe => cqe.sqe.op)) := by
  simp only [pendingOps, List.map_append, List.append_assoc]
  rw [List.perm_iff_count]
  intro op
  simp only [List.count_append]
  omega

theorem pendingOps_completed {s : State} {i : Nat} {sqe : Sqe} (res : Int) (flags : Nat)
    (h : s.inflight[i]? = some sqe) :
    (pendingOps { s with
      inflight := s.inflight.eraseIdx i
      cq := s.cq ++ [⟨sqe, res, flags⟩] }).Perm (pendingOps s) := by
  have herase := (perm_eraseIdx h).map Sqe.op
  rw [List.perm_iff_count] at herase ⊢
  intro op
  have := herase op
  simp only [pendingOps, List.map_append, List.map_cons, List.map_nil, List.count_append,
    List.count_cons, List.count_nil] at this ⊢
  omega

theorem Wired.of_same {s t : State} (h : Wired s) (hops : (pendingOps t).Perm (pendingOps s))
    (hconnections : t.connections = s.connections) (hfds : t.fds = s.fds)
    (hfresh : (t.fds ++ t.cq.flatMap opened).Nodup) : Wired t := by
  constructor
  case matched =>
    rw [hconnections]
    exact h.matched.perm hops
  case accepts =>
    rw [hops.countP_eq]
    exact h.accepts
  case fresh => exact hfresh
  case held =>
    rw [hconnections, hfds]
    exact h.held

theorem opened_of_accept (htype : cqe.userData.type = .accept) (hres : 0 ≤ cqe.res) :
    opened cqe = [cqe.res.toNat] :=
  if_pos ⟨htype, hres⟩

theorem Wired.notMem {s : State} {rest : List Cqe} (h : Wired s) (hcq : s.cq = cqe :: rest)
    (htype : cqe.userData.type = .accept) (hres : 0 ≤ cqe.res) :
    cqe.res.toNat ∉ s.connections := by
  intro hmem
  have hfresh := h.fresh
  rw [hcq, List.flatMap_cons, opened_of_accept htype hres] at hfresh
  have hdisjoint := (List.nodup_append.mp hfresh).2.2
  exact hdisjoint _ (h.held _ hmem) _ (List.mem_cons_self ..) rfl

theorem Wired.answer {s : State} {rest : List Cqe} (h : Wired s) (hcq : s.cq = cqe :: rest) :
    Answer s.listenFd s.connections cqe (handleCqe s.listenFd s.connections cqe) :=
  handle_answer (h.matched.perm (pendingOps_of_cq hcq).symm) (h.notMem hcq)

theorem Answer.mem_connections {reaction : Reaction}
    (h : Answer listenFd connections cqe reaction) {fd : Nat} (hfd : fd ∈ reaction.connections) :
    fd ∈ connections ∨ fd ∈ opened cqe := by
  cases h with
  | exited | provided | acceptFailed => exact Or.inl hfd
  | accepted hop hres =>
    rcases (AList.mem_insert _).mp hfd with heq | hfd
    · right
      rw [opened_of_accept (cqe_type hop) hres, heq]
      exact List.mem_singleton_self _
    · exact Or.inl hfd
  | hungUp => exact Or.inl (AList.mem_erase.mp hfd).2
  | read hop hbufs htask | wrote hop hbufs htask =>
    rcases (AList.mem_insert _).mp hfd with heq | hfd
    · rw [heq]
      exact Or.inl (mem_of_lookup htask)
    · exact Or.inl hfd

theorem Wired.step {s t : State} {event : Event} (h : Wired s) (hstep : Step s event t) :
    Wired t := by
  cases hstep with
  | submitted => exact h.of_same (pendingOps_submitted s .pass) rfl rfl h.fresh
  | stopped | overran | passEnded => exact h.of_same (List.Perm.refl _) rfl rfl h.fresh
  | @handled cqe rest hpc hcq hstop hroom =>
    have hanswer := h.answer hcq
    have hbefore := pendingOps_of_cq hcq
    have hafter := pendingOps_handled s (handleCqe s.listenFd s.connections cqe).queued rest
      (handleCqe s.listenFd s.connections cqe).connections (s.fds ++ opened cqe)
      (s.handled ++ [cqe])
    constructor
    case matched => exact ((h.matched.perm hbefore.symm).handled hanswer hstop).perm hafter
    case accepts =>
      have haccepts := h.accepts
      rw [hbefore.countP_eq, ← List.singleton_append, List.countP_append] at haccepts
      rw [hafter.countP_eq, List.countP_append, hanswer.accepts hstop]
      exact haccepts
    case fresh =>
      have hfresh := h.fresh
      rw [hcq, List.flatMap_cons, ← List.append_assoc] at hfresh
      exact hfresh
    case held =>
      intro fd hfd
      rcases hanswer.mem_connections hfd with hold | hnew
      · exact List.mem_append_left _ (h.held fd hold)
      · exact List.mem_append_right _ hnew
  | @completed i flags res sqe hsqe hpossible =>
    refine h.of_same (pendingOps_completed res flags hsqe) rfl rfl ?_
    have hopened : s.fds ++ List.flatMap opened (s.cq ++ [⟨sqe, res, flags⟩]) =
        s.fds ++ s.cq.flatMap opened ++ opened ⟨sqe, res, flags⟩ := by
      simp
    change (s.fds ++ List.flatMap opened (s.cq ++ [⟨sqe, res, flags⟩])).Nodup
    rw [hopened]
    by_cases hnew : sqe.userData.type = .accept ∧ 0 ≤ res
    · have hone : opened ⟨sqe, res, flags⟩ = [res.toNat] := opened_of_accept hnew.1 hnew.2
      rw [hone, List.nodup_append_comm]
      exact List.nodup_cons.mpr ⟨(hpossible.2.2 hnew.1 hnew.2).2, h.fresh⟩
    · rw [show opened ⟨sqe, res, flags⟩ = [] from if_neg hnew, List.append_nil]
      exact h.fresh

theorem wired_init (listenFd : Nat) : Wired (State.init listenFd) := by
  constructor
  case matched =>
    refine ⟨?_, ?_, ?_, ?_⟩
    · intro fd op hop hon
      rw [List.mem_singleton.mp hop] at hon
      cases hon
    · intro fd task htask
      cases htask
    · intro fd
      exact Nat.zero_le 1
    · intro fd task htask
      cases htask
  case accepts => rfl
  case fresh => exact List.nodup_nil
  case held =>
    intro fd hfd
    cases hfd

theorem wired_of_reachable {s : State} (h : Reachable step (State.init listenFd) s) : Wired s :=
  h.invariant Wired (wired_init listenFd) fun _ _ _ _ hs hstep => hs.step (step_sound hstep)

end IoWrapper.CoroEcho.Matching
