import IoWrapper.Core.Collections
import IoWrapper.CoroEcho.Lengths
import IoWrapper.Echo.Pending

/-! The coroutines against the server without them. Given the completions that
`io_uring_echo_server.c` processes in a run, the coroutine server queues the same entries
for each of them and ends the same connections. -/
namespace IoWrapper.CoroEcho.Lockstep
open Core.Collections Core.Machine Core.Tables Core.Pool Server Matching Lengths
open Echo.Server (OpType Op maxMessageLen groupId iosqeBufferSelect enobufs bufferFlags)
open Echo.Accounting (queue opWeigh)

/-- An operation up to the length asked for by a receive, which is 0 in one server and the
size of a message in the other. -/
def view : Op → Op
  | .recv fd _ => .recv fd 0
  | .accept fd => .accept fd
  | .send fd bid len => .send fd bid len
  | .provideBuffers bid len nr => .provideBuffers bid len nr

structure Outcome where
  queued : List Op
  ended : Option Nat
  stop : Option Stop
deriving DecidableEq

def outcome (reaction : Reaction) : Outcome :=
  ⟨reaction.queued.map fun sqe => view sqe.op, reaction.ended, reaction.stop⟩

/-- The server without coroutines ends a connection by `close`. -/
def outcomeC (reaction : Echo.Server.Reaction) : Outcome :=
  ⟨reaction.queued.map fun sqe => view sqe.op, reaction.close, reaction.exit.map Stop.exit⟩

def Answers (cqe : Cqe) (cqeC : Echo.Server.Cqe) : Prop :=
  view cqe.sqe.op = view cqeC.sqe.op ∧ cqe.res = cqeC.res ∧ cqe.flags = cqeC.flags

def processed (s : Echo.Server.State) : Echo.Server.Event → List Echo.Server.Cqe
  | .handle => s.cq.take 1
  | .submit _ | .endPass | .issue | .provide _ | .take _ _ | .giveBack _ | .complete _ _ _ => []

def met (listenFd : Nat) : Table ConnTask → List Cqe → List (Table ConnTask × Cqe)
  | _, [] => []
  | connections, cqe :: rest =>
    (connections, cqe) :: met listenFd (handleCqe listenFd connections cqe).connections rest

def after (listenFd : Nat) : Table ConnTask → List Cqe → Table ConnTask
  | connections, [] => connections
  | connections, cqe :: rest =>
    after listenFd (handleCqe listenFd connections cqe).connections rest

/-- Completions that the coroutine server can process, with the entries that are pending
after them: each is of an entry that is pending, and none follows the one it stops at. -/
inductive Processes (listenFd : Nat) : List Cqe → Option (List Sqe) → Prop where
  | start : Processes listenFd [] (some [addAccept listenFd 0])
  | handled {cqes : List Cqe} {pending rest : List Sqe} {cqe : Cqe}
      (h : Processes listenFd cqes (some pending)) (hpending : pending.Perm (cqe.sqe :: rest))
      (hstop : (handleCqe listenFd (after listenFd ∅ cqes) cqe).stop = none) :
      Processes listenFd (cqes ++ [cqe])
        (some ((handleCqe listenFd (after listenFd ∅ cqes) cqe).queued ++ rest))
  | stopped {cqes : List Cqe} {pending : List Sqe} {cqe : Cqe} {stop : Stop}
      (h : Processes listenFd cqes (some pending)) (hpending : cqe.sqe ∈ pending)
      (hstop : (handleCqe listenFd (after listenFd ∅ cqes) cqe).stop = some stop) :
      Processes listenFd (cqes ++ [cqe]) none

def Finds (connections : Table ConnTask) (cqe : Cqe) : Prop :=
  (cqe.userData.type = .read →
    ∃ task, connections.lookup cqe.userData.fd = some task ∧ task.point = .echoRead) ∧
  (cqe.userData.type = .write →
    ∃ task, connections.lookup cqe.userData.fd = some task ∧ task.point = .echoWrite)

theorem met_concat (listenFd : Nat) (connections : Table ConnTask) (cqes : List Cqe) (cqe : Cqe) :
    met listenFd connections (cqes ++ [cqe]) =
      met listenFd connections cqes ++ [(after listenFd connections cqes, cqe)] := by
  induction cqes generalizing connections with
  | nil => rfl
  | cons own cqes ih =>
    rw [List.cons_append, met, met, ih, after]
    rfl

theorem after_concat (listenFd : Nat) (connections : Table ConnTask) (cqes : List Cqe) (cqe : Cqe) :
    after listenFd connections (cqes ++ [cqe]) =
      (handleCqe listenFd (after listenFd connections cqes) cqe).connections := by
  induction cqes generalizing connections with
  | nil => rfl
  | cons own cqes ih =>
    rw [List.cons_append, after, after, ih]

section View

variable {op op' : Op}

@[simp] theorem onFd_view (fd : Nat) (op : Op) : onFd fd (view op) = onFd fd op := by
  cases op <;> rfl

@[simp] theorem type_view (op : Op) : (view op).connInfo.type = op.connInfo.type := by
  cases op <;> rfl

theorem awaits_view {task : ConnTask} (h : Awaits task op) : Awaits task (view op) := by
  cases h with
  | read len hpoint => exact .read 0 hpoint
  | write len hpoint => exact .write len hpoint

theorem awaits_of_view {task : ConnTask} (h : Awaits task (view op)) : Awaits task op := by
  cases op with
  | recv fd len =>
    cases h with
    | read _ hpoint => exact .read len hpoint
  | send fd bid len => exact h
  | accept fd | provideBuffers bid len nr => cases h

theorem matched_view {ops : List Op} {connections : Table ConnTask} :
    Matched (ops.map view) connections ↔ Matched ops connections := by
  have hcount : ∀ fd, (ops.map view).countP (onFd fd) = ops.countP (onFd fd) := by
    intro fd
    rw [List.countP_map]
    exact List.countP_congr fun op _ => by simp
  constructor
  · intro h
    refine ⟨?_, h.owned, fun fd => hcount fd ▸ h.single fd, ?_⟩
    · intro fd op hop hon
      rcases h.awaited fd (view op) (List.mem_map_of_mem hop) (by rwa [onFd_view]) with
        ⟨task, htask, hawaits⟩
      exact ⟨task, htask, awaits_of_view hawaits⟩
    · intro fd task htask
      rcases h.served fd task htask with ⟨op, hop, hon⟩
      rcases List.mem_map.mp hop with ⟨own, hown, rfl⟩
      exact ⟨own, hown, by rwa [onFd_view] at hon⟩
  · intro h
    refine ⟨?_, h.owned, fun fd => (hcount fd).symm ▸ h.single fd, ?_⟩
    · intro fd op hop hon
      rcases List.mem_map.mp hop with ⟨own, hown, rfl⟩
      rw [onFd_view] at hon
      rcases h.awaited fd own hown hon with ⟨task, htask, hawaits⟩
      exact ⟨task, htask, awaits_view hawaits⟩
    · intro fd task htask
      rcases h.served fd task htask with ⟨op, hop, hon⟩
      exact ⟨view op, List.mem_map_of_mem hop, by rwa [onFd_view]⟩

theorem recv_of_view {fd len : Nat} (h : view (.recv fd len) = view op) :
    ∃ len', op = .recv fd len' := by
  cases op with
  | recv own len' =>
    cases h
    exact ⟨len', rfl⟩
  | _ => cases h

theorem eq_of_view (h : view op = view op') (hrecv : op.connInfo.type ≠ .read) : op = op' := by
  cases op with
  | recv fd len => exact absurd rfl hrecv
  | _ =>
    cases op' with
    | recv fd len => cases h
    | _ => exact h

end View

section Operations

variable {s t : Echo.Server.State}

def operations (s : Echo.Server.State) : List Op :=
  (queue s).map Echo.Server.Sqe.op ++ s.inflight.map (fun f => f.sqe.op) ++
    s.cq.map fun cqe => cqe.sqe.op

theorem opWeigh_eq_total (weight : Op → Nat) (s : Echo.Server.State) :
    opWeigh weight (fun _ => 0) s = total weight (operations s) := by
  simp [opWeigh, Echo.Accounting.weigh, operations, total, Function.comp_def, Nat.add_assoc]

theorem operations_perm
    (h : ∀ weight, opWeigh weight (fun _ => 0) t = opWeigh weight (fun _ => 0) s) :
    (operations t).Perm (operations s) := by
  apply perm_of_total_eq
  intro weight
  rw [← opWeigh_eq_total, ← opWeigh_eq_total, h]

theorem operations_of_cq {cqe : Echo.Server.Cqe} {rest : List Echo.Server.Cqe}
    (hcq : s.cq = cqe :: rest) :
    (operations s).Perm (cqe.sqe.op :: operations { s with cq := rest }) := by
  unfold operations
  rw [hcq, List.map_cons]
  exact List.perm_middle

theorem operations_react (s : Echo.Server.State) (reaction : Echo.Server.Reaction) :
    (operations (s.react reaction)).Perm
      (reaction.queued.map Echo.Server.Sqe.op ++ operations s) := by
  have hqueued : (operations { s with sq := s.sq ++ reaction.queued }).Perm
      (reaction.queued.map Echo.Server.Sqe.op ++ operations s) := by
    simp only [operations, queue, List.map_append, List.append_assoc]
    rw [List.perm_iff_count]
    intro op
    simp only [List.count_append]
    omega
  unfold Echo.Server.State.react
  split
  · rename_i fd hclose
    rcases Echo.Accounting.close_cases { s with sq := s.sq ++ reaction.queued } fd with
      ⟨conns, closes, hclosed⟩
    rw [hclosed]
    exact hqueued
  · exact hqueued

theorem operations_handled {cqe : Echo.Server.Cqe} (rest : List Echo.Server.Cqe)
    (hexit : (Echo.Server.handleCqe s.listenFd cqe).exit = none) :
    (operations (s.handled cqe rest)).Perm
      ((Echo.Server.handleCqe s.listenFd cqe).queued.map Echo.Server.Sqe.op ++
        operations { s with cq := rest }) := by
  unfold Echo.Server.State.handled
  rw [hexit]
  exact operations_react _ _

theorem handled_of_exit {cqe : Echo.Server.Cqe} {text : String} (rest : List Echo.Server.Cqe)
    (hexit : (Echo.Server.handleCqe s.listenFd cqe).exit = some text) :
    s.handled cqe rest = { s with pc := .exited text } := by
  unfold Echo.Server.State.handled
  rw [hexit]

theorem quiet_of_returned (hwired : Echo.Pending.Wired s) {cqe : Echo.Server.Cqe}
    (hcqe : cqe ∈ s.cq) (htype : cqe.userData.type = .accept) (hres : 0 ≤ cqe.res) :
    ∀ op ∈ operations s, onFd cqe.res.toNat op = false := by
  have hserving : ¬Echo.Pending.Serving s cqe.res.toNat := fun h =>
    h.2 cqe hcqe htype (Int.toNat_of_nonneg hres).symm
  have hzero := hwired.pendingOn_eq cqe.res.toNat
  rw [if_neg hserving, Echo.Pending.pendingOn, opWeigh_eq_total, total_eq_zero_iff] at hzero
  intro op hop
  have hown := hzero op hop
  cases op with
  | recv fd len | send fd bid len =>
    simp only [Echo.Pending.onFd, Echo.Pending.indicator] at hown
    simp only [onFd]
    grind
  | _ => rfl

end Operations

section Outcomes

variable {listenFd : Nat} {connections : Table ConnTask} {cqe : Cqe} {cqeC : Echo.Server.Cqe}

theorem lt_int32 {res : Int} (h : res ≤ maxMessageLen) : res < 2 ^ 31 := by
  unfold maxMessageLen at h
  omega

theorem Answers.type_eq (h : Answers cqe cqeC) : cqe.userData.type = cqeC.userData.type := by
  rw [cqe_type rfl, Echo.Server.Cqe.userData, cqeC.sqe.described, ← type_view, h.1, type_view]

/-- Where the coroutines match the operations and a receive reports no error, a completion
makes the two servers do the same. -/
theorem Answers.outcome_eq (h : Answers cqe cqeC)
    (hread : cqeC.userData.type = .read → 0 ≤ cqeC.res ∧ cqeC.res ≤ maxMessageLen)
    {reaction : Reaction} (hanswer : Answer listenFd connections cqe reaction) :
    outcome reaction = outcomeC (Echo.Server.handleCqe listenFd cqeC) := by
  have htype := h.type_eq
  rcases h with ⟨hview, hres, hflags⟩
  cases hanswer with
  | exited hwhy htext =>
    by_cases hbufs : cqe.res = -enobufs
    · rw [htext, if_pos hbufs]
      simp [outcome, outcomeC, Echo.Server.handleCqe, ← hres, hbufs]
    · rcases hwhy with henobufs | ⟨hprovide, hneg⟩
      · exact absurd henobufs hbufs
      · rw [htext, if_neg hbufs]
        simp [outcome, outcomeC, Echo.Server.handleCqe, ← hres, ← htype, hbufs, hprovide, hneg]
  | provided hop hok =>
    have hbufs : cqe.res ≠ -enobufs := ne_enobufs hok
    have hprovide : cqe.userData.type = .provBuf := cqe_type hop
    simp [outcome, outcomeC, Echo.Server.handleCqe, ← hres, ← htype, hbufs, hprovide,
      Int.not_lt.mpr hok]
  | acceptFailed hop hbufs hneg =>
    have haccept : cqe.userData.type = .accept := cqe_type hop
    simp [outcome, outcomeC, Echo.Server.handleCqe, ← hres, ← htype, hbufs, haccept, hneg,
      addAccept]
  | accepted hop hok hnew hsqe =>
    have hbufs : cqe.res ≠ -enobufs := ne_enobufs hok
    have haccept : cqe.userData.type = .accept := cqe_type hop
    simp [outcome, outcomeC, Echo.Server.handleCqe, ← hres, ← htype, hbufs, haccept, hok, hsqe,
      addAccept, view]
  | hungUp hop hbufs htask hsize hsqe =>
    rw [hop] at hview
    rcases recv_of_view hview with ⟨len, hopC⟩
    have hinfo : cqeC.userData = _ := Echo.Server.userData_of_op hopC
    rcases hread (by rw [hinfo]; rfl) with ⟨hok, hle⟩
    -- The result is no error, so that as a `size_t` it is the same number.
    rw [hres, sizeOfInt_of_nonneg hok (lt_int32 hle)] at hsize
    have hzero : cqeC.res ≤ 0 := by omega
    rw [hres] at hbufs
    simp [outcome, outcomeC, Echo.Server.handleCqe, hinfo, Op.connInfo, hbufs, hsqe, view, hflags,
      hzero]
  | read hop hbufs htask hsize hsqe =>
    rw [hop] at hview
    rcases recv_of_view hview with ⟨len, hopC⟩
    have hinfo : cqeC.userData = _ := Echo.Server.userData_of_op hopC
    rcases hread (by rw [hinfo]; rfl) with ⟨hok, hle⟩
    have hsizeC := sizeOfInt_of_nonneg hok (lt_int32 hle)
    rw [hres, hsizeC] at hsize
    rw [hres, hsizeC, lenOfSize_toNat (lt_int32 hle)] at hsqe
    have hpos : ¬cqeC.res ≤ 0 := by omega
    rw [hres] at hbufs
    simp [outcome, outcomeC, Echo.Server.handleCqe, hinfo, Op.connInfo, hbufs, hsqe, view, hflags,
      hpos]
  | wrote hop hbufs htask hsqe hsqe' =>
    have hopC := eq_of_view hview (by rw [hop]; exact OpType.noConfusion)
    have hinfo : cqeC.userData = _ := Echo.Server.userData_of_op (hopC.symm.trans hop)
    simp [outcome, outcomeC, Echo.Server.handleCqe, ← hres, hinfo, Op.connInfo, hbufs, hsqe,
      hsqe', view]

end Outcomes

theorem send_of_type_write {sqe : Sqe} (h : sqe.userData.type = .write) :
    ∃ bid len, sqe.op = .send sqe.userData.fd bid len := by
  rw [type_of_op] at h
  cases hop : sqe.op with
  | send fd bid len =>
    rw [fd_of_send hop]
    exact ⟨bid, len, rfl⟩
  | _ =>
    rw [hop] at h
    cases h

theorem point_of_awaits_recv {task : ConnTask} {fd len : Nat} (h : Awaits task (.recv fd len)) :
    task.point = .echoRead := by
  cases h with
  | read _ hpoint => exact hpoint

theorem point_of_awaits_send {task : ConnTask} {fd bid len : Nat}
    (h : Awaits task (.send fd bid len)) : task.point = .echoWrite := by
  cases h with
  | write _ hpoint => exact hpoint

theorem finds_of_matched {ops : List Op} {connections : Table ConnTask} {cqe : Cqe}
    (h : Matched (cqe.sqe.op :: ops) connections) : Finds connections cqe := by
  have hawaited := h.awaited cqe.userData.fd cqe.sqe.op (List.mem_cons_self ..)
  constructor
  · intro htype
    rcases recv_of_type_read htype with ⟨len, hop⟩
    rw [hop] at hawaited
    rcases hawaited (beq_self_eq_true _) with ⟨task, htask, hawaits⟩
    exact ⟨task, htask, point_of_awaits_recv hawaits⟩
  · intro htype
    rcases send_of_type_write htype with ⟨bid, len, hop⟩
    rw [hop] at hawaited
    rcases hawaited (beq_self_eq_true _) with ⟨task, htask, hawaits⟩
    exact ⟨task, htask, point_of_awaits_send hawaits⟩

structure Synced (listenFd : Nat) (s : Echo.Server.State) (log : List Echo.Server.Cqe)
    (cqes : List Cqe) : Prop where
  same : (met listenFd ∅ cqes).map (fun p => outcome (handleCqe listenFd p.1 p.2)) =
    log.map fun cqe => outcomeC (Echo.Server.handleCqe listenFd cqe)
  finds : ∀ p ∈ met listenFd ∅ cqes, Finds p.1 p.2
  matched : Matched (operations s) (after listenFd ∅ cqes)

section Synced

variable {listenFd : Nat} {s t : Echo.Server.State} {log : List Echo.Server.Cqe}
  {cqes : List Cqe} {cqe : Cqe} {cqeC : Echo.Server.Cqe} {rest : List Echo.Server.Cqe}

theorem Synced.perm (h : Synced listenFd s log cqes) (hperm : (operations t).Perm (operations s)) :
    Synced listenFd t log cqes :=
  ⟨h.same, h.finds, h.matched.perm hperm⟩

theorem Answers.matched {ops : List Op} {connections : Table ConnTask} (h : Answers cqe cqeC)
    (hmatched : Matched (cqeC.sqe.op :: ops) connections) :
    Matched (cqe.sqe.op :: ops) connections := by
  rw [← matched_view, List.map_cons] at hmatched ⊢
  rw [h.1]
  exact hmatched

theorem Synced.notMem (h : Synced listenFd s log cqes) (hwired : Echo.Pending.Wired s)
    (hcqe : cqeC ∈ s.cq) (htype : cqeC.userData.type = .accept) (hres : 0 ≤ cqeC.res) :
    cqeC.res.toNat ∉ after listenFd ∅ cqes := by
  intro hmem
  rcases Option.isSome_iff_exists.mp (AList.lookup_isSome.mpr hmem) with ⟨task, htask⟩
  rcases h.matched.served _ task htask with ⟨op, hop, hon⟩
  rw [quiet_of_returned hwired hcqe htype hres op hop] at hon
  cases hon

theorem connections_of_stop {connections : Table ConnTask} {reaction : Reaction} {stop : Stop}
    (h : Answer listenFd connections cqe reaction) (hstop : reaction.stop = some stop) :
    reaction.connections = connections := by
  cases h with
  | exited => rfl
  | _ => cases hstop

theorem matched_handled {connections : Table ConnTask}
    (hmatched : Matched (operations s) connections) (hcq : s.cq = cqeC :: rest)
    (h : Answers cqe cqeC)
    (hanswer : Answer s.listenFd connections cqe (handleCqe s.listenFd connections cqe))
    (hsame : outcome (handleCqe s.listenFd connections cqe) =
      outcomeC (Echo.Server.handleCqe s.listenFd cqeC)) :
    Matched (operations (s.handled cqeC rest))
      (handleCqe s.listenFd connections cqe).connections := by
  have hexit : _ = Option.map Stop.exit _ := congrArg Outcome.stop hsame
  cases hstop : (handleCqe s.listenFd connections cqe).stop with
  | some stop =>
    rw [outcome, hstop, eq_comm, Option.map_eq_some_iff] at hexit
    rcases hexit with ⟨text, hexit, -⟩
    rw [handled_of_exit rest hexit, connections_of_stop hanswer hstop]
    exact hmatched
  | none =>
    rw [outcome, hstop, eq_comm, Option.map_eq_none_iff] at hexit
    have hafter := (h.matched (hmatched.perm (operations_of_cq hcq).symm)).handled hanswer hstop
    refine Matched.perm ?_ (operations_handled rest hexit)
    rw [← matched_view, List.map_append, List.map_map] at hafter ⊢
    rw [show List.map (view ∘ Echo.Server.Sqe.op) _ = _ from (congrArg Outcome.queued hsame).symm]
    exact hafter

theorem Synced.reaction (hs : Synced s.listenFd s log cqes) (hwired : Echo.Pending.Wired s)
    (hcq : s.cq = cqeC :: rest) (h : Answers cqe cqeC)
    (hread : cqeC.userData.type = .read → 0 ≤ cqeC.res ∧ cqeC.res ≤ maxMessageLen) :
    Answer s.listenFd (after s.listenFd ∅ cqes) cqe
        (handleCqe s.listenFd (after s.listenFd ∅ cqes) cqe) ∧
      outcome (handleCqe s.listenFd (after s.listenFd ∅ cqes) cqe) =
        outcomeC (Echo.Server.handleCqe s.listenFd cqeC) := by
  have hmatched := h.matched (hs.matched.perm (operations_of_cq hcq).symm)
  have hfresh : cqe.userData.type = .accept → 0 ≤ cqe.res →
      cqe.res.toNat ∉ after s.listenFd ∅ cqes := by
    rw [h.type_eq, h.2.1]
    exact hs.notMem hwired (by rw [hcq]; exact List.mem_cons_self ..)
  have hanswer : Answer s.listenFd _ cqe _ := handle_answer hmatched hfresh
  exact ⟨hanswer, h.outcome_eq hread hanswer⟩

theorem Synced.handled (hs : Synced s.listenFd s log cqes) (hwired : Echo.Pending.Wired s)
    (hcq : s.cq = cqeC :: rest) (h : Answers cqe cqeC)
    (hread : cqeC.userData.type = .read → 0 ≤ cqeC.res ∧ cqeC.res ≤ maxMessageLen) :
    Synced s.listenFd (s.handled cqeC rest) (log ++ [cqeC]) (cqes ++ [cqe]) := by
  rcases hs.reaction hwired hcq h hread with ⟨hanswer, hsame⟩
  have hmatched := h.matched (hs.matched.perm (operations_of_cq hcq).symm)
  constructor
  case same =>
    rw [met_concat, List.map_append, List.map_append, hs.same, List.map_singleton,
      List.map_singleton, hsame]
  case finds =>
    rw [met_concat]
    intro p hp
    rcases List.mem_append.mp hp with hp | hp
    · exact hs.finds p hp
    · rw [List.mem_singleton.mp hp]
      exact finds_of_matched hmatched
  case matched =>
    rw [after_concat]
    exact matched_handled hs.matched hcq h hanswer hsame

end Synced

theorem operations_step {s t : Echo.Server.State} {event : Echo.Server.Event}
    (h : Echo.Server.Step s event t) (hevent : event ≠ .handle) :
    (operations t).Perm (operations s) := by
  apply operations_perm
  intro weight
  cases h with
  | submitted => exact Echo.Accounting.opWeigh_submitted _ _ _ _ _
  | passEnded => rfl
  | issued hsub => exact Echo.Accounting.opWeigh_issued _ _ hsub
  | provided hsub hop => exact Echo.Accounting.opWeigh_provided _ _ _ _ hsub
  | took hf | gaveBack hf => exact Echo.Accounting.opWeigh_lent _ _ _ _ hf
  | accepted hf | acceptFailed hf | received hf | recvFailed hf | sent hf =>
    exact Echo.Accounting.opWeigh_post _ _ _ _ hf
  | _ => exact absurd rfl hevent

theorem handle_cases {s t : Echo.Server.State} (h : Echo.Server.step s .handle = some t) :
    s.pc = .pass ∧ ∃ cqe rest, s.cq = cqe :: rest ∧ t = s.handled cqe rest := by
  simp only [Echo.Server.step] at h
  split at h
  · rename_i cqe rest hpc hcq
    cases h
    exact ⟨hpc, cqe, rest, hcq, rfl⟩
  · cases h

theorem message_fits {listenFd : Nat} {s : Echo.Server.State}
    (h : Reachable Echo.Server.step (Echo.Server.State.init listenFd) s) :
    ∀ cqe ∈ s.cq, cqe.userData.type = .read → cqe.res ≤ maxMessageLen := by
  refine h.invariant (fun (s : Echo.Server.State) => ∀ cqe ∈ s.cq, cqe.userData.type = .read →
    cqe.res ≤ maxMessageLen) ?_ ?_
  · intro cqe hcqe
    cases hcqe
  · intro s event t _ hs hstep
    refine Echo.Accounting.cq_step _ hs (Echo.Server.step_sound hstep) ?_ ?_ ?_
    · intro cqe hother htype
      exact absurd htype hother
    · intro sqe res bid _ hle _
      exact hle
    · intro i fd len sqe res data _ _ _ hres _ _
      exact Int.le_trans hres (by decide)

theorem listenFd_step {s t : Echo.Server.State} {event : Echo.Server.Event}
    (h : Echo.Server.Step s event t) : t.listenFd = s.listenFd := by
  cases h with
  | handledHangup hpc hcq hop hres hbufs =>
    rcases Echo.Accounting.close_cases _ _ with ⟨conns, closes, hclosed⟩
    rw [hclosed]
    rfl
  | _ => rfl

theorem synced_init (listenFd : Nat) :
    Synced listenFd (Echo.Server.State.init listenFd) [] [] := by
  refine ⟨rfl, by simp [met], ?_⟩
  exact (wired_init listenFd).matched

/-- Whatever completions report the same as those of the history, they keep the servers
in step, as long as no receive has failed. -/
def InStep (listenFd : Nat) (s : Echo.Server.State) (log : List Echo.Server.Cqe) : Prop :=
  ∀ cqes, List.Forall₂ Answers cqes log →
    (∀ cqe ∈ log, cqe.userData.type = .read → 0 ≤ cqe.res) → Synced listenFd s log cqes

theorem InStep.other {listenFd : Nat} {s t : Echo.Server.State} {event : Echo.Server.Event}
    {log : List Echo.Server.Cqe} (hs : InStep listenFd s log) (h : Echo.Server.Step s event t)
    (hevent : event ≠ .handle) : InStep listenFd t log :=
  fun cqes hcqes hrecv => (hs cqes hcqes hrecv).perm (operations_step h hevent)

theorem InStep.handled {s : Echo.Server.State} {log : List Echo.Server.Cqe}
    {cqeC : Echo.Server.Cqe} {rest : List Echo.Server.Cqe} (hs : InStep s.listenFd s log)
    (hwired : Echo.Pending.Wired s) (hcq : s.cq = cqeC :: rest)
    (hfits : cqeC.userData.type = .read → cqeC.res ≤ maxMessageLen) :
    InStep s.listenFd (s.handled cqeC rest) (log ++ [cqeC]) := by
  intro cqes hcqes hrecv
  rcases forall₂_concat_right hcqes with ⟨front, cqe, rfl, hfront, hanswers⟩
  have hsynced := hs front hfront fun own hown => hrecv own (List.mem_append_left _ hown)
  have hlast : cqeC ∈ log ++ [cqeC] := List.mem_append_right _ (List.mem_singleton_self _)
  exact hsynced.handled hwired hcq hanswers fun htype => ⟨hrecv cqeC hlast htype, hfits htype⟩

/-- Completions of its own entries that report the same keep the coroutine server in step:
what is pending in it is what is pending in the other server, until that exits. -/
def Shadowed (listenFd : Nat) (s : Echo.Server.State) (log : List Echo.Server.Cqe) : Prop :=
  ∃ cqes pending, Processes listenFd cqes pending ∧ List.Forall₂ Answers cqes log ∧
    match pending with
    | some pending => (pending.map fun sqe => view sqe.op).Perm ((operations s).map view)
    | none => ∃ text, s.pc = .exited text

theorem exited_step {s t : Echo.Server.State} {event : Echo.Server.Event} {text : String}
    (h : Echo.Server.Step s event t) (hevent : event ≠ .handle) (hpc : s.pc = .exited text) :
    t.pc = .exited text := by
  cases h with
  | submitted hnot | passEnded hnot =>
    rw [hpc] at hnot
    cases hnot
  | issued | provided | took | gaveBack | accepted | acceptFailed | received | recvFailed
  | sent => exact hpc
  | _ => exact absurd rfl hevent

theorem Shadowed.other {s t : Echo.Server.State} {event : Echo.Server.Event}
    {listenFd : Nat} {log : List Echo.Server.Cqe} (hs : Shadowed listenFd s log)
    (h : Echo.Server.Step s event t) (hevent : event ≠ .handle) : Shadowed listenFd t log := by
  rcases hs with ⟨cqes, pending, hprocesses, hcqes, hpending⟩
  refine ⟨cqes, pending, hprocesses, hcqes, ?_⟩
  cases pending with
  | some pending => exact hpending.trans ((operations_step h hevent).map view).symm
  | none =>
    rcases hpending with ⟨text, hpc⟩
    exact ⟨text, exited_step h hevent hpc⟩

theorem Shadowed.handled {s : Echo.Server.State} {log : List Echo.Server.Cqe}
    {cqeC : Echo.Server.Cqe} {rest : List Echo.Server.Cqe} (hs : Shadowed s.listenFd s log)
    (hinStep : InStep s.listenFd s log) (hwired : Echo.Pending.Wired s) (hpc : s.pc = .pass)
    (hcq : s.cq = cqeC :: rest)
    (hrecv : ∀ cqe ∈ log, cqe.userData.type = .read → 0 ≤ cqe.res)
    (hread : cqeC.userData.type = .read → 0 ≤ cqeC.res ∧ cqeC.res ≤ maxMessageLen) :
    Shadowed s.listenFd (s.handled cqeC rest) (log ++ [cqeC]) := by
  rcases hs with ⟨cqes, pending, hprocesses, hcqes, hpending⟩
  cases pending with
  | none =>
    rcases hpending with ⟨text, hexited⟩
    rw [hpc] at hexited
    cases hexited
  | some pending =>
    have hviews := hpending.trans ((operations_of_cq hcq).map view)
    have hmem := hviews.mem_iff.mpr (List.mem_cons_self ..)
    rcases List.mem_map.mp hmem with ⟨sqe, hsqe, hview⟩
    have hanswers : Answers ⟨sqe, cqeC.res, cqeC.flags⟩ cqeC := ⟨hview, rfl, rfl⟩
    have hcqes' : List.Forall₂ Answers (cqes ++ [⟨sqe, cqeC.res, cqeC.flags⟩]) (log ++ [cqeC]) :=
      List.rel_append hcqes (.cons hanswers .nil)
    have hsame := ((hinStep cqes hcqes hrecv).reaction hwired hcq hanswers hread).2
    have hexit : _ = Option.map Stop.exit _ := congrArg Outcome.stop hsame
    cases hstop : (handleCqe s.listenFd (after s.listenFd ∅ cqes)
        ⟨sqe, cqeC.res, cqeC.flags⟩).stop with
    | some stop =>
      rw [outcome, hstop, eq_comm, Option.map_eq_some_iff] at hexit
      rcases hexit with ⟨text, hexit, -⟩
      refine ⟨_, none, hprocesses.stopped hsqe hstop, hcqes', text, ?_⟩
      rw [handled_of_exit rest hexit]
    | none =>
      rw [outcome, hstop, eq_comm, Option.map_eq_none_iff] at hexit
      have herase := List.perm_cons_erase hsqe
      refine ⟨_, _, hprocesses.handled herase hstop, hcqes', ?_⟩
      have hrest := (herase.map fun sqe => view sqe.op).symm.trans hviews
      rw [List.map_cons, List.map_cons, hview] at hrest
      have hafter := (operations_handled rest hexit).map view
      rw [List.map_append, List.map_map] at hafter
      change (List.map (fun sqe : Sqe => view sqe.op) (_ ++ _)).Perm _
      rw [List.map_append, show List.map (fun sqe : Sqe => view sqe.op) _ = _ from
        congrArg Outcome.queued hsame]
      exact (hrest.cons_inv.append_left _).trans hafter.symm

structure Follows (listenFd : Nat) (s : Echo.Server.State) (log : List Echo.Server.Cqe) :
    Prop where
  listenFd_eq : s.listenFd = listenFd
  inStep : InStep listenFd s log
  shadowed : (∀ cqe ∈ log, cqe.userData.type = .read → 0 ≤ cqe.res) → Shadowed listenFd s log

theorem follows_init (listenFd : Nat) :
    Follows listenFd (Echo.Server.State.init listenFd) [] := by
  refine ⟨rfl, ?_, fun _ => ⟨[], _, .start, .nil, List.Perm.refl _⟩⟩
  intro cqes hcqes _
  cases hcqes
  exact synced_init listenFd

theorem Follows.step {s t : Echo.Server.State} {event : Echo.Server.Event}
    {log : List Echo.Server.Cqe} (hs : Follows s.listenFd s log) (hwired : Echo.Pending.Wired s)
    (hfits : ∀ cqe ∈ s.cq, cqe.userData.type = .read → cqe.res ≤ maxMessageLen)
    (h : Echo.Server.step s event = some t) :
    Follows s.listenFd t (log ++ processed s event) := by
  have hsound := Echo.Server.step_sound h
  by_cases hevent : event = .handle
  · subst hevent
    rcases handle_cases h with ⟨hpc, cqeC, rest, hcq, rfl⟩
    have hprocessed : processed s .handle = [cqeC] := by
      rw [processed, hcq]
      rfl
    have hlast : cqeC ∈ log ++ [cqeC] := List.mem_append_right _ (List.mem_singleton_self _)
    have hfits := hfits cqeC (by rw [hcq]; exact List.mem_cons_self ..)
    rw [hprocessed]
    refine ⟨listenFd_step hsound, hs.inStep.handled hwired hcq hfits, fun hrecv => ?_⟩
    have hold : ∀ cqe ∈ log, cqe.userData.type = .read → 0 ≤ cqe.res :=
      fun own hown => hrecv own (List.mem_append_left _ hown)
    exact (hs.shadowed hold).handled hs.inStep hwired hpc hcq hold fun htype =>
      ⟨hrecv cqeC hlast htype, hfits htype⟩
  · have hprocessed : processed s event = [] := by
      cases event with
      | handle => exact absurd rfl hevent
      | _ => rfl
    rw [hprocessed, List.append_nil]
    exact ⟨listenFd_step hsound, hs.inStep.other hsound hevent,
      fun hrecv => (hs.shadowed hrecv).other hsound hevent⟩

theorem follows_of_reachable {listenFd : Nat} {p : Echo.Server.State × List Echo.Server.Cqe}
    (h : Reachable (record processed Echo.Server.step) (Echo.Server.State.init listenFd, []) p) :
    Follows listenFd p.1 p.2 := by
  refine h.invariant (fun p => Follows listenFd p.1 p.2) (follows_init listenFd) ?_
  rintro ⟨s, log⟩ event ⟨t, log'⟩ hreach hs hstep
  rcases record_eq_some.mp hstep with ⟨hstep, rfl⟩
  have hreachC := hreach.of_record
  cases hs.listenFd_eq
  exact hs.step (Echo.Pending.wired_of_reachable hreachC) (message_fits hreachC) hstep

/-- Take the completions that the server without coroutines processes in any run, no
receive among them with an error. The coroutine server can process completions of its own
entries that report the same of the same operations. And whatever completions report that,
one by one they make the two servers queue the same entries, end the same connection and
exit with the same text, and each receive and send finds its coroutine suspended where it
waits for it. -/
theorem same_outcomes {listenFd : Nat} {s : Echo.Server.State} {log : List Echo.Server.Cqe}
    (h : Reachable (record processed Echo.Server.step) (Echo.Server.State.init listenFd, [])
      (s, log))
    (hrecv : ∀ cqe ∈ log, cqe.userData.type = .read → 0 ≤ cqe.res) :
    (∃ cqes pending, Processes listenFd cqes pending ∧ List.Forall₂ Answers cqes log) ∧
      ∀ cqes, List.Forall₂ Answers cqes log →
        (met listenFd ∅ cqes).map (fun p => outcome (handleCqe listenFd p.1 p.2)) =
            log.map (fun cqe => outcomeC (Echo.Server.handleCqe listenFd cqe)) ∧
          ∀ p ∈ met listenFd ∅ cqes, Finds p.1 p.2 := by
  have hfollows := follows_of_reachable h
  rcases hfollows.shadowed hrecv with ⟨cqes, pending, hprocesses, hcqes, -⟩
  refine ⟨⟨cqes, pending, hprocesses, hcqes⟩, fun cqes hcqes => ?_⟩
  have hsynced := hfollows.inStep cqes hcqes hrecv
  exact ⟨hsynced.same, hsynced.finds⟩

def oneClient : List Cqe :=
  let p : Promise := ⟨⟨5, .read, 7⟩, 2⟩
  [⟨addAccept 3 0, 5, 0⟩,
    ⟨(echoRead p maxMessageLen iosqeBufferSelect).2, 2, bufferFlags 7⟩,
    ⟨(echoWrite p 2 0).2, 2, 0⟩,
    ⟨(echoAddBuffer p).2, 0, 0⟩,
    ⟨(echoRead p maxMessageLen iosqeBufferSelect).2, 0, 0⟩]

theorem same_outcomes_one_client : ∃ s log,
    Reachable (record processed Echo.Server.step) (Echo.Server.State.init 3, []) (s, log) ∧
      log.map (fun cqe => (cqe.userData.type, cqe.res)) =
        [(.accept, 5), (.read, 2), (.write, 2), (.provBuf, 0), (.read, 0)] ∧
      (met 3 ∅ oneClient).map (fun p => outcome (handleCqe 3 p.1 p.2)) =
        log.map fun cqe => outcomeC (Echo.Server.handleCqe 3 cqe) := by
  have hrun : (run (record processed Echo.Server.step) (Echo.Server.State.init 3, [])
      (Echo.Server.connect 5 ++ ([.take 0 7, .complete 0 2 [104, 105], .handle, .endPass,
        .submit 1, .issue, .complete 1 2 [], .handle, .endPass, .submit 2, .provide 0, .issue,
        .complete 1 0 [], .handle, .handle] : List Echo.Server.Event))).map Prod.snd =
      some [⟨Echo.Server.addAccept 3 0, 5, 0⟩,
        ⟨Echo.Server.addSocketRead 5 groupId maxMessageLen iosqeBufferSelect, 2, bufferFlags 7⟩,
        ⟨Echo.Server.addSocketWrite 5 7 2 0, 2, 0⟩,
        ⟨Echo.Server.addProvideBuf 7 groupId, 0, 0⟩,
        ⟨Echo.Server.addSocketRead 5 groupId maxMessageLen iosqeBufferSelect, 0, 0⟩] := by
    decide +kernel
  rcases Reachable.of_view hrun with ⟨⟨s, log⟩, hreach, rfl⟩
  refine ⟨s, _, hreach, rfl, ((same_outcomes hreach (by decide)).2 oneClient ?_).1⟩
  repeat' constructor

end IoWrapper.CoroEcho.Lockstep
