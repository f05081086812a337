import IoWrapper.CoroEcho.Matching

/-! Room in the submission queue. A pass queues two entries for the completion of a send,
so that a queue of 4096 entries has room for the sends of 2047 connections and the accept,
and not for one connection more. -/
namespace IoWrapper.CoroEcho.Room
open Core.Machine Core.Tables Core.Pool Server Matching
open Echo.Server (Op)

def fdOf : Op → Option Nat
  | .recv fd _ => some fd
  | .send fd _ _ => some fd
  | .accept _ | .provideBuffers _ _ _ => none

def isBusy (op : Op) : Bool := isAccept op || (fdOf op).isSome

/-- The operations that can complete before the next submit. -/
def outsideOps (s : State) : List Op :=
  s.inflight.map Sqe.op ++ s.cq.map fun cqe => cqe.sqe.op

def outside (s : State) : Nat := (outsideOps s).countP isBusy

/-- There are at most so many connections before the step. -/
def Within (limit : Nat) (s : State) (_ : Event) : Prop := s.connections.keys.length ≤ limit

instance (limit : Nat) (s : State) (event : Event) : Decidable (Within limit s event) :=
  inferInstanceAs (Decidable (_ ≤ limit))

theorem onFd_eq_fdOf (fd : Nat) (op : Op) : onFd fd op = (fdOf op == some fd) := by
  cases op with
  | recv own len => simp [onFd, fdOf, Bool.beq_comm]
  | send own bid len => simp [onFd, fdOf, Bool.beq_comm]
  | accept own => rfl
  | provideBuffers bid len nr => rfl

theorem countP_fdOf_le {ops : List Op} {connections : Table ConnTask}
    (h : Matched ops connections) :
    ops.countP (fun op => (fdOf op).isSome) ≤ connections.keys.length := by
  rw [← List.length_filterMap_eq_countP]
  apply List.Subperm.length_le
  apply List.subperm_of_subset
  · rw [List.nodup_iff_count_le_one]
    intro fd
    rw [List.count_filterMap]
    have hsingle := h.single fd
    rw [show onFd fd = fun op => fdOf op == some fd from funext (onFd_eq_fdOf fd)] at hsingle
    exact hsingle
  · intro fd hfd
    rcases List.mem_filterMap.mp hfd with ⟨op, hop, hown⟩
    have hon : onFd fd op = true := by
      rw [onFd_eq_fdOf, hown, beq_self_eq_true]
    rcases h.awaited fd op hop hon with ⟨task, htask, -⟩
    exact AList.mem_keys.mp (mem_of_lookup htask)

theorem countP_isBusy (ops : List Op) :
    ops.countP isBusy = ops.countP isAccept + ops.countP fun op => (fdOf op).isSome := by
  induction ops with
  | nil => rfl
  | cons op ops ih =>
    rw [List.countP_cons, List.countP_cons, List.countP_cons, ih]
    cases op <;> simp [isBusy, isAccept, fdOf] <;> omega

def Spare (limit : Nat) (s : State) : Prop := s.sq.length + 2 * outside s ≤ 2 * (limit + 1)

theorem busy_le {s : State} (h : Wired s) :
    (pendingOps s).countP isBusy ≤ 1 + s.connections.keys.length := by
  have hfds := countP_fdOf_le h.matched
  rw [countP_isBusy, h.accepts]
  omega

theorem queued_length_le {listenFd : Nat} {connections : Table ConnTask} {cqe : Cqe}
    {reaction : Reaction} (h : Answer listenFd connections cqe reaction) :
    reaction.queued.length ≤ 2 * [cqe.sqe.op].countP isBusy := by
  cases h with
  | exited => exact Nat.zero_le _
  | provided => exact Nat.zero_le _
  | acceptFailed hop | accepted hop | hungUp hop | read hop | wrote hop =>
    simp [hop, isBusy, isAccept, fdOf]

theorem outside_of_cq {s : State} {cqe : Cqe} {rest : List Cqe} (hcq : s.cq = cqe :: rest) :
    outside s = [cqe.sqe.op].countP isBusy +
      (s.inflight.map Sqe.op ++ rest.map fun cqe => cqe.sqe.op).countP isBusy := by
  unfold outside outsideOps
  rw [hcq, List.map_cons, ← List.countP_append]
  exact List.perm_middle.countP_eq _

theorem outside_completed {s : State} {i : Nat} {sqe : Sqe} (res : Int) (flags : Nat)
    (h : s.inflight[i]? = some sqe) :
    outside { s with
      inflight := s.inflight.eraseIdx i
      cq := s.cq ++ [⟨sqe, res, flags⟩] } = outside s := by
  have herase := ((perm_eraseIdx h).map Sqe.op).countP_eq isBusy
  simp only [outside, outsideOps, List.map_append, List.map_cons, List.map_nil,
    List.countP_append, List.countP_cons, List.countP_nil] at herase ⊢
  omega

theorem Spare.step {limit : Nat} {s t : State} {event : Event} (hs : Spare limit s)
    (hwired : Wired s) (hwithin : Within limit s event) (h : Step s event t) : Spare limit t := by
  cases h with
  | submitted =>
    have hbusy := busy_le hwired
    have houtside : outside { s with sq := [], inflight := s.inflight ++ s.sq, pc := .pass } =
        (pendingOps s).countP isBusy := by
      rw [← (pendingOps_submitted s .pass).countP_eq]
      rfl
    unfold Within at hwithin
    unfold Spare
    rw [houtside, List.length_nil]
    omega
  | stopped | overran | passEnded => exact hs
  | @handled cqe rest hpc hcq hstop hroom =>
    have hqueued := queued_length_le (hwired.answer hcq)
    have houtside := outside_of_cq hcq
    unfold Spare at hs ⊢
    rw [List.length_append]
    rw [houtside] at hs
    simp only [outside, outsideOps] at hs ⊢
    omega
  | completed hsqe =>
    unfold Spare
    rw [outside_completed _ _ hsqe]
    exact hs

theorem spare_of_reachable {limit listenFd : Nat} {s : State}
    (h : Reachable (restrict (Within limit) step) (State.init listenFd) s) : Spare limit s := by
  refine h.invariant (Spare limit) ?_ ?_
  · change 1 + 2 * 0 ≤ 2 * (limit + 1)
    omega
  · intro s event t hreach hs hstep
    rcases restrict_eq_some.mp hstep with ⟨hwithin, hstep⟩
    exact hs.step (wired_of_reachable hreach.of_restrict) hwithin (step_sound hstep)

theorem no_nullSqe {limit listenFd : Nat} (hlimit : 2 * (limit + 1) ≤ sqEntries) {s : State}
    (h : Reachable (restrict (Within limit) step) (State.init listenFd) s) :
    s.pc ≠ .nullSqe := by
  refine h.invariant (fun s => s.pc ≠ .nullSqe) Pc.noConfusion ?_
  intro s event t hreach hs hstep
  cases step_sound (restrict_eq_some.mp hstep).2 with
  | submitted | stopped | passEnded => exact Pc.noConfusion
  | handled | completed => exact hs
  | @overran cqe rest hpc hcq hroom =>
    have hspare := spare_of_reachable hreach
    have hqueued := queued_length_le ((wired_of_reachable hreach.of_restrict).answer hcq)
    have houtside := outside_of_cq hcq
    unfold Spare at hspare
    omega

end IoWrapper.CoroEcho.Room
