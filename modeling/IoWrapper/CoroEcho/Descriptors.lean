import IoWrapper.CoroEcho.Lengths

/-! The descriptors of clients. A coroutine that ends its connection shuts the descriptor
down and leaves `connections`; nothing closes the descriptor, so that the process holds
one more for every client that has hung up. -/
namespace IoWrapper.CoroEcho.Descriptors
open Core.Machine Core.Tables Server Matching Lengths
open Echo.Server (Op)

def isHangup (cqe : Cqe) : Bool := cqe.userData.type = .read ∧ cqe.res = 0

def hangups (s : State) : Nat := s.handled.countP isHangup

theorem length_keys_answer {listenFd : Nat} {connections : Table ConnTask} {cqe : Cqe}
    {reaction : Reaction} (h : Answer listenFd connections cqe reaction)
    (hstop : reaction.stop = none) (hint : -2 ^ 31 ≤ cqe.res ∧ cqe.res < 2 ^ 31) :
    connections.keys.length + (opened cqe).length =
      reaction.connections.keys.length + [cqe].countP isHangup := by
  cases h with
  | exited => cases hstop
  | provided hop => simp [opened, isHangup, cqe_type hop, Op.connInfo]
  | acceptFailed hop hbufs hres =>
    simp [opened, isHangup, cqe_type hop, Op.connInfo, Int.not_le.mpr hres]
  | accepted hop hres hnew =>
    rw [length_keys_insert_of_notMem _ hnew]
    simp [opened, isHangup, cqe_type hop, Op.connInfo, hres]
  | hungUp hop hbufs htask hsize =>
    rw [← length_keys_erase (mem_of_lookup htask)]
    simp [opened, isHangup, cqe_type hop, Op.connInfo, (sizeOfInt_eq_zero hint).mp hsize]
  | read hop hbufs htask hsize =>
    have hres : cqe.res ≠ 0 := fun heq => hsize ((sizeOfInt_eq_zero hint).mpr heq)
    rw [length_keys_insert _ (mem_of_lookup htask)]
    simp [opened, isHangup, cqe_type hop, Op.connInfo, hres]
  | wrote hop hbufs htask =>
    rw [length_keys_insert _ (mem_of_lookup htask)]
    simp [opened, isHangup, cqe_type hop, Op.connInfo]

theorem length_fds {listenFd : Nat} {s : State} (h : Reachable step (State.init listenFd) s) :
    s.fds.length = s.connections.keys.length + hangups s := by
  refine h.invariant (fun s => s.fds.length = s.connections.keys.length + hangups s) rfl ?_
  intro s event t hreach hs hstep
  cases step_sound hstep with
  | submitted | stopped | overran | passEnded | completed => exact hs
  | @handled cqe rest hpc hcq hstop hroom =>
    have hint := result_int32 hreach cqe (by rw [hcq]; exact List.mem_cons_self ..)
    have hkeys := length_keys_answer ((wired_of_reachable hreach).answer hcq) hstop hint
    simp only [hangups, List.length_append, List.countP_append] at hs ⊢
    omega

/-- The process holds as many descriptors of clients as there are entries in
`connections` exactly while no client has hung up. -/
theorem held_eq_connections_iff {listenFd : Nat} {s : State}
    (h : Reachable step (State.init listenFd) s) :
    s.fds.length = s.connections.keys.length ↔
      ∀ cqe ∈ s.handled, ¬ (cqe.userData.type = .read ∧ cqe.res = 0) := by
  have hlength := length_fds h
  have hnone : hangups s = 0 ↔ ∀ cqe ∈ s.handled, ¬ (cqe.userData.type = .read ∧ cqe.res = 0) := by
    unfold hangups
    rw [List.countP_eq_zero]
    simp only [isHangup, decide_eq_true_eq]
  rw [← hnone]
  omega

theorem held_eq_connections_one_client : ∃ s, Reachable step (State.init 4) s ∧
    s.fds = [5] ∧ s.fds.length = s.connections.keys.length := by
  have hrun : (run step (State.init 4) (oneReceive 3 ++ [.handle])).map
      (fun s => (s.fds, s.handled.map fun cqe => (cqe.userData.type, cqe.res))) =
      some ([5], [(.accept, 5), (.read, 3)]) := by
    decide +kernel
  rcases Reachable.of_view hrun with ⟨s, hreach, hview⟩
  simp only [Prod.mk.injEq] at hview
  refine ⟨s, hreach, hview.1, (held_eq_connections_iff hreach).mpr ?_⟩
  intro cqe hcqe hhangup
  have hmem : (cqe.userData.type, cqe.res) ∈
      s.handled.map fun cqe => (cqe.userData.type, cqe.res) :=
    List.mem_map_of_mem hcqe
  rw [hview.2, hhangup.1, hhangup.2] at hmem
  revert hmem
  decide

/-- A client connects and hangs up; its descriptor stays open. -/
theorem hangup_leaks : ∃ s, Reachable step (State.init 4) s ∧ s.pc = .pass ∧ s.cq = [] ∧
    s.fds = [5] ∧ s.connections.keys = [] := by
  have hrun : (run step (State.init 4) (oneReceive 0 ++ [.handle])).map
      (fun s => (s.pc, s.cq, s.fds, s.connections.keys)) = some (.pass, [], [5], []) := by
    decide +kernel
  rcases Reachable.of_view hrun with ⟨s, hreach, hview⟩
  simp only [Prod.mk.injEq] at hview
  exact ⟨s, hreach, hview⟩

end IoWrapper.CoroEcho.Descriptors
