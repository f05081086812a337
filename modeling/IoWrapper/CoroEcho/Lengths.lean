import IoWrapper.CoroEcho.Matching

/-! How much is sent for what has been received. The result of a receive passes through a
`size_t`, where no error is below zero any more: the coroutine takes it for a length, and
the `len` of the send is what is left of it in 32 bits. -/
namespace IoWrapper.CoroEcho.Lengths
open Core.Machine Core.Tables Server Matching
open Echo.Server (maxMessageLen enobufs)

/-- What the processing of a receive should do: send what has been received from the
buffer it is in, or give the buffer back and end the connection. -/
structure Echoes (fd bid : Nat) (res : Int) (reaction : Reaction) : Prop where
  sends : 0 < res → reaction.stop = none ∧
    reaction.queued.map Sqe.op = [.send fd bid res.toNat] ∧ res.toNat ≤ maxMessageLen
  ends : res ≤ 0 → reaction.stop = none ∧
    reaction.queued.map Sqe.op = [.provideBuffers bid maxMessageLen 1] ∧
    reaction.ended = some fd ∧ fd ∉ reaction.connections

theorem sizeOfInt_of_nonneg {res : Int} (h : 0 ≤ res) (hlt : res < 2 ^ 31) :
    sizeOfInt res = res.toNat := by
  unfold sizeOfInt
  rw [Int.emod_eq_of_lt h (by omega)]

theorem sizeOfInt_of_neg {res : Int} (h : res < 0) (hle : -2 ^ 31 ≤ res) : sizeOfInt res ≠ 0 := by
  unfold sizeOfInt
  omega

theorem sizeOfInt_eq_zero {res : Int} (hint : -2 ^ 31 ≤ res ∧ res < 2 ^ 31) :
    sizeOfInt res = 0 ↔ res = 0 := by
  constructor
  · intro hsize
    by_contra hne
    rcases Int.lt_or_gt_of_ne hne with hneg | hpos
    · exact sizeOfInt_of_neg hneg hint.1 hsize
    · rw [sizeOfInt_of_nonneg (Int.le_of_lt hpos) hint.2] at hsize
      omega
  · rintro rfl
    rfl

theorem lenOfSize_toNat {res : Int} (hlt : res < 2 ^ 31) : lenOfSize res.toNat = res.toNat := by
  unfold lenOfSize
  omega

theorem result_int32 {listenFd : Nat} {s : State} (h : Reachable step (State.init listenFd) s) :
    ∀ cqe ∈ s.cq, -2 ^ 31 ≤ cqe.res ∧ cqe.res < 2 ^ 31 := by
  refine h.invariant (fun s => ∀ cqe ∈ s.cq, -2 ^ 31 ≤ cqe.res ∧ cqe.res < 2 ^ 31) ?_ ?_
  · intro cqe hcqe
    cases hcqe
  · intro s event t _ hs hstep
    cases step_sound hstep with
    | submitted | stopped | overran | passEnded => exact hs
    | handled hpc hcq =>
      intro cqe hcqe
      exact hs cqe (by rw [hcq]; exact List.mem_cons_of_mem _ hcqe)
    | completed hsqe hpossible =>
      intro cqe hcqe
      rcases List.mem_append.mp hcqe with hcqe | hcqe
      · exact hs cqe hcqe
      · rw [List.mem_singleton.mp hcqe]
        exact ⟨hpossible.1, hpossible.2.1⟩

theorem recv_of_type_read {sqe : Sqe} (h : sqe.userData.type = .read) :
    ∃ len, sqe.op = .recv sqe.userData.fd len := by
  rw [type_of_op] at h
  cases hop : sqe.op with
  | recv fd len =>
    rw [fd_of_recv hop]
    exact ⟨len, rfl⟩
  | _ =>
    rw [hop] at h
    cases h

theorem echoes_of_answer {listenFd fd len : Nat} {connections : Table ConnTask} {cqe : Cqe}
    {reaction : Reaction} (h : Answer listenFd connections cqe reaction)
    (hop : cqe.sqe.op = .recv fd len) (hint : -2 ^ 31 ≤ cqe.res ∧ cqe.res < 2 ^ 31) :
    Echoes fd (cqe.flags >>> 16) cqe.res reaction ↔ 0 ≤ cqe.res ∧ cqe.res ≤ maxMessageLen := by
  cases h with
  | exited hwhy =>
    have hbufs : cqe.res = -enobufs := by
      rcases hwhy with hbufs | ⟨htype, -⟩
      · exact hbufs
      · rw [cqe_type hop] at htype
        cases htype
    unfold enobufs at hbufs
    constructor
    · intro hechoes
      cases (hechoes.ends (by omega)).1
    · intro hres
      omega
  | hungUp hown hbufs htask hsize hsqe =>
    rw [hop] at hown
    cases hown
    have hzero := (sizeOfInt_eq_zero hint).mp hsize
    constructor
    · intro _
      rw [hzero]
      decide
    · intro _
      refine ⟨fun hpos => absurd hpos (by omega), fun _ => ⟨rfl, ?_, rfl, notMem_erase _ _⟩⟩
      simp [hsqe]
  | read hown hbufs htask hsize hsqe =>
    rw [hop] at hown
    cases hown
    constructor
    · intro hechoes
      by_cases hpos : 0 < cqe.res
      · have hlen := (hechoes.sends hpos).2.2
        omega
      · cases (hechoes.ends (by omega)).2.2.1
    · intro hres
      have hzero : cqe.res ≠ 0 := fun heq => hsize ((sizeOfInt_eq_zero hint).mpr heq)
      rw [sizeOfInt_of_nonneg hres.1 hint.2, lenOfSize_toNat hint.2] at hsqe
      refine ⟨fun _ => ⟨rfl, ?_, by omega⟩, fun hneg => absurd hneg (by omega)⟩
      simp [hsqe]
  | provided hown | acceptFailed hown | accepted hown | wrote hown =>
    rw [hop] at hown
    cases hown

/-- In every run, the processing of a receive echoes what has been received, or ends the
connection, exactly when the result is the length of a message. -/
theorem read_echoes_iff {listenFd : Nat} {s : State} (h : Reachable step (State.init listenFd) s)
    {cqe : Cqe} {rest : List Cqe} (hcq : s.cq = cqe :: rest) (htype : cqe.userData.type = .read) :
    Echoes cqe.userData.fd (cqe.flags >>> 16) cqe.res
      (handleCqe s.listenFd s.connections cqe) ↔ 0 ≤ cqe.res ∧ cqe.res ≤ maxMessageLen := by
  rcases recv_of_type_read htype with ⟨len, hop⟩
  have hint := result_int32 h cqe (by rw [hcq]; exact List.mem_cons_self ..)
  exact echoes_of_answer ((wired_of_reachable h).answer hcq) hop hint

def oneReceive (res : Int) : List Event :=
  [.submit, .complete 0 5 0, .handle, .endPass, .submit, .complete 0 res (7 * 2 ^ 16 + 1)]

theorem oneReceive_message :
    (run step (State.init 4) (oneReceive 3)).map
      (fun s => s.cq.map fun cqe => (cqe.userData.type, cqe.res)) = some [(.read, 3)] := by
  decide +kernel

theorem oneReceive_message_echoes : ∃ s, Reachable step (State.init 4) s ∧
    ∃ cqe rest, s.cq = cqe :: rest ∧ cqe.userData.type = .read ∧ cqe.res = 3 ∧
      Echoes cqe.userData.fd (cqe.flags >>> 16) cqe.res
        (handleCqe s.listenFd s.connections cqe) := by
  rcases Reachable.of_view oneReceive_message with ⟨s, hreach, hview⟩
  cases hcq : s.cq with
  | nil =>
    rw [hcq] at hview
    cases hview
  | cons cqe rest =>
    rw [hcq, List.map_cons, List.cons.injEq, Prod.mk.injEq] at hview
    refine ⟨s, hreach, cqe, rest, hcq, hview.1.1, hview.1.2, ?_⟩
    rw [read_echoes_iff hreach hcq hview.1.1, hview.1.2]
    decide

theorem oneReceive_reset :
    (run step (State.init 4) (oneReceive (-104) ++ [.handle])).map
      (fun s => (s.pc, s.sq.map Sqe.op, s.connections.keys, s.handled.map Cqe.res)) =
      some (.pass, [.send 5 7 4294967192], [5], [5, -104]) := by
  decide +kernel

/-- The client resets its connection; four gigabytes are queued for sending, and the
connection goes on. -/
theorem reset_is_echoed : ∃ s, Reachable step (State.init 4) s ∧ s.pc = .pass ∧
    s.handled.map Cqe.res = [5, -104] ∧ s.sq.map Sqe.op = [.send 5 7 4294967192] ∧
    s.connections.keys = [5] := by
  rcases Reachable.of_view oneReceive_reset with ⟨s, hreach, hview⟩
  simp only [Prod.mk.injEq] at hview
  exact ⟨s, hreach, hview.1, hview.2.2.2, hview.2.1, hview.2.2.1⟩

end IoWrapper.CoroEcho.Lengths
