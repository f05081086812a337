import IoWrapper.FileRing.Loop

/-! The counter of `startLoop`. It is kept by adding one for each push and by a
reset after each flush, so it counts the pending requests exactly as long as
every flush pops all of them. -/
namespace IoWrapper.FileRing.Counter
open Core.Machine FileRing.Ring Pop Loop

def pending (s : Sys) : Nat := (pendingInfos s.ring).length

/-- Steps on which neither a submission nor a request fails. -/
def Clean (_ : Sys) : Event → Prop
  | .submit ret => 0 ≤ ret
  | .complete _ res _ => 0 ≤ res
  | _ => True

instance (s : Sys) : (event : Event) → Decidable (Clean s event)
  | .submit ret => inferInstanceAs (Decidable (0 ≤ ret))
  | .complete _ res _ => inferInstanceAs (Decidable (0 ≤ res))
  | .readFile .. | .writeFile .. | .receive .. | .callReturn _ | .poll | .receivePoll _
  | .pollReturn _ | .quit | .pop => inferInstanceAs (Decidable True)

def CountOk (queueSize pending : Nat) : Pc → Prop
  | .select => queueSize = pending ∧ pending ≤ queueThreshold
  | .submitting n => n = pending ∧ pending ≤ queueThreshold + 1
  | .popping n => n = pending ∧ pending ≤ queueThreshold + 1
  | .stopped => True
  | .faulted fault => fault ≠ .nullSqe

structure Counted (s : Sys) : Prop where
  results : ∀ cqe ∈ s.ring.cq, 0 ≤ cqe.res
  count : CountOk s.queueSize (pending s) s.pc

theorem pending_eq (s : Sys) :
    pending s = s.ring.sq.length + s.ring.inflight.length + s.ring.cq.length := by
  simp [pending, pendingInfos, Nat.add_assoc]

theorem Counted.room {s : Sys} (hs : Counted s) (hpc : s.pc = .select) :
    s.ring.sq.length < queueDepth := by
  have hcount := hs.count
  rw [hpc] at hcount
  have hbound := hcount.2
  rw [pending_eq] at hbound
  simp only [queueThreshold] at hbound
  simp only [queueDepth]
  omega

theorem Counted.resumed {s : Sys} {left : Nat} {ring : State}
    (hresults : ∀ cqe ∈ ring.cq, 0 ≤ cqe.res) (hleft : left = (pendingInfos ring).length)
    (hbound : left ≤ queueThreshold + 1) : Counted (s.resumed left ring) := by
  unfold Frame.resumed
  split
  · rename_i hzero
    refine ⟨hresults, ?_, ?_⟩
    · simp only [pending, Frame.flushedTo]
      omega
    · simp only [pending, Frame.flushedTo]
      omega
  · refine ⟨hresults, hleft, ?_⟩
    simp only [pending]
    omega

theorem Counted.step {s t : Sys} {event : Event} (hs : Counted s) (hclean : Clean s event)
    (hstep : Step s event t) : Counted t := by
  have hcount := hs.count
  cases hstep with
  | opened hcall hfd => exact ⟨hs.results, hcount⟩
  | pushFaulted hpc hr halloc hfull =>
    -- The loop flushes long before the counter comes to the size of the queue.
    exact absurd (hs.room hpc) (by omega)
  | pushFailed hpc hr halloc =>
    exact ⟨hs.results, hcount⟩
  | @pushed i memalign r hpc hr halloc hroom =>
    rw [hpc] at hcount
    have hmore : pending (s.pushed i r) = pending s + 1 := by
      simp only [pending_eq, Sys.pushed, Frame.registered, rig, Queues.register,
        List.length_append, List.length_singleton]
      omega
    refine ⟨hs.results, ?_⟩
    rw [hmore]
    simp only [Sys.pushed, hpc]
    split
    · exact ⟨by rw [hcount.1], by have := hcount.2; omega⟩
    · exact ⟨by rw [hcount.1], by have := hcount.1; omega⟩
  | callReturn hreceived hnew => exact ⟨hs.results, hcount⟩
  | poll => exact ⟨hs.results, hcount⟩
  | @receivePoll i p hpc hp hwaits =>
    rw [hpc] at hcount
    unfold Frame.receivePoll
    dsimp only
    split
    · exact ⟨hs.results, hcount.1, Nat.le_succ_of_le hcount.2⟩
    · refine ⟨hs.results, ?_⟩
      rw [hpc]
      exact hcount
  | pollReturn hp hreceived hblocked => exact ⟨hs.results, hcount⟩
  | quit hpc => exact ⟨hs.results, trivial⟩
  | submitFailed hpc hret =>
    simp only [Clean] at hclean
    omega
  | @submitted n ret hpc hret =>
    rw [hpc] at hcount
    have hsame : (pendingInfos (s.ring.taken ret.toNat)).length = pending s := by
      simp only [pending, pendingInfos, Queues.taken, List.length_append, List.length_drop,
        List.length_take, List.length_map]
      omega
    refine ⟨hs.results, ?_⟩
    simp only [pending, hsame]
    exact hcount
  | @completed i fi res data hfi hreports =>
    have hsame : (pendingInfos (posted s.ring i fi res data)).length = pending s := by
      have hlen := List.length_eraseIdx_of_lt (List.getElem?_eq_some_iff.mp hfi).1
      have hpos := (List.getElem?_eq_some_iff.mp hfi).1
      simp only [pending, pendingInfos, posted, List.length_append, List.length_map, hlen,
        List.length_singleton]
      omega
    refine ⟨fun cqe hcqe => ?_, ?_⟩
    · rcases List.mem_append.mp hcqe with hcqe | hcqe
      · exact hs.results cqe hcqe
      · rw [List.mem_singleton.mp hcqe]
        unfold completion
        split <;> exact hclean
    · simp only [pending, hsame]
      exact hcount
  | popFaulted hpc hpop =>
    refine ⟨hs.results, ?_⟩
    rcases popIteration_fault hpop with hfault | hfault <;> simp [CountOk, hfault]
  | spun hpc hcq =>
    rw [hpc] at hcount
    exact Counted.resumed hs.results hcount.1 (hcount.1 ▸ hcount.2)
  | @refused n cqe rest hpc hcq hneg =>
    have := hs.results cqe (by simp [hcq])
    omega
  | @popped n cqe rest info file effect hpc hcq hres hentry hclose hcall =>
    rw [hpc] at hcount
    have hfewer : (pendingInfos (s.ring.popped cqe file effect)).length + 1 = pending s := by
      have := (pendingInfos_popped file effect hcq).length_eq
      simpa [pending] using this.symm
    refine Counted.resumed (fun c hc => hs.results c ?_) ?_ ?_
    · exact List.mem_of_mem_tail hc
    · have := hcount.1
      omega
    · have := hcount.1
      have := hcount.2
      omega

theorem counted_of_reachable {s : Sys} (h : Reachable (restrict Clean step) Sys.init s) :
    Counted s := by
  refine h.invariant Counted ⟨by simp [Sys.init, Queues.init], ?_, ?_⟩
    fun s event t _ hs hstep => ?_
  · rfl
  · exact Nat.zero_le _
  · have hboth := restrict_eq_some.mp hstep
    exact hs.step hboth.1 (step_sound hboth.2)

/-- In every run without a failed submission or a failed request the counter is
exact at the loop head, and `io_uring_get_sqe` always finds a free entry. -/
theorem counter_exact {s : Sys} (h : Reachable (restrict Clean step) Sys.init s) :
    (s.pc = .select → s.queueSize = pending s ∧ s.ring.sq.length < queueDepth) ∧
      s.pc ≠ .faulted .nullSqe := by
  have hcounted := counted_of_reachable h
  have hcount := hcounted.count
  refine ⟨fun hpc => ?_, fun hpc => ?_⟩
  · rw [hpc] at hcount
    exact ⟨hcount.1, hcounted.room hpc⟩
  · rw [hpc] at hcount
    exact hcount rfl

theorem counter_exact_two_reads : ∃ s, Reachable (restrict Clean step) Sys.init s ∧
    s.pc = .select ∧ s.queueSize = 2 ∧ s.queueSize = pending s := by
  have hreach : ∃ s, run (restrict Clean step) Sys.init (reads 3 2) = some s ∧
      s.pc = .select ∧ s.queueSize = 2 := ⟨_, rfl, rfl, rfl⟩
  rcases hreach with ⟨s, hrun, hpc, hsize⟩
  exact ⟨s, ⟨_, hrun⟩, hpc, hsize, ((counter_exact ⟨_, hrun⟩).1 hpc).1⟩

/-- One failed submission leaves six requests behind a counter of zero; two of
them let the seventeenth push dereference a NULL entry. -/
theorem failed_submit_loses_count :
    (∃ s, Reachable step Sys.init s ∧ s.pc = .select ∧ s.queueSize = 0 ∧ pending s = 6) ∧
      ∃ s, Reachable step Sys.init s ∧ s.pc = .faulted .nullSqe := by
  have hfull : (run step Sys.init (reads 3 6 ++ [.submit (-16)] ++ reads 9 6 ++
      [.submit (-16)] ++ reads 15 5)).map Frame.pc = some (.faulted .nullSqe) := by
    decide +kernel
  rcases Reachable.of_view hfull with ⟨s, hreach, hpc⟩
  exact ⟨⟨_, ⟨reads 3 6 ++ [.submit (-16)], rfl⟩, rfl, rfl, rfl⟩, s, hreach, hpc⟩

end IoWrapper.FileRing.Counter
