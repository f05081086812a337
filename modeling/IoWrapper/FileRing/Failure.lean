import IoWrapper.FileRing.Ledger

/-! Requests that fail. The exits of `startLoop` and `pop_request` on a failure
leave the file open and the entry in the map, and a failed completion stays at
the head of its queue, where it keeps every later one from being popped. -/
namespace IoWrapper.FileRing.Failure
open Core.Machine Core.Pool FileRing.Ring Pop Loop Ledger

/-- The push of the request returned an error, or its completion did. -/
def Failed (s : Sys) (r : Request) : Prop :=
  r ∈ s.received ∧
    ((∃ errno, .err (pushErrorText r.code) errno (some r.id) ∈ s.ring.log) ∨
      ∃ cqe ∈ s.ring.cq, cqe.data.owner = r.id ∧ cqe.res < 0)

def isErr (id : Nat) : Effect → Bool
  | .err _ _ (some own) => own == id
  | _ => false

/-- One error has been sent for the request, its file is closed and its entry
is gone. -/
def Retired (s : Sys) (r : Request) : Prop :=
  s.ring.log.countP (isErr r.id) = 1 ∧ (tally s.ring.log r.id).1 = 1 ∧
    s.ring.cbMap r.fd ≠ some r.cbInfo

/-- From here on each failed request can still be retired, with every request
that did not fail getting its own callback. -/
def Retires (s : Sys) : Prop :=
  ∀ r, Failed s r → ∃ t, Reachable step s t ∧ Retired t r ∧
    ∀ q ∈ s.received, ¬ Failed s q → Done t.ring.log q

theorem failedCqe_kept {s t : Sys} {event : Event} (h : Step s event t) {cqe : Cqe}
    (hcqe : cqe ∈ s.ring.cq) (hneg : cqe.res < 0) : cqe ∈ t.ring.cq := by
  cases h with
  | @receivePoll i p hpc hp hwaits =>
    rw [(receivePoll_eq s i p).2]
    exact hcqe
  | completed => exact List.mem_append_left _ hcqe
  | spun | refused =>
    rw [resumed_ring]
    exact hcqe
  | @popped n head rest info file effect hpc hcq hres hentry hclose hcall =>
    rw [hcq] at hcqe
    rw [resumed_ring]
    simp only [State.popped, hcq, List.tail_cons]
    cases List.mem_cons.mp hcqe with
    | inl heq =>
      rw [heq] at hneg
      omega
    | inr hrest => exact hrest
  | _ => exact hcqe

theorem failed_kept {s t : Sys} {r : Request} (hfailed : Failed s r)
    (h : Reachable step s t) : Failed t r := by
  refine h.invariant (Failed · r) hfailed fun u event v _ hu hstep => ?_
  have hsound := step_sound hstep
  rcases log_grows hsound with ⟨moreLog, hlog⟩
  rcases received_grows hsound with ⟨more, hreceived⟩
  refine ⟨by rw [hreceived]; exact List.mem_append_left _ hu.1, ?_⟩
  rcases hu.2 with ⟨errno, herr⟩ | ⟨cqe, hcqe, howner, hneg⟩
  · refine Or.inl ⟨errno, ?_⟩
    rw [hlog]
    exact List.mem_append_left _ herr
  · exact Or.inr ⟨cqe, failedCqe_kept hsound hcqe hneg, howner, hneg⟩

theorem owned_of_failed {s : Sys} {live failed : List Request} (hs : Balanced s live failed)
    {r : Request} (hfailed : Failed s r) : r ∈ live ++ failed := by
  have hsame : ∀ q ∈ live ++ failed, q.id = r.id → r ∈ live ++ failed := by
    intro q hq hid
    rw [← eq_of_nodup_map hs.nodup_received (hs.taken q hq) hfailed.1 hid]
    exact hq
  rcases hfailed.2 with ⟨errno, herr⟩ | ⟨cqe, hcqe, howner, -⟩
  · rcases hs.rejected r.code errno r.id herr with ⟨q, hq, hid⟩
    exact hsame q (List.mem_append_right _ hq) hid
  · have hpending : cqe.data ∈ pendingInfos s.ring :=
      List.mem_append_right _ (List.mem_map_of_mem hcqe)
    rcases hs.owner hpending with ⟨q, hq, hframe⟩
    exact hsame q (List.mem_append_left _ hq) ((owner_of_frame hframe).symm.trans howner)

theorem entry_of_failed {s : Sys} {r : Request} (h : Reachable step Sys.init s)
    (hfailed : Failed s r) :
    s.ring.cbMap r.fd = some r.cbInfo ∧ r.fd ∈ s.ring.openFds ∧ Untouched s.ring.log r.id := by
  rcases balanced_of_reachable h with ⟨live, failed, hs⟩
  have howned := owned_of_failed hs hfailed
  refine ⟨hs.entry r howned, hs.fds.mem_iff.mpr ?_, hs.untouched r howned⟩
  exact List.mem_map_of_mem (List.mem_append_right _ howned)

/-- While a failed completion is at the head of its queue, it stays there and no
file is closed and no callback called. -/
theorem head_blocks {s t : Sys} {cqe : Cqe} {rest : List Cqe} (hcq : s.ring.cq = cqe :: rest)
    (hneg : cqe.res < 0) (h : Reachable step s t) :
    (∃ later, t.ring.cq = cqe :: later) ∧ ∀ id, tally t.ring.log id = tally s.ring.log id := by
  refine h.invariant (fun t => (∃ later, t.ring.cq = cqe :: later) ∧
    ∀ id, tally t.ring.log id = tally s.ring.log id) ⟨⟨rest, hcq⟩, fun _ => rfl⟩
    fun u event v _ hu hstep => ?_
  rcases hu with ⟨⟨later, hhead⟩, htally⟩
  have hmore : ∀ more : List Effect, (∀ id, Untouched more id) →
      ∀ id, tally (u.ring.log ++ more) id = tally s.ring.log id := by
    intro more hmore id
    rw [tally_append_of_untouched (hmore id)]
    exact htally id
  cases step_sound hstep with
  | pushFailed | submitFailed => exact ⟨⟨later, hhead⟩, hmore _ fun _ => rfl⟩
  | @receivePoll i p hpc hp hwaits =>
    rw [(receivePoll_eq u i p).2]
    exact ⟨⟨later, hhead⟩, htally⟩
  | @completed i fi res data hfi hreports =>
    refine ⟨⟨later ++ [completion fi res data], ?_⟩, htally⟩
    simp only [posted, hhead, List.cons_append]
  | spun hpc hnil =>
    rw [hnil] at hhead
    cases hhead
  | refused hpc hcons hneg =>
    rw [resumed_ring]
    exact ⟨⟨later, hhead⟩, hmore _ fun _ => rfl⟩
  | popped hpc hcons hres hentry hclose hcall =>
    rw [hhead] at hcons
    cases hcons
    omega
  | _ => exact ⟨⟨later, hhead⟩, htally⟩

/-- No failed request is ever retired, so the promise is kept exactly where
there is none. -/
theorem retires_iff_none_failed {s : Sys} (h : Reachable step Sys.init s) :
    Retires s ↔ ∀ r, ¬ Failed s r := by
  refine ⟨fun hretires r hfailed => ?_, fun hnone r hfailed => absurd hfailed (hnone r)⟩
  rcases hretires r hfailed with ⟨t, ht, hretired, -⟩
  exact hretired.2.2 (entry_of_failed (h.trans ht) (failed_kept hfailed ht)).1

theorem retires_two_reads : ∃ s, Reachable step Sys.init s ∧ s.received.length = 2 ∧
    Retires s := by
  refine ⟨_, ⟨reads 3 2, rfl⟩, rfl, (retires_iff_none_failed ⟨reads 3 2, rfl⟩).mpr ?_⟩
  intro r hfailed
  rcases hfailed.2 with ⟨errno, herr⟩ | ⟨cqe, hcqe, -⟩
  · cases herr
  · cases hcqe

/-- Two reads in one batch, the first of which fails: its file stays open and
its entry in place, and the other one, whose completion is there, is never
given its callback. A read whose buffer cannot be allocated is not retired
either. -/
theorem failed_read_not_retired :
    (∃ s, Reachable step Sys.init s ∧ s.received = [readFile 0 3 3, readFile 1 4 3] ∧
      Failed s (readFile 0 3 3) ∧ ¬ Failed s (readFile 1 4 3) ∧
      (∃ cqe ∈ s.ring.cq, cqe.data.owner = 1 ∧ cqe.res = 3) ∧
      ∀ t, Reachable step s t → t.ring.cbMap 3 ≠ none ∧ 3 ∈ t.ring.openFds ∧
        Untouched t.ring.log 0 ∧ Untouched t.ring.log 1) ∧
      ∃ s, Reachable step Sys.init s ∧ Failed s (readFile 0 3 3) ∧
        ∀ t, Reachable step s t → ¬ Retired t (readFile 0 3 3) := by
  have hbatch : ∃ s, run step Sys.init (reads 3 2 ++ ([.poll, .receivePoll 0, .submit 2,
      .complete 0 (-5) [], .complete 0 3 [97, 98, 99]] : List Event)) = some s ∧
      s.received = [readFile 0 3 3, readFile 1 4 3] ∧ s.ring.log = [] ∧
      s.ring.cq = [completion (readFile 0 3 3).info (-5) [],
        completion (readFile 1 4 3).info 3 [97, 98, 99]] := ⟨_, rfl, rfl, rfl, rfl⟩
  have hpush : ∃ s, run step Sys.init [.readFile 3 3, .receive 0 fun _ => false] = some s ∧
      Failed s (readFile 0 3 3) :=
    ⟨_, rfl, List.mem_singleton_self _, Or.inl ⟨1, List.mem_singleton_self _⟩⟩
  rcases hbatch with ⟨s, hrun, hreceived, hlog, hcq⟩
  rcases hpush with ⟨u, hpushRun, hpushFailed⟩
  have hfailed : Failed s (readFile 0 3 3) := by
    refine ⟨by simp [hreceived], Or.inr ?_⟩
    rw [hcq]
    exact ⟨_, List.mem_cons_self .., rfl, by decide⟩
  refine ⟨⟨s, ⟨_, hrun⟩, hreceived, hfailed, ?_, ?_, fun t ht => ?_⟩,
    u, ⟨_, hpushRun⟩, hpushFailed, fun t ht hretired => ?_⟩
  · rintro ⟨-, ⟨errno, herr⟩ | ⟨cqe, hcqe, howner, hneg⟩⟩
    · simp [hlog] at herr
    · rw [hcq] at hcqe
      simp only [List.mem_cons, List.not_mem_nil, or_false] at hcqe
      rcases hcqe with heq | heq
      · rw [heq] at howner
        cases howner
      · rw [heq] at hneg
        exact absurd hneg (by decide)
  · rw [hcq]
    exact ⟨_, List.mem_cons_of_mem _ (List.mem_singleton_self _), rfl, rfl⟩
  · have hentry := entry_of_failed (Reachable.trans ⟨_, hrun⟩ ht) (failed_kept hfailed ht)
    refine ⟨fun hnone => ?_, hentry.2.1, hentry.2.2, ?_⟩
    · exact Option.some_ne_none _ (hentry.1.symm.trans hnone)
    · rw [Untouched, (head_blocks hcq (by decide) ht).2 1, hlog]
      rfl
  · have hentry := entry_of_failed (Reachable.trans ⟨_, hpushRun⟩ ht)
      (failed_kept hpushFailed ht)
    exact hretired.2.2 hentry.1

end IoWrapper.FileRing.Failure
