import IoWrapper.FileRing.Counter
import IoWrapper.FileRing.Ledger

/-! Batches. In the runs in which nothing fails, the requests received since
the last flush are the ones with an entry in the map, and every request before
them has had its file closed and its own callback called, once. -/
namespace IoWrapper.FileRing.Batch
open Core.Machine Core.Pool FileRing.Ring Pop Loop Counter Ledger

def Pushes (s : Sys) : Event → Prop
  | .receive i memalign => ∀ r ∈ s.waiting[i]?, ¬ AllocFails memalign r
  | _ => True

instance (s : Sys) : (event : Event) → Decidable (Pushes s event)
  | .receive i _ => inferInstanceAs (Decidable (∀ r ∈ s.waiting[i]?, _))
  | .readFile .. | .writeFile .. | .submit _ | .callReturn _ | .poll | .complete ..
  | .receivePoll _ | .pollReturn _ | .quit | .pop => inferInstanceAs (Decidable True)

/-- Steps on which nothing fails. -/
def Smooth (s : Sys) (event : Event) : Prop := Clean s event ∧ Pushes s event

instance (s : Sys) (event : Event) : Decidable (Smooth s event) :=
  inferInstanceAs (Decidable (_ ∧ _))

def Collecting : Pc → Prop
  | .select | .submitting _ => True
  | _ => False

structure Flushed (s : Sys) : Prop where
  bound : s.flushed ≤ s.received.length
  count : Collecting s.pc → s.received.length = s.flushed + s.queueSize
  earlier : ∀ r ∈ s.received.take s.flushed, Done s.ring.log r

theorem flushed_cases {s t : Sys} {event : Event} (h : Step s event t) :
    (t.pc = .select ∧ t.queueSize = 0 ∧ t.flushed = t.received.length) ∨
      t.flushed = s.flushed := by
  have hresumed : ∀ left ring, ((s.resumed left ring).pc = .select ∧
      (s.resumed left ring).queueSize = 0 ∧
      (s.resumed left ring).flushed = (s.resumed left ring).received.length) ∨
      (s.resumed left ring).flushed = s.flushed := by
    intro left ring
    unfold Frame.resumed
    split
    · exact Or.inl ⟨rfl, rfl, rfl⟩
    · exact Or.inr rfl
  cases h with
  | receivePoll hpc hp hwaits =>
    unfold Frame.receivePoll
    dsimp only
    split <;> exact Or.inr rfl
  | submitFailed => exact Or.inl ⟨rfl, rfl, rfl⟩
  | spun | refused | popped => exact hresumed _ _
  | _ => exact Or.inr rfl

theorem count_step {s t : Sys} {event : Event} (hsmooth : Smooth s event) (h : Step s event t)
    (hs : Collecting s.pc → s.received.length = s.flushed + s.queueSize) :
    Collecting t.pc → t.received.length = t.flushed + t.queueSize := by
  have hresumed : ∀ left ring, Collecting (s.resumed left ring).pc →
      (s.resumed left ring).received.length =
        (s.resumed left ring).flushed + (s.resumed left ring).queueSize := by
    intro left ring
    unfold Frame.resumed
    split
    · intro _
      rfl
    · intro hcollecting
      exact hcollecting.elim
  cases h with
  | opened | callReturn | poll | pollReturn | completed => exact hs
  | pushFaulted | quit | popFaulted | submitted => exact fun hcollecting => hcollecting.elim
  | @pushFailed i memalign r hpc hr halloc => exact absurd halloc (hsmooth.2 r hr)
  | @pushed i memalign r hpc hr halloc hroom =>
    intro _
    have hcount := hs (by rw [hpc]; trivial)
    simp only [Sys.pushed, Frame.registered, rig, Queues.register, List.length_append,
      List.length_singleton]
    omega
  | @receivePoll i p hpc hp hwaits =>
    intro _
    have hcount := hs (by rw [hpc]; trivial)
    unfold Frame.receivePoll
    dsimp only
    split
    · exact hcount
    · exact hcount
  | submitFailed =>
    intro _
    rfl
  | spun | refused | popped => exact hresumed _ _

theorem Flushed.step {s t : Sys} {event : Event} {live : List Request} (hs : Flushed s)
    (hsmooth : Smooth s event) (h : Step s event t) (hcounted : Counted t)
    (hbalanced : Balanced t live []) : Flushed t := by
  have hcount := count_step hsmooth h hs.count
  rcases flushed_cases h with ⟨hpc, hzero, hflushed⟩ | hflushed
  · have hpending := hcounted.count
    rw [hpc] at hpending
    have hlive : live = [] := by
      have hlen := hbalanced.pend.length_eq
      rw [List.length_map, List.length_map] at hlen
      apply List.eq_nil_of_length_eq_zero
      rw [← hlen]
      exact hpending.1.symm.trans hzero
    refine ⟨Nat.le_of_eq hflushed, hcount, fun r hr => ?_⟩
    rcases hbalanced.settled r (List.mem_of_mem_take hr) with howned | hdone
    · simp [hlive] at howned
    · exact hdone
  · rcases received_grows h with ⟨more, hreceived⟩
    refine ⟨?_, hcount, fun r hr => ?_⟩
    · rw [hflushed, hreceived, List.length_append]
      exact Nat.le_add_right_of_le hs.bound
    · have hin := List.mem_of_mem_take hr
      rw [hflushed, hreceived, List.take_append_of_le_length hs.bound] at hr
      exact hbalanced.done_of_grows (log_grows h) hin (hs.earlier r hr)

theorem flushed_of_reachable {s : Sys} (h : Reachable (restrict Smooth step) Sys.init s) :
    Flushed s ∧ ∃ live, Balanced s live [] := by
  refine h.invariant (fun s => Flushed s ∧ ∃ live, Balanced s live [])
    ⟨⟨Nat.le_refl _, fun _ => rfl, by simp [Sys.init]⟩, [], balanced_init⟩
    fun s event t hreach hs hstep => ?_
  rcases hs with ⟨hflushed, live, hbalanced⟩
  have hboth := restrict_eq_some.mp hstep
  have hsound := step_sound hboth.2
  have hcounted := counted_of_reachable (hreach.restrict_mono fun _ _ h => h.1)
  rcases hbalanced.step hsound with ⟨live', failed', ht, hfailed⟩
  have hnone : failed' = [] := by
    rcases hfailed with hsame | ⟨i, memalign, r, hevent, hpc, hr, hunpushed⟩
    · exact hsame
    · rcases hunpushed with halloc | hfull
      · rw [hevent] at hboth
        exact absurd halloc (hboth.1.2 r hr)
      · exact absurd (hcounted.room hpc) (by omega)
  rw [hnone] at ht
  exact ⟨hflushed.step hboth.1 hsound (hcounted.step hboth.1.1 hsound) ht, live', ht⟩

theorem live_perm_drop {s : Sys} {live : List Request} (hcounted : Counted s)
    (hflushed : Flushed s) (hbalanced : Balanced s live []) (hpc : s.pc = .select) :
    live.Perm (s.received.drop s.flushed) := by
  have hcount := hcounted.count
  rw [hpc] at hcount
  have hnodup : live.Nodup := by
    have hfds := hbalanced.nodup_owned_fds
    rw [List.append_nil] at hfds
    exact List.Nodup.of_map Request.fd hfds
  have hsub : live ⊆ s.received.drop s.flushed := by
    intro r hr
    have howned : r ∈ live ++ [] := List.mem_append_left _ hr
    have hin := hbalanced.taken r howned
    rw [← List.take_append_drop s.flushed s.received] at hin
    rcases List.mem_append.mp hin with hearlier | hlater
    · have hdone := hflushed.earlier r hearlier
      rw [Done, hbalanced.untouched r howned] at hdone
      cases hcode : r.code with
      | opCodeRead => simp [hcode] at hdone
      | opCodeWrite => simp [hcode] at hdone
    · exact hlater
  refine (List.subperm_of_subset hnodup hsub).perm_of_length_le ?_
  have hlen := hbalanced.pend.length_eq
  rw [List.length_map, List.length_map] at hlen
  have hreceived := hflushed.count (by rw [hpc]; trivial)
  have hqueue := hcount.1
  simp only [pending] at hqueue
  rw [List.length_drop]
  omega

theorem batch_at_loop_head {s : Sys} (h : Reachable (restrict Smooth step) Sys.init s)
    (hpc : s.pc = .select) :
    s.queueSize ≤ queueThreshold ∧
      (∀ fd, s.ring.cbMap fd ≠ none ↔ fd ∈ (s.received.drop s.flushed).map Request.fd) ∧
      ((s.received.drop s.flushed).map Request.fd).Nodup ∧
      ∀ r ∈ s.received.take s.flushed, Done s.ring.log r := by
  rcases flushed_of_reachable h with ⟨hflushed, live, hbalanced⟩
  have hcounted := counted_of_reachable (h.restrict_mono fun _ _ h => h.1)
  have hperm := (live_perm_drop hcounted hflushed hbalanced hpc).map Request.fd
  have hcount := hcounted.count
  rw [hpc] at hcount
  refine ⟨hcount.1 ▸ hcount.2, fun fd => ⟨fun hsome => ?_, fun hfd => ?_⟩, ?_,
    hflushed.earlier⟩
  · rcases hbalanced.keys fd hsome with ⟨r, hr, hrfd⟩
    rw [List.append_nil] at hr
    rw [← hrfd]
    exact hperm.mem_iff.mp (List.mem_map_of_mem hr)
  · rcases List.mem_map.mp (hperm.mem_iff.mpr hfd) with ⟨r, hr, hrfd⟩
    rw [← hrfd, hbalanced.entry r (List.mem_append_left _ hr)]
    exact Option.some_ne_none _
  · have hfds := hbalanced.nodup_owned_fds
    rw [List.append_nil] at hfds
    exact hperm.nodup_iff.mp hfds

theorem batch_at_loop_head_after_flush : ∃ s, Reachable (restrict Smooth step) Sys.init s ∧
    s.pc = .select ∧ s.received.drop s.flushed = [readFile 6 3 3] ∧
      s.received.take s.flushed = (List.range 6).map (fun i => readFile i (3 + i) 3) ∧
      (∀ fd, s.ring.cbMap fd ≠ none ↔ fd = 3) ∧
      ∀ r ∈ (List.range 6).map (fun i => readFile i (3 + i) 3), Done s.ring.log r := by
  have hrun : (run (restrict Smooth step) Sys.init (reads 3 6 ++ [.submit 6] ++
      [5, 4, 3, 2, 1, 0].map (fun i => .complete i 3 [97, 98, 99]) ++
      List.replicate 6 .pop ++ reads 3 1)).map
        (fun s => (s.pc, s.received.drop s.flushed, s.received.take s.flushed)) =
      some (.select, [readFile 6 3 3],
        (List.range 6).map (fun i => readFile i (3 + i) 3)) := by
    decide +kernel
  rcases Reachable.of_view hrun with ⟨s, hreach, hview⟩
  simp only [Prod.mk.injEq] at hview
  have hbatch := batch_at_loop_head hreach hview.1
  rw [hview.2.1, hview.2.2] at hbatch
  refine ⟨s, hreach, hview.1, hview.2.1, hview.2.2, fun fd => ?_, hbatch.2.2.2⟩
  rw [hbatch.2.1 fd]
  simp [readFile]

end IoWrapper.FileRing.Batch
