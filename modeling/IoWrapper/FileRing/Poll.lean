import IoWrapper.FileRing.Loop

/-! `Poll` against its documentation. The call returns as soon as the loop has
taken its signal off the unbuffered channel, which is before the loop submits
and pops anything for it. -/
namespace IoWrapper.FileRing.Poll
open Core.Machine FileRing.Ring Loop

/-- An effect by which a request is done: its callback, or an error about it. -/
def settles (id : Nat) : Effect → Bool
  | .readCb own _ => own == id
  | .writeCb own _ => own == id
  | .err _ _ (some own) => own == id
  | _ => false

def Settled (s : Sys) (id : Nat) : Prop := s.ring.log.any (settles id)

instance (s : Sys) (id : Nat) : Decidable (Settled s id) :=
  inferInstanceAs (Decidable (_ = true))

/-- What `Poll` promises of the `i`-th call of it, once that call has returned. -/
def Kept (s : Sys) (i : Nat) : Prop :=
  ∀ p, s.polls[i]? = some p → p.returned → ∀ id ∈ p.before, Settled s id

/-- The signal of a `Poll` reaches the loop when everything it should wait for
is already done. -/
def Idle (s : Sys) : Event → Prop
  | .receivePoll i => ∀ p ∈ s.polls[i]?, ∀ id ∈ p.before, Settled s id
  | _ => True

instance (s : Sys) : (event : Event) → Decidable (Idle s event)
  | .receivePoll i => inferInstanceAs (Decidable (∀ p ∈ s.polls[i]?, _))
  | .readFile .. | .writeFile .. | .receive .. | .callReturn _ | .poll | .complete ..
  | .pollReturn _ | .quit | .submit _ | .pop => inferInstanceAs (Decidable True)

theorem settled_step {s t : Sys} {event : Event} {id : Nat} (hs : Settled s id)
    (h : Step s event t) : Settled t id := by
  rcases log_grows h with ⟨more, hmore⟩
  unfold Settled
  rw [hmore, List.any_append, Bool.or_eq_true]
  exact Or.inl hs

theorem settled_run {s t : Sys} {id : Nat} (hs : Settled s id) (h : Reachable step s t) :
    Settled t id :=
  h.invariant (fun u => Settled u id) hs fun _ _ _ _ hu hstep => settled_step hu (step_sound hstep)

theorem polls_cases {s t : Sys} {event : Event} (h : Step s event t) :
    t.polls = s.polls ∨ t.polls = s.polls ++ [⟨s.returned, false, false⟩] ∨
    (∃ i p, s.polls[i]? = some p ∧ p.received = false ∧ event = .receivePoll i ∧
      t.polls = s.polls.set i { p with received := true }) ∨
    (∃ i p, s.polls[i]? = some p ∧ p.received ∧
      t.polls = s.polls.set i { p with returned := true }) := by
  have hresumed : ∀ left ring, (s.resumed left ring).polls = s.polls := by
    intro left ring
    unfold Frame.resumed
    split <;> rfl
  cases h with
  | poll => exact Or.inr (Or.inl rfl)
  | @receivePoll i p hpc hp hwaits =>
    refine Or.inr (Or.inr (Or.inl ⟨i, p, hp, hwaits, rfl, ?_⟩))
    exact (receivePoll_eq s i p).1
  | @pollReturn i p hp hreceived hblocked =>
    exact Or.inr (Or.inr (Or.inr ⟨i, p, hp, hreceived, rfl⟩))
  | spun hpc hcq => exact Or.inl (hresumed _ _)
  | refused hpc hcq hneg => exact Or.inl (hresumed _ _)
  | popped hpc hcq hres hentry hclose hcall => exact Or.inl (hresumed _ _)
  | _ => exact Or.inl rfl

theorem polls_step {s t : Sys} {event : Event} (good : PollCall → Prop)
    (hs : ∀ p ∈ s.polls, good p) (h : Step s event t) (hnew : good ⟨s.returned, false, false⟩)
    (hreceive : ∀ i p, event = .receivePoll i → s.polls[i]? = some p → good p →
      good { p with received := true })
    (hreturn : ∀ p, p.received → good p → good { p with returned := true }) :
    ∀ p ∈ t.polls, good p := by
  rcases polls_cases h with ht | ht | ⟨i, q, hq, -, hevent, ht⟩ | ⟨i, q, hq, hreceived, ht⟩
  · rw [ht]
    exact hs
  · intro p hp
    rw [ht, List.mem_append, List.mem_singleton] at hp
    rcases hp with hp | hp
    · exact hs p hp
    · rw [hp]
      exact hnew
  · intro p hp
    rw [ht] at hp
    rcases List.mem_or_eq_of_mem_set hp with hp | hp
    · exact hs p hp
    · rw [hp]
      exact hreceive i q hevent hq (hs q (List.mem_of_getElem? hq))
  · intro p hp
    rw [ht] at hp
    rcases List.mem_or_eq_of_mem_set hp with hp | hp
    · exact hs p hp
    · rw [hp]
      exact hreturn q hreceived (hs q (List.mem_of_getElem? hq))

theorem received_of_returned {s : Sys} (h : Reachable step Sys.init s) :
    ∀ p ∈ s.polls, p.returned → p.received := by
  refine h.invariant (fun s => ∀ p ∈ s.polls, p.returned → p.received)
    (by simp [Sys.init]) fun s event t _ hs hstep => ?_
  exact polls_step _ hs (step_sound hstep) (fun h => h) (fun _ _ _ _ _ _ => rfl)
    fun _ hreceived _ _ => hreceived

theorem settled_of_idle {s : Sys} (h : Reachable (restrict Idle step) Sys.init s) :
    ∀ p ∈ s.polls, p.received → ∀ id ∈ p.before, Settled s id := by
  refine h.invariant (fun s => ∀ p ∈ s.polls, p.received → ∀ id ∈ p.before, Settled s id)
    (by simp [Sys.init]) fun s event t _ hs hstep => ?_
  have hboth := restrict_eq_some.mp hstep
  have hsound := step_sound hboth.2
  have hlater : ∀ p ∈ s.polls, p.received → ∀ id ∈ p.before, Settled t id :=
    fun p hp hreceived id hid => settled_step (hs p hp hreceived id hid) hsound
  refine polls_step _ hlater hsound (fun h => by cases h) ?_ fun _ hreceived hgood _ =>
    hgood hreceived
  intro i p hevent hp _ _ id hid
  have hidle := hboth.1
  rw [hevent] at hidle
  exact settled_step (hidle p hp id hid) hsound

theorem before_kept {s t : Sys} (h : Reachable step s t) {i : Nat} {p : PollCall}
    (hp : s.polls[i]? = some p) : ∃ q, t.polls[i]? = some q ∧ q.before = p.before := by
  refine h.invariant (fun t => ∃ q, t.polls[i]? = some q ∧ q.before = p.before)
    ⟨p, hp, rfl⟩ fun u event v _ hu hstep => ?_
  rcases hu with ⟨q, hq, hbefore⟩
  have hlt := (List.getElem?_eq_some_iff.mp hq).1
  have hset : ∀ j o (o' : PollCall), u.polls[j]? = some o → o'.before = o.before →
      ∃ q, (u.polls.set j o')[i]? = some q ∧ q.before = p.before := by
    intro j o o' ho hsame
    by_cases hij : j = i
    · subst hij
      rw [ho] at hq
      cases hq
      exact ⟨o', by simp [hlt], hsame.trans hbefore⟩
    · exact ⟨q, by rw [List.getElem?_set_ne hij, hq], hbefore⟩
  rcases polls_cases (step_sound hstep) with hv | hv | ⟨j, o, ho, -, -, hv⟩ | ⟨j, o, ho, -, hv⟩
  · rw [hv]
    exact ⟨q, hq, hbefore⟩
  · rw [hv]
    exact ⟨q, by rw [List.getElem?_append_left hlt, hq], hbefore⟩
  · rw [hv]
    exact hset j o _ ho rfl
  · rw [hv]
    exact hset j o _ ho rfl

theorem settled_receivePoll {s : Sys} {i : Nat} {p : PollCall} {id : Nat} :
    Settled (s.receivePoll i p) id ↔ Settled s id := by
  unfold Settled
  rw [(receivePoll_eq s i p).2]

theorem blocked_of_waits {s : Sys} (h : Reachable step Sys.init s) {p : PollCall}
    (hp : p ∈ s.polls) (hwaits : p.received = false) : p.returned = false := by
  cases hreturned : p.returned with
  | false => rfl
  | true =>
    have hreceived := received_of_returned h p hp hreturned
    rw [hwaits] at hreceived
    cases hreceived

/-- `Poll` keeps its promise in every run in which each signal finds everything
it should wait for already done; and from a state in which a signal is about to
be taken, it is kept in all interleavings only if that is so. -/
theorem poll_kept_iff_idle (s : Sys) (i : Nat) :
    (Reachable (restrict Idle step) Sys.init s → Kept s i) ∧
      ∀ p, Reachable step Sys.init s → s.pc = .select → s.polls[i]? = some p →
        p.received = false →
          ((∀ t, Reachable step (s.receivePoll i p) t → Kept t i) ↔
            Idle s (.receivePoll i)) := by
  refine ⟨fun h p hp hreturned => ?_, fun p h hpc hp hwaits => ⟨fun hkept => ?_, ?_⟩⟩
  · have hmem := List.mem_of_getElem? hp
    exact settled_of_idle h p hmem (received_of_returned h.of_restrict p hmem hreturned)
  · have hlt := (List.getElem?_eq_some_iff.mp hp).1
    have hblocked := blocked_of_waits h (List.mem_of_getElem? hp) hwaits
    have hreturn : step (s.receivePoll i p) (.pollReturn i) = some { s.receivePoll i p with
        polls := (s.receivePoll i p).polls.set i ⟨p.before, true, true⟩ } := by
      simp [step, Frame.step, (receivePoll_eq s i p).1, hlt, hblocked]
    have hnow := hkept _ ((Reachable.refl step _).tail hreturn) ⟨p.before, true, true⟩
      (by simp [(receivePoll_eq s i p).1, hlt]) rfl
    intro q hq id hid
    rw [hp] at hq
    cases hq
    exact settled_receivePoll.mp (hnow id hid)
  · intro hidle t ht q hq _ id hid
    have hfirst : (s.receivePoll i p).polls[i]? = some { p with received := true } := by
      simp [(receivePoll_eq s i p).1, (List.getElem?_eq_some_iff.mp hp).1]
    rcases before_kept ht hfirst with ⟨q', hq', hbefore⟩
    rw [hq] at hq'
    cases hq'
    rw [hbefore] at hid
    exact settled_run (settled_receivePoll.mpr (hidle p hp id hid)) ht

/-- Six reads flushed by the threshold, the first two calls returned, a `Poll`. -/
def flushThenPoll : List Event :=
  reads 3 6 ++ [.submit 6] ++ List.replicate 6 (.complete 0 3 [97, 98, 99]) ++
    List.replicate 6 .pop ++ [.callReturn 0, .callReturn 1, .poll]

theorem poll_kept_after_flush :
    (∃ s, Reachable (restrict Idle step) Sys.init s ∧
      s.polls = [⟨[0, 1], true, true⟩] ∧ Kept s 0) ∧
    ∃ s, Reachable step Sys.init s ∧ s.polls = [⟨[0, 1], false, false⟩] ∧
      ∀ t, Reachable step (s.receivePoll 0 ⟨[0, 1], false, false⟩) t → Kept t 0 := by
  have hdone : (run (restrict Idle step) Sys.init (flushThenPoll ++
      [.receivePoll 0, .pollReturn 0])).map Frame.polls = some [⟨[0, 1], true, true⟩] := by
    decide +kernel
  have hwaits : (run step Sys.init flushThenPoll).map
      (fun s => (s.pc, s.polls, decide (Idle s (.receivePoll 0)))) =
      some (.select, [⟨[0, 1], false, false⟩], true) := by
    decide +kernel
  rcases Reachable.of_view hdone with ⟨s, hs, hpolls⟩
  rcases Reachable.of_view hwaits with ⟨u, hu, hview⟩
  simp only [Prod.mk.injEq, decide_eq_true_eq] at hview
  have hfirst : u.polls[0]? = some ⟨[0, 1], false, false⟩ := by
    rw [hview.2.1]
    rfl
  refine ⟨⟨s, hs, hpolls, (poll_kept_iff_idle s 0).1 hs⟩, u, hu, hview.2.1, ?_⟩
  exact ((poll_kept_iff_idle u 0).2 _ hu hview.1 hfirst rfl).mpr hview.2.2

/-- One read, its call returned, then a `Poll` that returns while the read is
still in the submission queue. -/
theorem poll_returns_early : ∃ s, Reachable step Sys.init s ∧ ¬ Kept s 0 := by
  refine ⟨_, ⟨[.readFile 3 3, .receive 0 fun _ => true, .callReturn 0, .poll, .receivePoll 0,
    .pollReturn 0], rfl⟩, fun h => ?_⟩
  have hsettled := h ⟨[0], true, true⟩ rfl rfl 0 (by simp)
  exact absurd hsettled (by decide)

end IoWrapper.FileRing.Poll
