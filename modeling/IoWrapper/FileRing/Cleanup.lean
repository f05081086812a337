import IoWrapper.FileRing.Session

/-! The end of a session. Only one call of `Cleanup` gets past its first line,
and it does so when the loop has returned; so the package never misuses its
channels, and what has not been called back by then never will be. Without a
reader of `Err` the session may not come to an end at all. -/
namespace IoWrapper.FileRing.Cleanup
open Core.Machine Ledger Session
open Loop (Sys Request)

/-- How far the one `Cleanup` that the loop has met has come. -/
def current (s : State) : Stage :=
  if s.errClosed then .returned
  else if s.submitClosed then .shut
  else if s.ringGone then .exited
  else .quitting

structure Orderly (s : State) (leader : Option Nat) : Prop where
  clean : s.misuse = none
  only : ∀ i stage, s.cleanups[i]? = some stage →
    stage = .asked ∨ leader = some i ∧ stage = current s
  stopped : leader ≠ none → s.sys.pc = .stopped
  untouched : leader = none → s.ringGone = false ∧ s.submitClosed = false ∧ s.errClosed = false
  nested : (s.submitClosed → s.ringGone) ∧ (s.errClosed → s.submitClosed)

theorem orderly_init : Orderly State.init none := by
  refine ⟨rfl, fun i stage hi => ?_, fun h => absurd rfl h, fun _ => ⟨rfl, rfl, rfl⟩, ?_⟩
  · simp [State.init] at hi
  · exact ⟨fun h => h, fun h => h⟩

section Steps

variable {s t : State} {leader : Option Nat} {i : Nat}

theorem Orderly.leads (hs : Orderly s leader) {stage : Stage} (hi : s.cleanups[i]? = some stage)
    (hstage : stage ≠ .asked) : leader = some i ∧ stage = current s :=
  (hs.only i stage hi).resolve_left hstage

theorem Orderly.only_moved (hs : Orderly s (some i)) (stage : Stage) :
    ∀ j other, (s.cleanups.set i stage)[j]? = some other →
      other = .asked ∨ some i = some j ∧ other = stage := by
  intro j other hj
  rw [List.getElem?_set] at hj
  split at hj
  · rename_i hij
    split at hj
    · cases hj
      exact Or.inr ⟨by rw [hij], rfl⟩
    · cases hj
  · rename_i hij
    refine Or.inl ((hs.only j other hj).resolve_right ?_)
    rintro ⟨hlead, -⟩
    exact hij (Option.some.inj hlead)

theorem flags_of_current (s : State) :
    (current s = .quitting → s.errClosed = false ∧ s.submitClosed = false ∧ s.ringGone = false) ∧
    (current s = .exited → s.errClosed = false ∧ s.submitClosed = false ∧ s.ringGone = true) ∧
    (current s = .shut → s.errClosed = false ∧ s.submitClosed = true) := by
  unfold current
  cases s.errClosed <;> cases s.submitClosed <;> cases s.ringGone <;> simp

theorem Orderly.once {next : State} {stage : Stage} {done : Bool} (hs : Orderly s (some i))
    (hdone : done = false) (misuse : Misuse) (hmisuse : next.misuse = s.misuse)
    (hsys : next.sys = s.sys) (hcleanups : next.cleanups = s.cleanups.set i stage)
    (hcurrent : current next = stage)
    (hnested : (next.submitClosed → next.ringGone) ∧ (next.errClosed → next.submitClosed)) :
    Orderly (s.once done misuse next) (some i) := by
  rw [State.once, if_neg (by simp [hdone])]
  refine ⟨hmisuse.trans hs.clean, ?_, ?_, fun h => absurd h (Option.some_ne_none i), hnested⟩
  · rw [hcleanups, hcurrent]
    exact hs.only_moved stage
  · rw [hsys]
    exact hs.stopped

theorem Orderly.queueExit (hs : Orderly s leader) (hi : s.cleanups[i]? = some .quitting) :
    Orderly (s.queueExit i) leader := by
  rcases hs.leads hi (by decide) with ⟨rfl, hstage⟩
  have hflags := (flags_of_current s).1 hstage.symm
  refine hs.once hflags.2.2 .ringGone rfl rfl rfl ?_ ⟨fun _ => rfl, hs.nested.2⟩
  simp [current, State.moved, hflags]

theorem Orderly.closeSubmit (hs : Orderly s leader) (hi : s.cleanups[i]? = some .exited) :
    Orderly (s.closeSubmit i) leader := by
  rcases hs.leads hi (by decide) with ⟨rfl, hstage⟩
  have hflags := (flags_of_current s).2.1 hstage.symm
  refine hs.once hflags.2.1 .closeOfClosed rfl rfl rfl ?_ ⟨fun _ => hflags.2.2, fun _ => rfl⟩
  simp [current, State.moved, hflags]

theorem Orderly.closeErr (hs : Orderly s leader) (hi : s.cleanups[i]? = some .shut) :
    Orderly (s.closeErr i) leader := by
  rcases hs.leads hi (by decide) with ⟨rfl, hstage⟩
  have hflags := (flags_of_current s).2.2 hstage.symm
  refine hs.once hflags.1 .closeOfClosed rfl rfl rfl ?_ ⟨hs.nested.1, fun _ => hflags.2⟩
  simp [current]

theorem Orderly.quit (hs : Orderly s leader) (i : Nat) (hpc : s.sys.pc = .select) :
    Orderly (s.quit i) (some i) := by
  have hleader : leader = none := by
    by_contra hsome
    rw [hs.stopped hsome] at hpc
    cases hpc
  subst hleader
  have hflags := hs.untouched rfl
  have hcurrent : current (s.quit i) = .quitting := by
    simp [current, State.quit, State.moved, hflags]
  refine ⟨hs.clean, ?_, fun _ => rfl, fun h => absurd h (Option.some_ne_none i), hs.nested⟩
  rw [hcurrent]
  intro j other hj
  rw [State.quit, State.moved, List.getElem?_set] at hj
  split at hj
  · rename_i hij
    split at hj
    · cases hj
      exact Or.inr ⟨by rw [hij], rfl⟩
    · cases hj
  · left
    apply (hs.only j other hj).resolve_right
    rintro ⟨hlead, -⟩
    cases hlead

theorem Orderly.returned (hs : Orderly s leader)
    (h : s.ringGone ∨ s.submitClosed ∨ s.errClosed) : s.sys.pc = .stopped := by
  apply hs.stopped
  intro hnone
  have hflags := hs.untouched hnone
  simp [hflags] at h

theorem Orderly.step {event : Event} (hs : Orderly s leader) (h : Session.step s event = some t) :
    ∃ leader, Orderly t leader := by
  cases (step_sound h).2 with
  | @loop event next hbarred hfree ht hring herr =>
    have hquit : event ≠ .quit := by
      rintro rfl
      cases hbarred
    refine ⟨leader, hs.clean, hs.only, fun hsome => ?_, hs.untouched, hs.nested⟩
    cases hown : loopsOwn event with
    | true => exact absurd (hs.stopped hsome) (running_of_own ht hown)
    | false => exact (aside_of_other ht hown hquit).pc.trans (hs.stopped hsome)
  | ringGone ht hring hown =>
    exact absurd (hs.returned (Or.inl hring)) (running_of_own ht hown)
  | @sentClosed event next ht hquit hsends herr =>
    cases hown : loopsOwn event with
    | true => exact absurd (hs.returned (Or.inr (Or.inr herr))) (running_of_own ht hown)
    | false => simp [sends, (aside_of_other ht hown hquit).log] at hsends
  | readErr => exact ⟨leader, hs.clean, hs.only, hs.stopped, hs.untouched, hs.nested⟩
  | receiveClosed hclosed hpc =>
    rw [hs.returned (Or.inr (Or.inl hclosed))] at hpc
    cases hpc
  | cleanup =>
    refine ⟨leader, hs.clean, fun i stage hi => ?_, hs.stopped, hs.untouched, hs.nested⟩
    rw [List.getElem?_append] at hi
    split at hi
    · exact hs.only i stage hi
    · rw [List.getElem?_singleton] at hi
      split at hi
      · cases hi
        exact Or.inl rfl
      · cases hi
  | quit hi hpc => exact ⟨_, hs.quit _ hpc⟩
  | queueExit hi => exact ⟨_, hs.queueExit hi⟩
  | closeSubmit hi => exact ⟨_, hs.closeSubmit hi⟩
  | closeErr hi => exact ⟨_, hs.closeErr hi⟩
  | sendPanics => exact ⟨leader, hs.clean, hs.only, hs.stopped, hs.untouched, hs.nested⟩

end Steps

theorem orderly_of_reachable {s : State} (h : Reachable step State.init s) :
    ∃ leader, Orderly s leader := by
  apply h.invariant (fun s => ∃ leader, Orderly s leader) ⟨none, orderly_init⟩
  rintro s event t _ ⟨leader, hs⟩ hstep
  exact hs.step hstep

/-- The package closes no channel twice, sends on none that is closed, takes no
request off one and leaves the ring alone after `queue_exit`. A `Cleanup` that
is past its first line is the only one, and the loop has returned. -/
theorem no_misuse {s : State} (h : Reachable step State.init s) :
    s.misuse = none ∧ ∀ (i : Nat) (stage : Stage), s.cleanups[i]? = some stage →
      stage ≠ .asked → s.sys.pc = .stopped ∧
        ∀ (j : Nat) (other : Stage), s.cleanups[j]? = some other → other ≠ .asked → j = i := by
  rcases orderly_of_reachable h with ⟨leader, hs⟩
  refine ⟨hs.clean, fun i stage hi hstage => ?_⟩
  have hlead := (hs.leads hi hstage).1
  refine ⟨hs.stopped (by simp [hlead]), fun j other hj hother => ?_⟩
  have hagain := (hs.leads hj hother).1
  rw [hlead] at hagain
  exact (Option.some.inj hagain).symm

theorem sys_reachable {s : State} (h : Reachable step State.init s) :
    Reachable Loop.step Sys.init s.sys := by
  apply h.component State.sys
  intro s event t hstep
  rcases sys_cases hstep with hsame | ⟨inner, -, -, -, hinner⟩ | ⟨-, -, hquit⟩
  · exact Or.inl hsame
  · exact Or.inr ⟨inner, hinner⟩
  · exact Or.inr ⟨.quit, hquit⟩

theorem aside_of_stopped {s t : State} {event : Event} (hpc : s.sys.pc = .stopped)
    (h : step s event = some t) : Aside s.sys t.sys := by
  rcases sys_cases h with hsame | ⟨inner, -, hne, -, hinner⟩ | ⟨hselect, -, -⟩
  · rw [hsame]
    exact ⟨rfl, rfl, rfl⟩
  · cases hown : loopsOwn inner with
    | true => exact absurd hpc (running_of_own hinner hown)
    | false => exact aside_of_other hinner hown hne
  · rw [hpc] at hselect
    cases hselect

/-- Once the loop has returned, nothing is called back and the package closes
nothing any more: a request has been called back, once, and its file closed, or
neither happens ever. A file that is left may still be closed by its finalizer. -/
theorem settled_after_quit {s t : State} (h : Reachable step State.init s)
    (hpc : s.sys.pc = .stopped) (h' : Reachable step s t) :
    t.sys.ring.log = s.sys.ring.log ∧ ∀ r ∈ t.sys.waiting ++ t.sys.received,
      Done t.sys.ring.log r ∨ Untouched t.sys.ring.log r.id ∧ r.fd ∈ t.sys.ring.openFds := by
  have haside : Aside s.sys t.sys := by
    apply h'.invariant (fun t => Aside s.sys t.sys) ⟨rfl, rfl, rfl⟩
    intro t event u _ ht hstep
    have hu := aside_of_stopped (ht.pc.trans hpc) hstep
    exact ⟨hu.pc.trans ht.pc, hu.log.trans ht.log, hu.received.trans ht.received⟩
  rcases balanced_of_reachable (sys_reachable (h.trans h')) with ⟨live, failed, ht⟩
  refine ⟨haside.log, fun r hr => ?_⟩
  have hopen : r ∈ t.sys.waiting ++ (live ++ failed) → r.fd ∈ t.sys.ring.openFds :=
    fun hmem => ht.fds.mem_iff.mpr (List.mem_map_of_mem hmem)
  rcases List.mem_append.mp hr with hwaits | htaken
  · refine Or.inr ⟨ht.unknown r.id ?_, hopen (List.mem_append_left _ hwaits)⟩
    intro hknown
    have hids := ht.ids
    rw [List.map_append] at hids
    exact (List.nodup_append'.mp hids).2.2 (List.mem_map_of_mem hwaits) hknown
  · rcases ht.settled r htaken with howned | hdone
    · exact Or.inr ⟨ht.untouched r howned, hopen (List.mem_append_right _ howned)⟩
    · exact Or.inl hdone

section Unread

/-- Nobody reads `Err`. -/
def Unread : State → Event → Prop
  | _, .readErr => False
  | _, _ => True

instance (s : State) (event : Event) : Decidable (Unread s event) :=
  match event with
  | .readErr => inferInstanceAs (Decidable False)
  | .loop _ | .receiveClosed | .cleanup | .quit _ | .queueExit _ | .closeSubmit _ | .closeErr _
  | .sendPanics _ => inferInstanceAs (Decidable True)

theorem running_of_sending {s : State} (h : Reachable step State.init s) (hsending : s.sending) :
    s.sys.pc ≠ .stopped := by
  revert hsending
  apply h.invariant (fun s => s.sending → s.sys.pc ≠ .stopped) (fun hfalse => by cases hfalse)
  intro s event t _ hs hstep hsending
  cases (step_sound hstep).2 with
  | @loop event next hbarred hfree ht =>
    have hquit : event ≠ .quit := by
      rintro rfl
      cases hbarred
    cases hown : loopsOwn event with
    | true => exact running_after_own ht hown
    | false =>
      have haside := aside_of_other ht hown hquit
      simp only [sends, haside.log, bne_self_eq_false, Bool.or_false] at hsending
      exact haside.pc ▸ hs hsending
  | readErr => cases hsending
  | quit hi hpc hfree =>
    rw [show (s.quit _).sending = s.sending from rfl, hfree] at hsending
    cases hsending
  | queueExit | closeSubmit | closeErr =>
    revert hsending
    exact once_of_both (P := fun t => t.sending → t.sys.pc ≠ .stopped) hs hs
  | _ => exact hs hsending

theorem stuck_step {s t : State} {event : Event} (hsending : s.sending) (hunread : Unread s event)
    (hasked : ∀ stage ∈ s.cleanups, stage = .asked) (h : step s event = some t) :
    Aside s.sys t.sys ∧ t.sending ∧ ∀ stage ∈ t.cleanups, stage = .asked := by
  have hnot : ∀ {i : Nat} {stage : Stage}, s.cleanups[i]? = some stage → stage = .asked :=
    fun hi => hasked _ (List.mem_of_getElem? hi)
  cases (step_sound h).2 with
  | @loop event next hbarred hfree ht =>
    have hquit : event ≠ .quit := by
      rintro rfl
      cases hbarred
    cases hown : loopsOwn event with
    | true =>
      rw [hfree hown] at hsending
      cases hsending
    | false => exact ⟨aside_of_other ht hown hquit, by simp [hsending], hasked⟩
  | readErr => exact absurd hunread id
  | cleanup =>
    refine ⟨⟨rfl, rfl, rfl⟩, hsending, fun stage hstage => ?_⟩
    rcases List.mem_append.mp hstage with hold | hnew
    · exact hasked stage hold
    · exact List.mem_singleton.mp hnew
  | quit hi hpc hfree =>
    rw [hfree] at hsending
    cases hsending
  | queueExit hi | closeSubmit hi | closeErr hi => cases hnot hi
  | _ => exact ⟨⟨rfl, rfl, rfl⟩, hsending, hasked⟩

/-- An error that nobody reads stops the session: the loop does nothing more,
and every `Cleanup` waits for it. -/
theorem stuck_without_reader {s t : State} (h : Reachable step State.init s)
    (hsending : s.sending) (h' : Reachable (restrict Unread step) s t) :
    Aside s.sys t.sys ∧ t.sending ∧ ∀ stage ∈ t.cleanups, stage = .asked := by
  have hasked : ∀ stage ∈ s.cleanups, stage = .asked := by
    rcases orderly_of_reachable h with ⟨leader, hs⟩
    intro stage hstage
    rcases List.mem_iff_getElem?.mp hstage with ⟨i, hi⟩
    apply (hs.only i stage hi).resolve_right
    rintro ⟨hlead, -⟩
    exact running_of_sending h hsending (hs.stopped (by simp [hlead]))
  apply h'.invariant (fun t => Aside s.sys t.sys ∧ t.sending ∧ ∀ stage ∈ t.cleanups, stage = .asked)
  · exact ⟨⟨rfl, rfl, rfl⟩, hsending, hasked⟩
  · rintro t event u _ ⟨haside, hsending, hasked⟩ hstep
    rcases restrict_eq_some.mp hstep with ⟨hunread, hstep⟩
    rcases stuck_step hsending hunread hasked hstep with ⟨hnext, hrest⟩
    exact ⟨⟨hnext.pc.trans haside.pc, hnext.log.trans haside.log,
      hnext.received.trans haside.received⟩, hrest⟩

end Unread

/-- A read is pushed and flushed and its completion popped; another is pushed
and two calls of `Cleanup` come, of which one gets through. -/
def cleanedUp : List Event :=
  ([.readFile 3 2, .receive 0 fun _ => true, .poll, .receivePoll 0, .submit 1,
    .complete 0 2 [7, 8], .pop, .readFile 4 2, .receive 0 fun _ => true].map Event.loop) ++
    [.cleanup, .cleanup, .quit 1, .queueExit 1, .closeSubmit 1, .closeErr 1,
      .loop (.writeFile 5 [9]), .sendPanics 0]

def unreadError : List Event :=
  ([.readFile 3 2, .receive 0 fun _ => true, .poll, .receivePoll 0, .submit 1,
    .complete 0 (-5) [], .pop].map Event.loop)

theorem no_misuse_cleaned_up : ∃ s, Reachable step State.init s ∧
    s.cleanups = [.asked, .returned] ∧ s.misuse = none ∧ s.sys.pc = .stopped := by
  have hview : (run step State.init cleanedUp).map (fun s => s.cleanups) =
      some [.asked, .returned] := by decide +kernel
  rcases Reachable.of_view hview with ⟨s, hreach, hcleanups⟩
  have hnone := no_misuse hreach
  refine ⟨s, hreach, hcleanups, hnone.1, (hnone.2 1 .returned ?_ (by decide)).1⟩
  rw [hcleanups]
  rfl

theorem settled_after_quit_cleaned_up : ∃ s t, Reachable step State.init s ∧
    s.sys.pc = .stopped ∧ Reachable step s t ∧
    (t.sys.waiting ++ t.sys.received).length = 3 ∧ t.panicked = [2] ∧
    t.sys.ring.log = s.sys.ring.log ∧ ∀ r ∈ t.sys.waiting ++ t.sys.received,
      Done t.sys.ring.log r ∨ Untouched t.sys.ring.log r.id ∧ r.fd ∈ t.sys.ring.openFds := by
  have hview : (run step State.init (cleanedUp.take 12)).map (fun s => (s.sys.pc,
      (run step s (cleanedUp.drop 12)).map fun t =>
        ((t.sys.waiting ++ t.sys.received).length, t.panicked))) =
      some (.stopped, some (3, [2])) := by decide +kernel
  rcases Reachable.of_view hview with ⟨s, hreach, hseen⟩
  rw [Prod.mk.injEq] at hseen
  rcases Reachable.of_view hseen.2 with ⟨t, hafter, hcalls⟩
  rw [Prod.mk.injEq] at hcalls
  exact ⟨s, t, hreach, hseen.1, hafter, hcalls.1, hcalls.2,
    settled_after_quit hreach hseen.1 hafter⟩

theorem stuck_without_reader_read_fails : ∃ s t, Reachable step State.init s ∧ s.sending ∧
    Reachable (restrict Unread step) s t ∧ t.cleanups.length = 1 ∧ t.sys.waiting.length = 1 ∧
    Aside s.sys t.sys ∧ t.sending ∧ ∀ stage ∈ t.cleanups, stage = .asked := by
  have hview : (run step State.init unreadError).map (fun s => (s.sending,
      (run (restrict Unread step) s [.cleanup, .loop (.writeFile 5 [9])]).map fun t =>
        (t.cleanups.length, t.sys.waiting.length))) = some (true, some (1, 1)) := by
    decide +kernel
  rcases Reachable.of_view hview with ⟨s, hreach, hseen⟩
  rw [Prod.mk.injEq] at hseen
  rcases Reachable.of_view hseen.2 with ⟨t, hafter, hcalls⟩
  rw [Prod.mk.injEq] at hcalls
  exact ⟨s, t, hreach, hseen.1, hafter, hcalls.1, hcalls.2,
    stuck_without_reader hreach hseen.1 hafter⟩

end IoWrapper.FileRing.Cleanup
