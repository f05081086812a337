import IoWrapper.FileRing.Ledger

/-! A session of the package `iouring`: from `Init` on, with any number of
goroutines in `ReadFile`, `WriteFile`, `Poll` and `Cleanup`, and one that reads
`Err` or does not. `errChan` is unbuffered, so the loop stands still from each
error on until somebody has read it. What would be a misuse of a channel or of
the ring on the side of the package is recorded as such and ends the run; a
caller whose send finds `submitChan` closed panics by itself. -/
namespace IoWrapper.FileRing.Session
open Core.Machine Ledger
open FileRing.Ring (Effect)
open Loop (Sys Frame Request)

/-- How far a call of `Cleanup` has come. -/
inductive Stage where
  | asked
  | quitting
  | exited
  | shut
  | returned
deriving DecidableEq

inductive Misuse where
  | nilRequest
  | sendOnClosed
  | closeOfClosed
  | ringGone
deriving DecidableEq

structure State where
  sys : Sys
  sending : Bool
  cleanups : List Stage
  ringGone : Bool
  submitClosed : Bool
  errClosed : Bool
  panicked : List Nat
  misuse : Option Misuse

/-- After an `Init` that returned nil. -/
def State.init : State := ⟨Sys.init, false, [], false, false, false, [], none⟩

inductive Event where
  | loop (event : Loop.Event)
  | readErr
  | receiveClosed
  | cleanup
  | quit (i : Nat)
  | queueExit (i : Nat)
  | closeSubmit (i : Nat)
  | closeErr (i : Nat)
  | sendPanics (i : Nat)

/-- The steps of the goroutine `startLoop`, apart from its return. -/
def loopsOwn : Loop.Event → Bool
  | .receive _ _ | .receivePoll _ | .submit _ | .pop => true
  | _ => false

/-- The steps that touch the ring, in C or in the kernel. -/
def usesRing : Loop.Event → Bool
  | .receive _ _ | .submit _ | .pop | .complete _ _ _ => true
  | _ => false

/-- The return of the loop comes with a `Cleanup`, and a send on a closed
channel is not received. -/
def barred (s : State) : Loop.Event → Bool
  | .quit => true
  | .receive _ _ => s.submitClosed
  | _ => false

def isErr : Effect → Bool
  | .err _ _ _ => true
  | _ => false

/-- The step from one state of the loop to the next comes with an error. -/
def sends (s t : Sys) : Bool := t.ring.log.countP isErr != s.ring.log.countP isErr

def State.fail (s : State) (misuse : Misuse) : State := { s with misuse := some misuse }

def State.loopStep (s : State) (event : Loop.Event) : Option State :=
  if barred s event ∨ loopsOwn event ∧ s.sending then none
  else
    match Loop.step s.sys event with
    | none => none
    | some t =>
      if s.ringGone ∧ usesRing event then
        if loopsOwn event then some (s.fail .ringGone) else none
      else if sends s.sys t ∧ s.errClosed then some (s.fail .sendOnClosed)
      else some { s with sys := t, sending := s.sending || sends s.sys t }

def State.moved (s : State) (i : Nat) (stage : Stage) : State :=
  { s with cleanups := s.cleanups.set i stage }

/-- `quitChan <- struct{}{}` meets the loop, which returns. -/
def State.quit (s : State) (i : Nat) : State :=
  { s.moved i .quitting with sys := { s.sys with pc := .stopped } }

/-- A step of `Cleanup` that is a misuse if it has been made before. -/
def State.once (s : State) (done : Bool) (misuse : Misuse) (next : State) : State :=
  if done then s.fail misuse else next

def State.queueExit (s : State) (i : Nat) : State :=
  s.once s.ringGone .ringGone { s.moved i .exited with ringGone := true }

def State.closeSubmit (s : State) (i : Nat) : State :=
  s.once s.submitClosed .closeOfClosed { s.moved i .shut with submitClosed := true }

def State.closeErr (s : State) (i : Nat) : State :=
  s.once s.errClosed .closeOfClosed { s.moved i .returned with errClosed := true }

def step (s : State) (event : Event) : Option State :=
  if s.misuse.isSome then none else
  match event with
  | .loop event => s.loopStep event
  | .readErr => if s.sending then some { s with sending := false } else none
  | .receiveClosed =>
    if s.submitClosed ∧ s.sys.pc = .select ∧ s.sending = false then some (s.fail .nilRequest)
    else none
  | .cleanup => some { s with cleanups := s.cleanups ++ [.asked] }
  | .quit i =>
    if s.cleanups[i]? = some .asked ∧ s.sys.pc = .select ∧ s.sending = false then some (s.quit i)
    else none
  | .queueExit i => if s.cleanups[i]? = some .quitting then some (s.queueExit i) else none
  | .closeSubmit i => if s.cleanups[i]? = some .exited then some (s.closeSubmit i) else none
  | .closeErr i => if s.cleanups[i]? = some .shut then some (s.closeErr i) else none
  | .sendPanics i =>
    match s.sys.waiting[i]? with
    | some r =>
      if s.submitClosed ∧ r.id ∉ s.panicked then
        some { s with panicked := s.panicked ++ [r.id] }
      else none
    | none => none

theorem once_of_both {s next : State} {P : State → Prop} {done : Bool} {misuse : Misuse}
    (hfail : P (s.fail misuse)) (hnext : P next) : P (s.once done misuse next) := by
  unfold State.once
  split
  · exact hfail
  · exact hnext

inductive Step (s : State) : Event → State → Prop where
  | loop {event : Loop.Event} {t : Sys} (hbarred : barred s event = false)
      (hfree : loopsOwn event → s.sending = false) (ht : Loop.step s.sys event = some t)
      (hring : ¬ (s.ringGone ∧ usesRing event)) (herr : ¬ (sends s.sys t ∧ s.errClosed)) :
      Step s (.loop event) { s with sys := t, sending := s.sending || sends s.sys t }
  | ringGone {event : Loop.Event} {t : Sys} (ht : Loop.step s.sys event = some t)
      (hring : s.ringGone) (hown : loopsOwn event) : Step s (.loop event) (s.fail .ringGone)
  | sentClosed {event : Loop.Event} {t : Sys} (ht : Loop.step s.sys event = some t)
      (hquit : event ≠ .quit) (hsends : sends s.sys t) (herr : s.errClosed) :
      Step s (.loop event) (s.fail .sendOnClosed)
  | readErr (hsending : s.sending) : Step s .readErr { s with sending := false }
  | receiveClosed (hclosed : s.submitClosed) (hpc : s.sys.pc = .select) :
      Step s .receiveClosed (s.fail .nilRequest)
  | cleanup : Step s .cleanup { s with cleanups := s.cleanups ++ [.asked] }
  | quit {i : Nat} (hi : s.cleanups[i]? = some .asked) (hpc : s.sys.pc = .select)
      (hfree : s.sending = false) : Step s (.quit i) (s.quit i)
  | queueExit {i : Nat} (hi : s.cleanups[i]? = some .quitting) :
      Step s (.queueExit i) (s.queueExit i)
  | closeSubmit {i : Nat} (hi : s.cleanups[i]? = some .exited) :
      Step s (.closeSubmit i) (s.closeSubmit i)
  | closeErr {i : Nat} (hi : s.cleanups[i]? = some .shut) : Step s (.closeErr i) (s.closeErr i)
  | sendPanics {i : Nat} {r : Request} (hr : s.sys.waiting[i]? = some r)
      (hclosed : s.submitClosed) :
      Step s (.sendPanics i) { s with panicked := s.panicked ++ [r.id] }

theorem loopStep_sound {s t : State} {event : Loop.Event} (h : s.loopStep event = some t) :
    Step s (.loop event) t := by
  unfold State.loopStep at h
  split at h
  · cases h
  · rename_i hfree
    rw [not_or, not_and] at hfree
    cases hnext : Loop.step s.sys event with
    | none => simp [hnext] at h
    | some next =>
      simp only [hnext] at h
      split at h
      · rename_i hring
        split at h
        · rename_i hown
          cases h
          exact .ringGone hnext hring.1 hown
        · cases h
      · rename_i hring
        split at h
        · rename_i herr
          cases h
          refine .sentClosed hnext ?_ herr.1 herr.2
          rintro rfl
          exact hfree.1 rfl
        · rename_i herr
          cases h
          exact .loop (by simpa using hfree.1) (by simpa using hfree.2) hnext hring herr

theorem step_sound {s t : State} {event : Event} (h : step s event = some t) :
    s.misuse = none ∧ Step s event t := by
  unfold step at h
  split at h
  · cases h
  · rename_i hmisuse
    refine ⟨by simpa using hmisuse, ?_⟩
    cases event with
    | loop event => exact loopStep_sound h
    | readErr =>
      simp only [Option.ite_none_right_eq_some, Option.some.injEq] at h
      rw [← h.2]
      exact .readErr h.1
    | receiveClosed =>
      simp only [Option.ite_none_right_eq_some, Option.some.injEq] at h
      rw [← h.2]
      exact .receiveClosed h.1.1 h.1.2.1
    | cleanup =>
      cases h
      exact .cleanup
    | quit i =>
      simp only [Option.ite_none_right_eq_some, Option.some.injEq] at h
      rw [← h.2]
      exact .quit h.1.1 h.1.2.1 h.1.2.2
    | queueExit i =>
      simp only [Option.ite_none_right_eq_some, Option.some.injEq] at h
      rw [← h.2]
      exact .queueExit h.1
    | closeSubmit i =>
      simp only [Option.ite_none_right_eq_some, Option.some.injEq] at h
      rw [← h.2]
      exact .closeSubmit h.1
    | closeErr i =>
      simp only [Option.ite_none_right_eq_some, Option.some.injEq] at h
      rw [← h.2]
      exact .closeErr h.1
    | sendPanics i =>
      cases hr : s.sys.waiting[i]? with
      | none => simp [hr] at h
      | some r =>
        simp only [hr, Option.ite_none_right_eq_some, Option.some.injEq] at h
        rw [← h.2]
        exact .sendPanics hr h.1.1

/-- A step of the others: what the loop has come to, and what it has shown to
the outside, stays. -/
structure Aside (s t : Sys) : Prop where
  pc : t.pc = s.pc
  log : t.ring.log = s.ring.log
  received : t.received = s.received

theorem running_of_own {s t : Sys} {event : Loop.Event} (h : Loop.step s event = some t)
    (hown : loopsOwn event) : s.pc ≠ .stopped := by
  cases Loop.step_sound h with
  | @opened event r hcall =>
    cases event with
    | readFile | writeFile => cases hown
    | _ => cases hcall
  | callReturn | poll | pollReturn | completed | quit => cases hown
  | _ hpc =>
    rw [hpc]
    simp

theorem running_after_own {s t : Sys} {event : Loop.Event} (h : Loop.step s event = some t)
    (hown : loopsOwn event) : t.pc ≠ .stopped := by
  have hresumed : ∀ (left : Nat) (ring : Ring.State), (s.resumed left ring).pc ≠ .stopped := by
    intro left ring
    rcases Loop.resumed_pc s left ring with hpc | hpc <;> simp [hpc]
  cases Loop.step_sound h with
  | @opened event r hcall =>
    cases event with
    | readFile | writeFile => cases hown
    | _ => cases hcall
  | callReturn | poll | pollReturn | completed | quit => cases hown
  | pushFailed hpc =>
    change s.pc ≠ .stopped
    simp [hpc]
  | pushed hpc =>
    simp only [Sys.pushed, hpc]
    split <;> simp
  | receivePoll hpc =>
    unfold Frame.receivePoll
    dsimp only
    split
    · simp
    · simp [hpc]
  | spun | refused | popped => exact hresumed _ _
  | pushFaulted | submitFailed | submitted | popFaulted =>
    simp [Sys.pushFaulted, Frame.flushedTo]

theorem aside_of_other {s t : Sys} {event : Loop.Event} (h : Loop.step s event = some t)
    (hown : loopsOwn event = false) (hquit : event ≠ .quit) : Aside s t := by
  cases Loop.step_sound h with
  | opened | callReturn | poll | pollReturn | completed => exact ⟨rfl, rfl, rfl⟩
  | quit => exact absurd rfl hquit
  | _ => cases hown

theorem sys_cases {s t : State} {event : Event} (h : step s event = some t) :
    t.sys = s.sys ∨
    (∃ inner, event = .loop inner ∧ inner ≠ .quit ∧ (loopsOwn inner → s.sending = false) ∧
      Loop.step s.sys inner = some t.sys) ∨
    (s.sys.pc = .select ∧ s.sending = false ∧ Loop.step s.sys .quit = some t.sys) := by
  cases (step_sound h).2 with
  | loop hbarred hfree ht =>
    refine Or.inr (Or.inl ⟨_, rfl, ?_, hfree, ht⟩)
    rintro rfl
    cases hbarred
  | quit _ hpc hfree => exact Or.inr (Or.inr ⟨hpc, hfree, if_pos hpc⟩)
  | queueExit | closeSubmit | closeErr =>
    exact Or.inl (once_of_both (P := fun t => t.sys = s.sys) rfl rfl)
  | _ => exact Or.inl rfl

end IoWrapper.FileRing.Session
