import IoWrapper.MultiEcho.Registry

/-! The accept of a ring. The loop passes it on from each completion to the next, and drops
it where an accept fails; and it ends where a submission fails, and with the process, where a
call has no buffer or no entry to use. -/
namespace IoWrapper.MultiEcho.Accepts
open Core.Machine Core.Traffic Core.Registry GoEcho.Operations Server Registry

def acceptsPending (ring : IoRing Sqe) : Nat := ring.pending.countP fun sqe => sqe.op.isAccept

def failed (cqe : Cqe) : Bool := cqe.entry.op.isAccept && cqe.res < 0

def accepts (ring : IoRing Sqe) (handled : List Cqe) : Nat :=
  acceptsPending ring + handled.countP failed

structure Held (l : Loop) : Prop where
  registered : Registered l l.ring.pending
  one : accepts l.ring l.handled = if l.pc = .created then 0 else 1

section Loops

variable {l l' : Loop}

theorem countP_answers {sqes : List Sqe} {lfd : Nat} {cqe : Cqe}
    (h : sqes.map (fun sqe => sqe.op.request) = answers lfd cqe.res cqe.entry.op.request) :
    (sqes.countP fun sqe => sqe.op.isAccept) + (if failed cqe then 1 else 0) =
      if cqe.entry.op.isAccept then 1 else 0 := by
  have hcount : (sqes.countP fun sqe => sqe.op.isAccept) =
      (answers lfd cqe.res cqe.entry.op.request).countP Request.isAccept := by
    rw [← h, List.countP_map]
    rfl
  rw [hcount]
  unfold failed Op.isAccept
  cases cqe.entry.op.request with
  | accept fd =>
    by_cases hres : cqe.res < 0
    · simp [answers_failed hres, hres, Request.isAccept]
    · simp [answers_accepted (Int.not_lt.mp hres), hres, List.countP_cons, Request.isAccept]
  | recv fd =>
    by_cases hres : cqe.res ≤ 0
    · rw [answers_unread hres]
      split <;> rfl
    · rw [answers_received (Int.not_le.mp hres)]
      rfl
  | send | close => rfl

theorem accepts_of_perm {ring ring' : IoRing Sqe} (hpending : ring'.pending.Perm ring.pending)
    (handled : List Cqe) : accepts ring' handled = accepts ring handled := by
  unfold accepts acceptsPending
  rw [hpending.countP_eq]

theorem accepts_turned {lfd buffs : Nat} {cqe : Cqe} {rest : List Cqe} {sqes : List Sqe}
    (hcq : l.ring.cq = cqe :: rest) (h : Turned lfd buffs l cqe sqes l') :
    accepts l'.ring l'.handled = accepts l.ring l.handled := by
  have hseen := IoRing.pending_seen (r := l.ring.pushAll sqes) hcq
  have hpending := hseen.symm.trans (IoRing.pending_pushAll l.ring sqes)
  rw [← h.ring] at hpending
  have hcount := hpending.countP_eq fun sqe => sqe.op.isAccept
  have hanswers := countP_answers h.requests
  unfold accepts acceptsPending
  rw [h.handled, List.countP_append, List.countP_singleton]
  rw [List.countP_cons, List.countP_append] at hcount
  omega

theorem Held.act {id : Nat} {sh sh' : Shared} {action : Action} (h : Held l)
    (hact : Acts id sh l action sh' l') : Held l' := by
  have hone := h.one
  refine ⟨registered_act h.registered hact, ?_⟩
  cases hact with
  | @started userData next hpc hproduce =>
    rcases produce_eq_ok hproduce with ⟨prepared, hprepared, -, rfl⟩
    cases hprepared
    rw [if_pos hpc] at hone
    have hcount := (IoRing.pending_push l.ring ⟨.accept sh.lfd, userData⟩).countP_eq
      fun sqe => sqe.op.isAccept
    rw [List.countP_cons_of_pos rfl] at hcount
    simp only [accepts, acceptsPending, Loop.produced, reduceCtorEq, if_false] at hone ⊢
    omega
  | startPanicked | unsupported | panicked => exact hone
  | submitted hpc | submitFailed hpc =>
    rw [hpc] at hone
    exact (accepts_of_perm (IoRing.pending_submit l.ring _) l.handled).trans hone
  | waitFailed hpc | unknown hpc =>
    rw [hpc] at hone
    exact hone
  | handled hpc hcq hlookup hreact hproduce =>
    rcases turned_of_handled h.registered hcq hlookup hreact hproduce with ⟨sqes, hturned⟩
    rw [hpc] at hone
    exact (accepts_turned hcq hturned).trans hone
  | completed hsqe hdata =>
    exact (accepts_of_perm (IoRing.pending_complete hsqe) l.handled).trans hone

end Loops

/-- What ends the accepting. -/
inductive Setback where
  | failedAccept
  | failedSubmit
  | noBuffer
  | fullQueue
  | lostWakeup
  | stopped
deriving DecidableEq

/-- Where calls, one after the other, end in a panic. -/
def halted (queued : Nat) : List Request → List Setback
  | [] => []
  | request :: requests =>
    if request.noBuffer then [.noBuffer]
    else if queued < entries then halted (queued + 1) requests
    else [.fullQueue]

def calling (lfd : Nat) (l : Loop) : Action → List Request
  | .start _ => [.accept lfd]
  | .handle _ =>
    match l.ring.cq with
    | cqe :: _ => answers lfd cqe.res cqe.entry.op.request
    | [] => []
  | .submit _ | .submitError _ | .waitError | .complete .. => []

def ownSetback (l : Loop) : Action → List Setback
  | .submitError _ => [.failedSubmit]
  | .handle _ => if l.ring.cq.head?.any failed then [.failedAccept] else []
  | .start _ | .submit _ | .waitError | .complete .. => []

/-- A panic in any loop ends the accepting of all of them. -/
def setback {n : Nat} (id : Fin n) (s : State n) (event : Event n) : List Setback :=
  halted (s.loops event.id).ring.sq.length
      (calling s.shared.lfd (s.loops event.id) event.action) ++
    if event.id = id then ownSetback (s.loops id) event.action else []

/-- The process runs; and the loop, if it has started, has not returned and has one accept
pending. -/
def Accepting {n : Nat} (id : Fin n) (s : State n) : Prop :=
  s.shared.panic = none ∧
    ((s.loops id).pc ≠ .created →
      ((s.loops id).pc = .head ∨ (s.loops id).pc = .waiting) ∧
        acceptsPending (s.loops id).ring = 1)

section Calls

variable {buffs : Nat} {l next : Loop}

theorem produce_cases {request : Request} {userData : Nat} :
    (∀ next, l.produce buffs request userData = .ok next →
      request.noBuffer = false ∧ l.ring.sq.length < entries ∧
        next.ring.sq.length = l.ring.sq.length + 1) ∧
    ∀ panic, l.produce buffs request userData = .error (.panic panic) →
      request.noBuffer = true ∨ entries ≤ l.ring.sq.length := by
  unfold Loop.produce
  cases hprepare : request.prepare buffs with
  | error panic =>
    have hnone : request.noBuffer = true := by
      by_contra hno
      rcases prepare_ok_iff.mpr (Bool.not_eq_true _ ▸ hno) with ⟨prepared, hok⟩
      cases hprepare.symm.trans hok
    exact ⟨nofun, fun _ _ => Or.inl hnone⟩
  | ok prepared =>
    have hbuffer := prepare_ok_iff.mp ⟨prepared, hprepare⟩
    by_cases hroom : l.ring.sq.length < entries
    · simp only [if_pos hroom]
      constructor
      · intro next h
        split at h
        · cases h
        · cases h
          exact ⟨hbuffer, hroom, List.length_append⟩
      · intro panic h
        split at h <;> cases h
    · simp only [if_neg hroom]
      exact ⟨nofun, fun _ _ => Or.inr (Nat.not_lt.mp hroom)⟩

theorem halted_of_ok {requests : List Request} {addresses : List Nat}
    (h : l.produceAll buffs requests addresses = .ok next) :
    halted l.ring.sq.length requests = [] := by
  induction requests generalizing l addresses with
  | nil => rfl
  | cons request requests ih =>
    cases addresses with
    | nil => cases h
    | cons userData addresses =>
      rcases bind_eq_ok.mp h with ⟨middle, hmiddle, hrest⟩
      rcases produce_cases.1 middle hmiddle with ⟨hbuffer, hroom, hlength⟩
      rw [halted, hbuffer, if_neg Bool.false_ne_true, if_pos hroom, ← hlength]
      exact ih hrest

theorem halted_of_panic {requests : List Request} {addresses : List Nat} {panic : Panic}
    (h : l.produceAll buffs requests addresses = .error (.panic panic)) :
    halted l.ring.sq.length requests ≠ [] := by
  induction requests generalizing l addresses with
  | nil => cases h
  | cons request requests ih =>
    cases addresses with
    | nil => cases h
    | cons userData addresses =>
      rw [halted]
      rcases bind_eq_error.mp h with hfirst | ⟨middle, hmiddle, hrest⟩
      · rcases produce_cases.2 panic hfirst with hbuffer | hfull
        · rw [if_pos hbuffer]
          simp
        · split
          · simp
          · rw [if_neg (Nat.not_lt.mpr hfull)]
            simp
      · rcases produce_cases.1 middle hmiddle with ⟨hbuffer, hroom, hlength⟩
        rw [hbuffer, if_neg Bool.false_ne_true, if_pos hroom, ← hlength]
        exact ih hrest

end Calls

section Actions

variable {id : Nat} {sh sh' : Shared} {l l' : Loop} {action : Action}

theorem panic_act_iff (hregistered : Registered l l.ring.pending) (hpanic : sh.panic = none)
    (hact : Acts id sh l action sh' l') :
    sh'.panic = none ↔ halted l.ring.sq.length (calling sh.lfd l action) = [] := by
  cases hact with
  | started hpc hproduce =>
    have hok : l.produceAll (sh.buffs + 1) [.accept sh.lfd] [_] = .ok _ :=
      bind_eq_ok.mpr ⟨_, hproduce, rfl⟩
    exact ⟨fun _ => halted_of_ok hok, fun _ => hpanic⟩
  | startPanicked hpc hproduce =>
    have hstop : l.produceAll (sh.buffs + 1) [.accept sh.lfd] [_] = .error (.panic _) :=
      bind_eq_error.mpr (Or.inl hproduce)
    exact ⟨nofun, fun hnone => absurd hnone (halted_of_panic hstop)⟩
  | submitted | submitFailed | waitFailed => exact ⟨fun _ => rfl, fun _ => hpanic⟩
  | completed => exact ⟨fun _ => rfl, fun _ => (completed_panic ..).trans hpanic⟩
  | unknown hpc hcq hlookup =>
    rw [lookup_head hregistered hcq] at hlookup
    cases hlookup
  | unsupported hpc hcq hlookup hreact =>
    cases (react_head hregistered hcq hlookup).symm.trans hreact
  | @panicked _ cqe _ _ _ _ hpc hcq hlookup hreact hproduce =>
    cases (react_head hregistered hcq hlookup).symm.trans hreact
    have hhalted := halted_of_panic (l := l.delete cqe.entry.userData) hproduce
    simp only [calling, hcq]
    exact ⟨nofun, fun hnone => absurd hnone hhalted⟩
  | @handled _ cqe _ _ _ _ hpc hcq hlookup hreact hproduce =>
    cases (react_head hregistered hcq hlookup).symm.trans hreact
    have hhalted := halted_of_ok (l := l.delete cqe.entry.userData) hproduce
    simp only [calling, hcq]
    exact ⟨fun _ => hhalted, fun _ => hpanic⟩

structure Steady (l : Loop) : Prop extends Held l where
  going : l.pc ≠ .returned ∧ l.pc ≠ .empty
  unfailed : l.handled.countP failed = 0

theorem handled_turned {lfd buffs : Nat} {cqe : Cqe} {rest : List Cqe} {sqes : List Sqe}
    (h : l.handled.countP failed = 0) (hcq : l.ring.cq = cqe :: rest)
    (hturned : Turned lfd buffs l cqe sqes l') :
    l'.handled.countP failed = if l.ring.cq.head?.any failed then 1 else 0 := by
  rw [hturned.handled, List.countP_append, h, List.countP_singleton, hcq, Nat.zero_add]
  rfl

theorem Steady.act (h : Steady l) (hact : Acts id sh l action sh' l')
    (hown : ownSetback l action = []) : Steady l' := by
  suffices hrest : (l'.pc ≠ .returned ∧ l'.pc ≠ .empty) ∧ l'.handled.countP failed = 0 from
    ⟨h.toHeld.act hact, hrest.1, hrest.2⟩
  cases hact with
  | submitFailed => cases hown
  | started hpc hproduce =>
    rcases produce_eq_ok hproduce with ⟨prepared, -, -, rfl⟩
    exact ⟨⟨nofun, nofun⟩, h.unfailed⟩
  | submitted | waitFailed => exact ⟨⟨nofun, nofun⟩, h.unfailed⟩
  | startPanicked | unsupported | panicked | completed => exact ⟨h.going, h.unfailed⟩
  | unknown hpc hcq hlookup =>
    rw [lookup_head h.registered hcq] at hlookup
    cases hlookup
  | handled hpc hcq hlookup hreact hproduce =>
    rcases turned_of_handled h.registered hcq hlookup hreact hproduce with ⟨sqes, hturned⟩
    refine ⟨⟨nofun, nofun⟩, (handled_turned h.unfailed hcq hturned).trans ?_⟩
    exact if_neg fun hany => by simp [ownSetback, hany] at hown

theorem Steady.ended (h : Steady l) (hpanic : sh'.panic = none)
    (hact : Acts id sh l action sh' l') (hown : ownSetback l action ≠ []) :
    l'.pc = .returned ∨ l'.pc = .head ∧ acceptsPending l'.ring = 0 := by
  have hheld := (h.toHeld.act hact).one
  cases hact with
  | submitFailed => exact Or.inl rfl
  | started | startPanicked | submitted | waitFailed | completed => exact absurd rfl hown
  | unsupported | panicked => cases hpanic
  | unknown hpc hcq hlookup =>
    rw [lookup_head h.registered hcq] at hlookup
    cases hlookup
  | handled hpc hcq hlookup hreact hproduce =>
    rcases turned_of_handled h.registered hcq hlookup hreact hproduce with ⟨sqes, hturned⟩
    have hfailed := handled_turned h.unfailed hcq hturned
    have hany : l.ring.cq.head?.any failed = true := by
      by_contra hno
      exact hown (if_neg hno)
    rw [if_pos hany] at hfailed
    rw [accepts, hfailed, if_neg (by simp)] at hheld
    exact Or.inr ⟨rfl, Nat.succ.inj hheld⟩

end Actions

section Runs

variable {n lfd : Nat} {s t : State n} {id : Fin n} {event : Event n}

def Undisturbed (id : Fin n) (s : State n) : Prop :=
  s.shared.panic = none ∧ Steady (s.loops id)

theorem Undisturbed.accepting (h : Undisturbed id s) : Accepting id s := by
  refine ⟨h.1, fun hpc => ⟨?_, ?_⟩⟩
  · have hgoing := h.2.going
    cases hat : (s.loops id).pc with
    | head => exact Or.inl rfl
    | waiting => exact Or.inr rfl
    | created => exact absurd hat hpc
    | returned => exact absurd hat hgoing.1
    | empty => exact absurd hat hgoing.2
  · have hone := h.2.one
    rw [if_neg hpc, accepts, h.2.unfailed] at hone
    exact hone

theorem undisturbed_step (hreach : Reachable step (State.init n lfd) s) (h : Undisturbed id s)
    (hstep : step s event = some t) (hnone : setback id s event = []) : Undisturbed id t := by
  rcases step_sound hstep with ⟨hpanic, sh, l, hacts, rfl⟩
  rcases List.append_eq_nil_iff.mp hnone with ⟨hhalted, hown⟩
  have hregistered := registered_of_reachable hreach event.id
  refine ⟨(panic_act_iff hregistered hpanic hacts).mpr hhalted, ?_⟩
  dsimp only
  by_cases heq : event.id = id
  · subst heq
    rw [if_pos rfl] at hown
    rw [Function.update_self]
    exact h.2.act hacts hown
  · rw [Function.update_of_ne (Ne.symm heq)]
    exact h.2

theorem not_accepting_of_setback (hreach : Reachable step (State.init n lfd) s)
    (h : Undisturbed id s) (hstep : step s event = some t) (hsome : setback id s event ≠ []) : ¬Accepting id t := by
  rcases step_sound hstep with ⟨hpanic, sh, l, hacts, rfl⟩
  rintro ⟨halive, haccepting⟩
  have hhalted := (panic_act_iff (registered_of_reachable hreach event.id) hpanic hacts).mp halive
  rw [setback, hhalted, List.nil_append] at hsome
  by_cases heq : event.id = id
  · subst heq
    rw [if_pos rfl] at hsome
    dsimp only at haccepting
    rw [Function.update_self] at haccepting
    rcases h.2.ended halive hacts hsome with hpc | ⟨hpc, hzero⟩
    · simp [hpc] at haccepting
    · simp [hpc, hzero] at haccepting
  · exact hsome (if_neg heq)

theorem accepting_iff {events : List (Event n)} {setbacks : List Setback} (id : Fin n)
    (hrun : run (record (setback id) step) (State.init n lfd, []) events = some (s, setbacks)) :
    Always (record (setback id) step) (State.init n lfd, []) events
      (fun t => Accepting id t.1) ↔ setbacks = [] := by
  apply always_record_iff (Undisturbed id) hrun
  · exact ⟨rfl, ⟨registers_nil, rfl⟩, ⟨nofun, nofun⟩, rfl⟩
  · exact fun s hs => Undisturbed.accepting hs
  · exact fun s event t hreach hs hstep hnone => undisturbed_step hreach hs hstep hnone
  · exact fun s event t hreach hs hstep hsome => not_accepting_of_setback hreach hs hstep hsome

end Runs

end IoWrapper.MultiEcho.Accepts
