import IoWrapper.Core.Progress
import IoWrapper.EventfdEcho.Accepts
import IoWrapper.EventfdEcho.Wakeups

/-! The goroutines left to themselves. They hand events from one to the next over channels, and
those that run callbacks take turns at `submitLock`; without new completions they all come to a
point where they wait. -/
namespace IoWrapper.EventfdEcho.Rest
open Core.Machine Core.Traffic Core.Progress GoEcho.Operations Server Wakeups
open Core.Collections (sum_update_add)

/-- A step of one of the goroutines. -/
def Own {n : Nat} (_ : State n) : Event n → Prop
  | .complete .. | .epollError | .stop => False
  | .prepare _ | .register _ | .submit _ | .submitError _ | .unregister | .report | .signal
  | .receiveSignal | .peek | .put | .receive _ | .finish _ => True

instance {n : Nat} (s : State n) : (event : Event n) → Decidable (Own s event)
  | .complete .. | .epollError | .stop => inferInstanceAs (Decidable False)
  | .prepare _ | .register _ | .submit _ | .submitError _ | .unregister | .report | .signal
  | .receiveSignal | .peek | .put | .receive _ | .finish _ => inferInstanceAs (Decidable True)

section Work

def panicWork : Option Panic → Nat
  | none => 1
  | some _ => 0

def lockWork {n : Nat} : Option (Goroutine n × Phase) → Nat
  | none => 0
  | some (_, .prepared _) => 3
  | some (_, .registered _) => 2
  | some (_, .failed _) => 1

def epollWork : EpollPc → Nat
  | .wait => 0
  | .send => 4

def subWork : SubPc → Nat
  | .select | .stopped => 0
  | .peek => 2
  | .deliver => 1

def itemWork {α : Type} (weight : Nat) (item : Option α) : Nat := weight * item.toList.length

def listWork {α : Type} (weight : Nat) (items : List α) : Nat := weight * items.length

variable {n : Nat}

def poolWork (pool : Core.Dispatch.State Server.EventInfo (Fin n)) : Nat :=
  itemWork 13 pool.hand + (∑ i, listWork 12 (pool.queues i)) +
    ∑ runner, itemWork 2 (pool.running runner)

/-- A bound for the steps that the goroutines can take without the kernel. -/
def work (s : State n) : Nat :=
  panicWork s.panic + lockWork s.submitLock + (∑ g, listWork 4 (s.todo g)) +
    (5 * s.epollEvent.toNat + epollWork s.epoll + 3 * s.signCh + subWork s.sub) +
    20 * s.ring.cq.length + poolWork s.pool

theorem length_requests_le (info : Server.EventInfo) : info.requests.length ≤ 2 := by
  unfold EventInfo.requests
  cases info.cb with
  | none => exact Nat.zero_le 2
  | some cb =>
    cases cb with
    | accpetCb =>
      simp only [Callback.call, accpetCb]
      split <;> simp
    | readCb =>
      simp only [Callback.call, readCb]
      split
      · split <;> simp
      · simp
    | writeCb => exact Nat.le_succ 1
    | closeCb => exact Nat.zero_le 2

section Pool

variable [NeZero n] {syncCb : Bool} {pool next : Core.Dispatch.State Server.EventInfo (Fin n)}

theorem poolWork_take {info : Server.EventInfo}
    (h : Core.Dispatch.step syncCb dispatchChSize (index n) pool (.take info) = some next) :
    poolWork next ≤ poolWork pool + if syncCb then 2 else 13 := by
  cases Core.Dispatch.step_sound h with
  | took hhand hrunning =>
    have htotal := sum_update_add (itemWork 2) pool.running none (some info)
    rw [hrunning] at htotal
    simp only [itemWork, Option.toList_none, Option.toList_some, List.length_nil,
      List.length_singleton] at htotal
    cases syncCb with
    | true =>
      simp only [poolWork, itemWork, Core.Dispatch.State.take, if_true]
      omega
    | false =>
      simp only [poolWork, itemWork, Core.Dispatch.State.take, hhand, Bool.false_eq_true, if_false,
        Option.toList_none, Option.toList_some, List.length_nil, List.length_singleton]
      omega

theorem poolWork_put
    (h : Core.Dispatch.step syncCb dispatchChSize (index n) pool .put = some next) :
    poolWork next + 1 = poolWork pool := by
  cases Core.Dispatch.step_sound h with
  | @put info hhand =>
    have htotal := sum_update_add (listWork 12) pool.queues (index n info)
      (pool.queues (index n info) ++ [info])
    simp only [listWork, List.length_append, List.length_singleton] at htotal
    simp only [poolWork, itemWork, listWork, Core.Dispatch.State.put, hhand, Option.toList_none,
      Option.toList_some, List.length_nil, List.length_singleton]
    omega

theorem poolWork_receive {i : Fin n}
    (h : Core.Dispatch.step syncCb dispatchChSize (index n) pool (.receive i) = some next) :
    poolWork next + 10 = poolWork pool := by
  cases Core.Dispatch.step_sound h with
  | @received _ info rest hrunning hqueue =>
    have hqueues := sum_update_add (listWork 12) pool.queues i (pool.queues i).tail
    have hrunners := sum_update_add (itemWork 2) pool.running (some i) (some info)
    rw [hrunning] at hrunners
    rw [hqueue, List.tail_cons] at hqueues
    simp only [listWork, itemWork, Option.toList_none, Option.toList_some, List.length_nil,
      List.length_cons] at hqueues hrunners
    simp only [poolWork, itemWork, listWork, Core.Dispatch.State.receive, hqueue, List.tail_cons]
    omega

theorem poolWork_finish {runner : Option (Fin n)}
    (h : Core.Dispatch.step syncCb dispatchChSize (index n) pool (.finish runner) = some next) :
    poolWork next + 2 = poolWork pool := by
  rcases Option.ite_none_right_eq_some.mp h with ⟨hsome, hnext⟩
  cases hnext
  rcases Option.isSome_iff_exists.mp hsome with ⟨info, hrunning⟩
  have hrunners := sum_update_add (itemWork 2) pool.running runner none
  rw [hrunning] at hrunners
  simp only [itemWork, Option.toList_none, Option.toList_some, List.length_nil,
    List.length_singleton] at hrunners
  simp only [poolWork, itemWork, Core.Dispatch.State.finish]
  omega

end Pool

theorem todo_update (s : State n) (g : Goroutine n) (requests : List Request) :
    (∑ g', listWork 4 (Function.update s.todo g requests g')) + listWork 4 (s.todo g) =
      (∑ g', listWork 4 (s.todo g')) + listWork 4 requests :=
  sum_update_add (listWork 4) s.todo g requests

variable [NeZero n] {syncCb : Bool} {s t : State n}

theorem work_step {event : Event n} (hown : Own s event) (hpanic : s.panic = none)
    (hstep : Step syncCb s event t) : work t < work s := by
  cases hstep with
  | panicked =>
    simp only [work, hpanic, panicWork]
    omega
  | @prepared g request rest prepared hlock htodo hprepare =>
    have htotal := todo_update s g rest
    rw [htodo] at htotal
    simp only [listWork, List.length_cons] at htotal
    simp only [work, hlock, lockWork, listWork]
    omega
  | registered hlock =>
    simp only [work, hlock, lockWork, State.registered, IoRing.push]
    omega
  | submitted hlock =>
    simp only [work, hlock, lockWork, IoRing.submit]
    omega
  | submitFailed hlock =>
    simp only [work, hlock, lockWork, IoRing.submit]
    omega
  | unregistered hlock =>
    simp only [work, hlock, lockWork]
    omega
  | completed => exact absurd hown id
  | reported hepoll hevent =>
    simp only [work, hepoll, hevent, epollWork, Bool.toNat_true, Bool.toNat_false]
    omega
  | epollFailed => exact absurd hown id
  | signalled hepoll =>
    simp only [work, hepoll, epollWork]
    omega
  | signalReceived hsub hsignal =>
    simp only [work, hsub, subWork]
    omega
  | stopped => exact absurd hown id
  | peekedNone hsub =>
    simp only [work, hsub, subWork]
    omega
  | missed hsub hcq | unknown hsub hcq =>
    simp only [work, hsub, subWork, IoRing.seen_cq, hcq, List.tail_cons, List.length_cons]
    omega
  | @delivered cqe rest info pool hsub hcq hlookup hpool =>
    have hpoolWork := poolWork_take hpool
    have hrequests := length_requests_le { info with res := cqe.res }
    have htotal :=
      todo_update s (some none) ({ info with res := cqe.res } : Server.EventInfo).requests
    simp only [work, State.delivered, hsub, subWork, IoRing.seen_cq, hcq, List.tail_cons,
      List.length_cons]
    -- The callback runs at once, or it is in the hand of the dispatcher.
    cases syncCb with
    | true =>
      simp only [if_true, listWork] at hpoolWork htotal ⊢
      omega
    | false =>
      simp only [Bool.false_eq_true, if_false] at hpoolWork ⊢
      omega
  | put hsub hpool =>
    have hpoolWork := poolWork_put hpool
    simp only [work, hsub, subWork]
    omega
  | @received i info rest pool hqueue hpool =>
    have hpoolWork := poolWork_receive hpool
    have hrequests := length_requests_le info
    have htotal := todo_update s (some (some i)) info.requests
    simp only [listWork] at htotal
    simp only [work, listWork]
    omega
  | @finished runner pool htodo hsub hpool =>
    have hpoolWork := poolWork_finish hpool
    cases runner with
    | none =>
      simp only [work, hsub rfl, subWork, if_true]
      omega
    | some i =>
      simp only [work, reduceCtorEq, if_false]
      omega

end Work

section Handed

variable {n : Nat}

inductive Handed (sub : SubPc) (pool : Core.Dispatch.State Server.EventInfo (Fin n)) : Prop where
  | idle (hsub : sub ≠ .deliver) (hhand : pool.hand = none) (hrunning : pool.running none = none)
  | hand {info : Server.EventInfo} (hsub : sub = .deliver) (hhand : pool.hand = some info)
      (hrunning : pool.running none = none)
  | running {info : Server.EventInfo} (hsub : sub = .deliver) (hhand : pool.hand = none)
      (hrunning : pool.running none = some info)

variable {sub sub' : SubPc} {pool next : Core.Dispatch.State Server.EventInfo (Fin n)}

theorem Handed.of_ne (h : Handed sub pool) (hsub : sub ≠ .deliver) :
    pool.hand = none ∧ pool.running none = none := by
  cases h with
  | idle _ hhand hrunning => exact ⟨hhand, hrunning⟩
  | hand hdeliver | running hdeliver => exact absurd hdeliver hsub

theorem Handed.move (h : Handed sub pool) (hsub : sub ≠ .deliver) (hsub' : sub' ≠ .deliver) :
    Handed sub' pool :=
  .idle hsub' (h.of_ne hsub).1 (h.of_ne hsub).2

theorem Handed.of_same (h : Handed sub pool) (hhand : next.hand = pool.hand)
    (hrunning : next.running none = pool.running none) : Handed sub next := by
  cases h with
  | idle hsub hnone hidle => exact .idle hsub (hhand.trans hnone) (hrunning.trans hidle)
  | hand hsub hsome hidle => exact .hand hsub (hhand.trans hsome) (hrunning.trans hidle)
  | running hsub hnone hsome => exact .running hsub (hhand.trans hnone) (hrunning.trans hsome)

variable [NeZero n] {syncCb : Bool} {s t : State n}

theorem handed_step {event : Event n} (h : Handed s.sub s.pool) (hstep : Step syncCb s event t) :
    Handed t.sub t.pool := by
  cases hstep with
  | panicked | prepared | registered | submitted | submitFailed | unregistered | completed
  | reported | epollFailed | signalled => exact h
  | signalReceived hsub | stopped hsub | peekedNone hsub | missed hsub | unknown hsub =>
    exact h.move (by simp [hsub]) SubPc.noConfusion
  | delivered hsub hcq hlookup hpool =>
    have hidle := h.of_ne (by simp [hsub])
    cases Core.Dispatch.step_sound hpool with
    | took =>
      cases syncCb with
      | true =>
        have hsome (info : Server.EventInfo) :
            (Core.Dispatch.State.take true s.pool info).running none = some info := by
          simp [Core.Dispatch.State.take]
        exact .running rfl hidle.1 (hsome _)
      | false => exact .hand rfl rfl hidle.2
  | put hsub hpool =>
    cases Core.Dispatch.step_sound hpool with
    | put hsome =>
      refine .idle SubPc.noConfusion rfl ?_
      cases h with
      | idle _ hhand | running _ hhand =>
        rw [hhand] at hsome
        cases hsome
      | hand _ _ hrunning => exact hrunning
  | received hqueue hpool =>
    cases Core.Dispatch.step_sound hpool with
    | received => exact h.of_same rfl (by simp [Core.Dispatch.State.receive])
  | @finished runner pool htodo hsub hpool =>
    rcases Option.ite_none_right_eq_some.mp hpool with ⟨hsome, hnext⟩
    cases hnext
    cases runner with
    | none =>
      refine .idle SubPc.noConfusion ?_ (by simp [Core.Dispatch.State.finish])
      cases h with
      | idle _ _ hrunning | hand _ _ hrunning =>
        rw [hrunning] at hsome
        cases hsome
      | running _ hhand => exact hhand
    | some i => exact h.of_same rfl (by simp [Core.Dispatch.State.finish])

theorem handed_of_reachable {lfd : Nat} (h : Reachable (step syncCb) (State.init n lfd) s) :
    Handed s.sub s.pool :=
  h.invariant (fun s => Handed s.sub s.pool) (.idle SubPc.noConfusion rfl rfl)
    fun _ _ _ _ hs hstep => handed_step hs (step_sound hstep)

end Handed

/-- Every goroutine waits: no request is left to be submitted, no callback runs, the workers have
empty channels. The first of the two other goroutines waits for an event, or for room on the full
channel; the second one waits for a signal, or it has returned. -/
structure AtRest {n : Nat} (s : State n) : Prop where
  unlocked : s.submitLock = none
  todo : ∀ g, s.todo g = []
  running : ∀ runner, s.pool.running runner = none
  queues : ∀ i, s.pool.queues i = []
  hand : s.pool.hand = none
  epoll : s.epoll = .wait ∧ s.epollEvent = false ∨ s.epoll = .send ∧ 0 < s.signCh
  sub : s.sub = .select ∧ s.signCh = 0 ∨ s.sub = .stopped

section Progress

variable {n : Nat} {syncCb : Bool} {s t : State n}

theorem prepare_ne_none {g : Goroutine n} (hlock : s.submitLock = none) (htodo : s.todo g ≠ []) :
    s.prepare g ≠ none := by
  rcases List.exists_cons_of_ne_nil htodo with ⟨request, rest, hcons⟩
  unfold State.prepare
  rw [hlock, hcons]
  dsimp only
  split
  · exact Option.some_ne_none _
  · split <;> exact Option.some_ne_none _

variable [NeZero n]

theorem peek_ne_none (hhand : s.pool.hand = none) (hrunning : s.pool.running none = none) :
    s.peek syncCb ≠ none := by
  unfold State.peek
  split
  · exact Option.some_ne_none _
  · split
    · exact Option.some_ne_none _
    · split
      · exact Option.some_ne_none _
      · simp [Core.Dispatch.step, hhand, hrunning]

theorem unlocked_of_stuck (hstuck : ∀ event, Own s event → act syncCb s event = none) :
    s.submitLock = none := by
  cases hlock : s.submitLock with
  | none => rfl
  | some held =>
    rcases held with ⟨g, phase⟩
    cases phase with
    | prepared prepared =>
      rcases Infinite.exists_notMem_finset s.mapEvent.keys.toFinset with ⟨userData, hnew⟩
      have hnew : userData ∉ s.mapEvent := fun hmem => hnew (List.mem_toFinset.mpr hmem)
      have hnone := hstuck (.register userData) trivial
      simp [act, hlock, hnew] at hnone
    | registered userData =>
      have hnone := hstuck (.submit 0) trivial
      simp [act, hlock] at hnone
    | failed userData =>
      have hnone := hstuck .unregister trivial
      simp [act, hlock] at hnone

theorem running_of_stuck (hhanded : Handed s.sub s.pool) (hlock : s.submitLock = none)
    (htodo : ∀ g, s.todo g = []) (hstuck : ∀ event, Own s event → act syncCb s event = none)
    (runner : Option (Fin n)) : s.pool.running runner = none := by
  by_contra hsome
  have hdeliver : runner = none → s.sub = .deliver := by
    rintro rfl
    by_contra hsub
    exact hsome (hhanded.of_ne hsub).2
  have hguard : s.todo (some runner) = [] ∧ s.submitLock.map Prod.fst ≠ some (some runner) ∧
      (runner = none → s.sub = .deliver) := ⟨htodo _, by simp [hlock], hdeliver⟩
  have hnone := hstuck (.finish runner) trivial
  simp only [act] at hnone
  rw [if_pos hguard] at hnone
  simp [Core.Dispatch.step, Option.isSome_iff_ne_none, hsome] at hnone

theorem queues_of_stuck (hrunning : ∀ runner, s.pool.running runner = none)
    (hstuck : ∀ event, Own s event → act syncCb s event = none) (i : Fin n) :
    s.pool.queues i = [] := by
  cases hqueue : s.pool.queues i with
  | nil => rfl
  | cons info rest =>
    have hnone := hstuck (.receive i) trivial
    simp [act, hqueue, Core.Dispatch.step, hrunning] at hnone

theorem not_deliver_of_stuck (hhanded : Handed s.sub s.pool)
    (hrunning : ∀ runner, s.pool.running runner = none) (hqueues : ∀ i, s.pool.queues i = [])
    (hstuck : ∀ event, Own s event → act syncCb s event = none) : s.sub ≠ .deliver := by
  intro hsub
  cases hhanded with
  | idle hne => exact hne hsub
  | hand _ hhand =>
    have hnone := hstuck .put trivial
    simp [act, hsub, Core.Dispatch.step, hhand, hqueues, dispatchChSize] at hnone
  | running _ _ hsome =>
    rw [hrunning] at hsome
    cases hsome

theorem epoll_of_stuck (hstuck : ∀ event, Own s event → act syncCb s event = none) :
    s.epoll = .wait ∧ s.epollEvent = false ∨ s.epoll = .send ∧ 0 < s.signCh := by
  have hreport := hstuck .report trivial
  have hsignal := hstuck .signal trivial
  cases hepoll : s.epoll with
  | wait =>
    simp only [act, hepoll, true_and, ite_eq_right_iff, reduceCtorEq, imp_false,
      Bool.not_eq_true] at hreport
    exact Or.inl ⟨rfl, hreport⟩
  | send =>
    simp only [act, hepoll, true_and, ite_eq_right_iff, reduceCtorEq, imp_false] at hsignal
    exact Or.inr ⟨rfl, by omega⟩

theorem sub_of_stuck (hhand : s.pool.hand = none) (hrunning : s.pool.running none = none)
    (hsub : s.sub ≠ .deliver) (hstuck : ∀ event, Own s event → act syncCb s event = none) :
    s.sub = .select ∧ s.signCh = 0 ∨ s.sub = .stopped := by
  cases hpc : s.sub with
  | deliver => exact absurd hpc hsub
  | stopped => exact Or.inr rfl
  | peek =>
    have hnone := hstuck .peek trivial
    simp only [act, hpc, if_true] at hnone
    exact absurd hnone (peek_ne_none hhand hrunning)
  | select =>
    have hreceive := hstuck .receiveSignal trivial
    simp only [act, hpc, true_and, ite_eq_right_iff, reduceCtorEq, imp_false] at hreceive
    exact Or.inl ⟨rfl, Nat.eq_zero_of_not_pos hreceive⟩

theorem at_rest_of_stuck (hhanded : Handed s.sub s.pool)
    (hstuck : ∀ event, Own s event → act syncCb s event = none) : AtRest s := by
  have hlock := unlocked_of_stuck hstuck
  have htodo : ∀ g, s.todo g = [] := by
    intro g
    by_contra hsome
    exact prepare_ne_none hlock hsome (hstuck (.prepare g) trivial)
  have hrunning := running_of_stuck hhanded hlock htodo hstuck
  have hqueues := queues_of_stuck hrunning hstuck
  have hsub := not_deliver_of_stuck hhanded hrunning hqueues hstuck
  have hhand := (hhanded.of_ne hsub).1
  exact ⟨hlock, htodo, hrunning, hqueues, hhand, epoll_of_stuck hstuck,
    sub_of_stuck hhand (hrunning none) hsub hstuck⟩

theorem AtRest.act_eq_none (h : AtRest s) {event : Event n} (hown : Own s event) :
    act syncCb s event = none := by
  cases event with
  | prepare g => simp [act, State.prepare, h.todo]
  | register | submit | submitError | unregister => simp [act, h.unlocked]
  | complete | epollError | stop => exact absurd hown id
  | report => rcases h.epoll with hepoll | hepoll <;> simp [act, hepoll]
  | signal =>
    rcases h.epoll with hepoll | hepoll
    · simp [act, hepoll]
    · simp [act, Nat.ne_of_gt hepoll.2]
  | receiveSignal => rcases h.sub with hsub | hsub <;> simp [act, hsub]
  | peek | put => rcases h.sub with hsub | hsub <;> simp [act, hsub]
  | receive i => simp [act, h.queues]
  | finish runner => simp [act, Core.Dispatch.step, h.running]

theorem stuck_iff (hhanded : Handed s.sub s.pool) :
    Stuck (restrict Own (step syncCb)) s ↔ s.panic ≠ none ∨ AtRest s := by
  constructor
  · intro hstuck
    by_cases hpanic : s.panic = none
    · have hnone : ∀ event, Own s event → act syncCb s event = none := by
        intro event hown
        have hblocked := hstuck event
        rwa [restrict, if_pos hown, step, if_pos hpanic] at hblocked
      exact Or.inr (at_rest_of_stuck hhanded hnone)
    · exact Or.inl hpanic
  · intro hstop event
    by_cases hown : Own s event
    · rw [restrict, if_pos hown, step]
      rcases hstop with hpanic | hrest
      · exact if_neg hpanic
      · rw [hrest.act_eq_none hown, ite_self]
    · exact if_neg hown

theorem consumes (syncCb : Bool) :
    Consumes (work : State n → Nat) (restrict Own (step syncCb)) := by
  intro s event t hstep
  rcases restrict_eq_some.mp hstep with ⟨hown, hstep⟩
  unfold step at hstep
  exact work_step hown (Option.ite_none_right_eq_some.mp hstep).1 (step_sound hstep)

/-- Left to themselves, the goroutines take a bounded number of steps, and they stop just where one
of them has panicked or all of them wait for something to happen. -/
theorem comes_to_rest {lfd : Nat} {events : List (Event n)}
    (h : Reachable (step syncCb) (State.init n lfd) s)
    (hrun : run (restrict Own (step syncCb)) s events = some t) :
    events.length ≤ work s ∧
      (Stuck (restrict Own (step syncCb)) t ↔ t.panic ≠ none ∨ AtRest t) := by
  have hreach : Reachable (restrict Own (step syncCb)) s t := ⟨events, hrun⟩
  have hlength := (consumes syncCb).length_le hrun
  exact ⟨by omega, stuck_iff (handed_of_reachable (h.trans hreach.of_restrict))⟩

end Progress

theorem comes_to_rest_one_connect :
    ∃ s t : State 2, Reachable (step false) (State.init 2 3) s ∧
      run (restrict Own (step false)) s (oneConnect.drop 4) = some t ∧ 13 ≤ work s ∧
      Stuck (restrict Own (step false)) t ∧ AtRest t := by
  have hrun : (run (step false) (State.init 2 3) (oneConnect.take 4)).bind (fun s =>
      (run (restrict Own (step false)) s (oneConnect.drop 4)).map fun t =>
        (decide (t.submitLock = none ∧ (∀ g, t.todo g = []) ∧
            (∀ runner, t.pool.running runner = none) ∧ (∀ i, t.pool.queues i = []) ∧
            t.pool.hand = none),
          (t.epoll, t.epollEvent), (t.sub, t.signCh))) =
      some (true, (.wait, false), (.select, 0)) := by
    decide +kernel
  rcases Option.bind_eq_some_iff.mp hrun with ⟨s, hs, hmap⟩
  rcases Option.map_eq_some_iff.mp hmap with ⟨t, ht, hview⟩
  simp only [Prod.mk.injEq, decide_eq_true_eq] at hview
  rcases hview with ⟨⟨hlock, htodo, hrunning, hqueues, hhand⟩, hepoll, hsub⟩
  have hrest : AtRest t :=
    ⟨hlock, htodo, hrunning, hqueues, hhand, Or.inl hepoll, Or.inl hsub⟩
  have hresult := comes_to_rest ⟨_, hs⟩ ht
  exact ⟨s, t, ⟨_, hs⟩, ht, hresult.1, hresult.2.mpr (Or.inr hrest), hrest⟩

end IoWrapper.EventfdEcho.Rest
