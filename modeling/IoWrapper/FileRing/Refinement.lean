import IoWrapper.FileRing.Custody

/-! Runs on the memory. Every run of the loop on pointers is one of the loop on
records, so that what holds of the latter holds of the former; on the way it
turns out that no pointer is followed once it is freed, nothing is freed twice,
and which memory is in use at any time. -/
namespace IoWrapper.FileRing.Refinement
open Core.Machine Core.Heap Memory Custody
open Loop (Request PollCall Rig Frame)

section Frames

variable {ρ ι κ α ρ' ι' κ' α' : Type} {R : Rig ρ ι κ α} {R' : Rig ρ' ι' κ' α'}
  {rel : ρ → ρ' → Prop} {s t : Frame ρ} {ring : ρ'}

def loopOver (s : Frame ρ) (ring : ρ') : Frame ρ' :=
  ⟨ring, s.pc, s.queueSize, s.calls, s.waiting, s.received, s.flushed, s.returned, s.polls⟩

/-- What the functions on two rings have to do for one loop to go as the other does. -/
structure Bridge (R : Rig ρ ι κ α) (R' : Rig ρ' ι' κ' α') (rel : ρ → ρ' → Prop) : Prop where
  openFds : ∀ {a b}, rel a b → (R.queues a).openFds = (R'.queues b).openFds
  openFd : ∀ {a b}, rel a b → ∀ fd, rel (R.withQueues a ((R.queues a).openFd fd))
    (R'.withQueues b ((R'.queues b).openFd fd))
  sendErr : ∀ {a b}, rel a b → ∀ text errno about,
    rel (R.sendErr a text errno about) (R'.sendErr b text errno about)
  taken : ∀ {a b}, rel a b → ∀ count, rel (R.withQueues a ((R.queues a).taken count))
    (R'.withQueues b ((R'.queues b).taken count))
  complete : ∀ {a b}, rel a b → ∀ i res data result, R.complete a i res data = some result →
    ∃ result', R'.complete b i res data = some result' ∧ Agrees rel result result'
  popRequest : ∀ {a b}, rel a b →
    Agrees (fun x y => x.1 = y.1 ∧ rel x.2 y.2) (R.popRequest a) (R'.popRequest b)
  owner : ∀ {a b}, rel a b → R.owner a = R'.owner b

theorem over_receivePoll (s : Frame ρ) (ring : ρ') (i : Nat) (p : PollCall) :
    (loopOver s ring).receivePoll i p = loopOver (s.receivePoll i p) ring := by
  unfold Frame.receivePoll
  by_cases hpos : s.queueSize > 0
  · simp only [loopOver, hpos, if_true]
  · simp only [loopOver, hpos, if_false]

theorem over_resumed (s : Frame ρ) (ring ring' : ρ') (left : Nat) (a : ρ) :
    (loopOver s ring).resumed left ring' = loopOver (s.resumed left a) ring' := by
  unfold Frame.resumed
  split <;> rfl

theorem receivePoll_ring (s : Frame ρ) (i : Nat) (p : PollCall) :
    (s.receivePoll i p).ring = s.ring := by
  unfold Frame.receivePoll
  dsimp only
  split <;> rfl

theorem Bridge.submit (h : Bridge R R' rel) (hrel : rel s.ring ring) (n : Nat) (ret : Int) :
    ∃ ring', (loopOver s ring).submit R' n ret = loopOver (s.submit R n ret) ring' ∧
      rel (s.submit R n ret).ring ring' := by
  unfold Frame.submit
  split
  · exact ⟨_, rfl, h.sendErr hrel _ _ _⟩
  · exact ⟨_, rfl, h.taken hrel _⟩

theorem over_ended (hrel : rel s.ring ring) {result : Except Ring.Fault ρ}
    {result' : Except Ring.Fault ρ'} (hagree : Agrees rel result result') :
    ∃ ring', (loopOver s ring).ended result' = loopOver (s.ended result) ring' ∧
      rel (s.ended result).ring ring' := by
  cases hagree with
  | error fault => exact ⟨ring, rfl, hrel⟩
  | ok hnext => exact ⟨_, rfl, hnext⟩

theorem Bridge.afterPop (h : Bridge R R' rel) {x : Int × ρ} {y : Int × ρ'} (hret : x.1 = y.1)
    (hrel : rel x.2 y.2) (n : Nat) (about : Option Nat) :
    (Ring.afterPop R.sendErr n about x).1 = (Ring.afterPop R'.sendErr n about y).1 ∧
      rel (Ring.afterPop R.sendErr n about x).2 (Ring.afterPop R'.sendErr n about y).2 := by
  unfold Ring.afterPop
  rw [hret]
  split
  · exact ⟨rfl, h.sendErr hrel _ _ _⟩
  · exact ⟨rfl, hrel⟩

theorem Bridge.pop (h : Bridge R R' rel) (hrel : rel s.ring ring) (n : Nat) :
    ∃ ring', (loopOver s ring).pop R' n = loopOver (s.pop R n) ring' ∧
      rel (s.pop R n).ring ring' := by
  have hagree : Agrees (fun x y => x.1 = y.1 ∧ rel x.2 y.2)
      ((R.popRequest s.ring).map (Ring.afterPop R.sendErr n (R'.owner ring)))
      ((R'.popRequest ring).map (Ring.afterPop R'.sendErr n (R'.owner ring))) :=
    (h.popRequest hrel).map fun x y hxy => h.afterPop hxy.1 hxy.2 n (R'.owner ring)
  unfold Frame.pop
  have hring : (loopOver s ring).ring = ring := rfl
  rw [hring, h.owner hrel]
  generalize (R.popRequest s.ring).map _ = x at hagree ⊢
  generalize (R'.popRequest ring).map _ = y at hagree ⊢
  cases hagree with
  | error fault => exact ⟨ring, rfl, hrel⟩
  | @ok a b hab =>
    rcases a with ⟨left, a⟩
    rcases b with ⟨left', b⟩
    dsimp only at hab ⊢
    rw [← hab.1]
    exact ⟨b, over_resumed s ring b left a, by rw [Loop.resumed_ring]; exact hab.2⟩

theorem Bridge.step {event : Loop.Event} (h : Bridge R R' rel) (hrel : rel s.ring ring)
    (hstep : s.step R event = some t) :
    ∃ ring', (loopOver s ring).step R' event = some (loopOver t ring') ∧ rel t.ring ring' := by
  cases Frame.step_sound hstep with
  | @opened event r hcall hfd =>
    rw [h.openFds hrel] at hfd
    refine ⟨_, ?_, h.openFd hrel r.fd⟩
    cases event with
    | readFile | writeFile =>
      cases hcall
      exact if_neg hfd
    | _ => cases hcall
  | callReturn hid => exact ⟨ring, if_pos hid, hrel⟩
  | poll => exact ⟨ring, rfl, hrel⟩
  | @receivePoll i poll hpc hp hwaits =>
    refine ⟨ring, ?_, by rw [receivePoll_ring]; exact hrel⟩
    have hpc' : (loopOver s ring).pc = .select := hpc
    have hp' : (loopOver s ring).polls[i]? = some poll := hp
    simp only [Frame.step, hpc', hp', hwaits, over_receivePoll]
    rfl
  | pollReturn hp hstage =>
    refine ⟨ring, ?_, hrel⟩
    simp only [Frame.step, loopOver, hp]
    exact if_pos hstage
  | quit hpc => exact ⟨ring, if_pos hpc, hrel⟩
  | @submit n ret hpc =>
    rcases h.submit hrel n ret with ⟨ring', hsubmit, hnext⟩
    have hpc' : (loopOver s ring).pc = .submitting n := hpc
    exact ⟨ring', by simp only [Frame.step, hpc', hsubmit], hnext⟩
  | ended hended =>
    rcases h.complete hrel _ _ _ _ hended with ⟨result', hresult, hagree⟩
    rcases over_ended hrel hagree with ⟨ring', hsame, hnext⟩
    refine ⟨ring', ?_, hnext⟩
    rw [← hsame]
    exact Option.map_eq_some_iff.mpr ⟨result', hresult, rfl⟩
  | @pop n hpc =>
    rcases h.pop hrel n with ⟨ring', hpop, hnext⟩
    have hpc' : (loopOver s ring).pc = .popping n := hpc
    exact ⟨ring', by simp only [Frame.step, hpc', hpop], hnext⟩

theorem over_receive (rel : ρ → ρ' → Prop) {i : Nat} {r : Request} {alloc : α} {alloc' : α'}
    (hsend : ∀ {a b}, rel a b → ∀ text errno about,
      rel (R.sendErr a text errno about) (R'.sendErr b text errno about))
    (hpush : Agrees (fun x y => x.1 = y.1 ∧ rel x.2 y.2)
      (R.push alloc r (s.registered R i r).ring)
      (R'.push alloc' r ((loopOver s ring).registered R' i r).ring))
    (hfault : ∀ fault, R'.push alloc' r ((loopOver s ring).registered R' i r).ring = .error fault →
      rel (s.registered R i r).ring ((loopOver s ring).registered R' i r).ring) :
    ∃ ring', (loopOver s ring).receive R' i r alloc' = loopOver (s.receive R i r alloc) ring' ∧
      rel (s.receive R i r alloc).ring ring' := by
  unfold Frame.receive
  dsimp only
  generalize R.push alloc r (s.registered R i r).ring = x at hpush ⊢
  generalize R'.push alloc' r ((loopOver s ring).registered R' i r).ring = y at hpush hfault ⊢
  cases hpush with
  | error fault => exact ⟨_, rfl, hfault fault rfl⟩
  | @ok a b hab =>
    rcases a with ⟨ret, a⟩
    rcases b with ⟨ret', b⟩
    dsimp only at hab ⊢
    rw [← hab.1]
    by_cases hneg : ret < 0
    · rw [if_pos hneg, if_pos hneg]
      exact ⟨_, rfl, hsend hab.2 _ _ _⟩
    · rw [if_neg hneg, if_neg hneg]
      change ∃ ring', (if s.queueSize + 1 > Loop.queueThreshold then _ else _) =
        loopOver (if s.queueSize + 1 > Loop.queueThreshold then _ else _) ring' ∧
          rel (Frame.ring (if s.queueSize + 1 > Loop.queueThreshold then _ else _)) ring'
      split
      · exact ⟨b, rfl, hab.2⟩
      · exact ⟨b, rfl, hab.2⟩

end Frames

section Runs

variable {p q : Sys} {ring : Ring.State} {lost : List Nat}

/-- The memory shows the ring, and is cut up among its requests and what is lost. -/
def Carries (lost : List Nat) (mem : State) (ring : Ring.State) : Prop :=
  Shows mem ring ∧ Owned mem lost

theorem Carries.sendErr {mem : State} (h : Carries lost mem ring) (text : String) (errno : Int)
    (about : Option Nat) :
    Carries lost (rig.sendErr mem text errno about) (Loop.rig.sendErr ring text errno about) :=
  ⟨h.1.emit _, h.2.emit _⟩

theorem Carries.complete {mem : State} (h : Carries lost mem ring) (i : Nat) (res : Int)
    (data : List UInt8) (result : Except Ring.Fault State)
    (hended : rig.complete mem i res data = some result) :
    ∃ result', Loop.rig.complete ring i res data = some result' ∧
      Agrees (Carries lost) result result' := by
  rcases Option.bind_eq_some_iff.mp hended with ⟨addr, hi, hcomplete⟩
  have hplace := congrArg (fun infos => infos[i]?) h.1.inflight
  simp only [List.getElem?_map, hi, Option.map_some] at hplace
  rcases Option.map_eq_some_iff.mp hplace.symm with ⟨seen, hseen, hread⟩
  rcases readAt_eq_some.mp hread.symm with ⟨fi, hfi, -⟩
  simp only [Memory.complete, hfi, ← hread, Option.ite_none_right_eq_some,
    Option.some.injEq] at hcomplete
  rcases hcomplete with ⟨hreports, rfl⟩
  refine ⟨.ok (Loop.posted ring i seen res data), ?_,
    .ok (posted_shows res data h.1 h.2 hi hfi hread.symm)⟩
  exact Option.bind_eq_some_iff.mpr ⟨seen, hseen, if_pos hreports⟩

theorem bridge (lost : List Nat) : Bridge rig Loop.rig (Carries lost) where
  openFds h := h.1.openFds
  openFd h fd := ⟨{ h.1 with openFds := congrArg (fd :: ·) h.1.openFds }, h.2.holds, h.2.laid⟩
  sendErr h := h.sendErr
  taken h count := ⟨taken_shows h.1 count, taken_owned h.2 count⟩
  complete h := h.complete
  popRequest h := popRequest_agrees h.1 h.2
  owner h := owner_eq h.1

def plain : Event → Loop.Event
  | .loop event => event
  | .receive i grant => .receive i fun k => decide (k < grant.blocks.length)

/-- The addresses that a step leaves behind. -/
def lostBy (p : Sys) : Event → List Nat
  | .loop _ => []
  | .receive i grant => (p.waiting[i]?).elim [] (leftBy grant)

theorem leftBy_of_fault {grant : Grant} {r : Request} {fault : Ring.Fault}
    (h : Loop.push (fun k => decide (k < grant.blocks.length)) r ring = .error fault) :
    leftBy grant r = [] := by
  apply if_neg
  intro hfails
  rw [Loop.push_of_fails ((allocFails_iff _ r).mpr hfails)] at h
  cases h

theorem Carries.registered {mem : State} (h : Carries lost mem ring) (r : Request) :
    Carries lost (rig.withQueues mem ((rig.queues mem).register r.fd r.cbInfo))
      (ring.register r.fd r.cbInfo) := by
  refine ⟨{ h.1 with cbMap := ?_ }, h.2.holds, h.2.laid⟩
  change Function.update mem.cbMap r.fd (some r.cbInfo) = _
  rw [h.1.cbMap]
  rfl

theorem receive_follows (h : Carries lost p.ring ring) (i : Nat) {r : Request} {grant : Grant}
    (hgrant : grant.Fresh p.ring.heap r) :
    Sys.crash (p.receive rig i r grant) = some .nullInfo ∨
      ∃ ring', (loopOver p ring).receive Loop.rig i r (fun k => decide (k < grant.blocks.length)) =
          loopOver (p.receive rig i r grant) ring' ∧
        Carries (lost ++ leftBy grant r) (p.receive rig i r grant).ring ring' := by
  have hregistered := h.registered r
  cases hinfo : grant.info with
  | none =>
    left
    have hnull : rig.push grant r (p.registered rig i r).ring = .error (.crash .nullInfo) := by
      simp only [rig, push, pushReadRequest, pushWriteRequest, hinfo]
      cases r.code <;> rfl
    unfold Frame.receive
    dsimp only
    rw [hnull]
    rfl
  | some addr =>
    right
    apply over_receive (Carries (lost ++ leftBy grant r)) Carries.sendErr
    · exact push_agrees hregistered.1 hregistered.2 hgrant hinfo
    · intro fault hfault
      rw [leftBy_of_fault hfault, List.append_nil]
      exact hregistered

theorem follows_step {event : Event} (h : Carries lost p.ring ring)
    (hstep : step p event = some q) :
    q.crash = some .nullInfo ∨
      ∃ ring', Loop.step (loopOver p ring) (plain event) = some (loopOver q ring') ∧
        Carries (lost ++ lostBy p event) q.ring ring' := by
  rcases Option.ite_none_left_eq_some.mp hstep with ⟨-, hmove⟩
  cases event with
  | loop event =>
    rw [lostBy, List.append_nil]
    rcases (bridge lost).step h hmove with ⟨ring', hring, hcarries⟩
    refine Or.inr ⟨ring', ?_, hcarries⟩
    cases event with
    | receive => cases hmove
    | _ => exact hring
  | receive i grant =>
    rcases Frame.take_eq_some.mp hmove with ⟨hpc, r, hr, hgrant, rfl⟩
    apply (receive_follows h i (of_decide_eq_true hgrant)).imp id
    rintro ⟨ring', hring, hcarries⟩
    refine ⟨ring', Frame.take_eq_some.mpr ⟨hpc, r, hr, rfl, hring.symm⟩, ?_⟩
    rw [lostBy, hr]
    exact hcarries

theorem no_crash {s : Loop.Sys} (h : Reachable Loop.step Loop.Sys.init s) (crash : Ring.Crash) :
    s.pc ≠ .faulted (.crash crash) := by
  apply h.invariant (fun s => s.pc ≠ .faulted (.crash crash)) nofun
  intro s event t _ hs hstep
  cases Loop.step_sound hstep with
  | opened | pushFailed | callReturn | poll | pollReturn | completed => exact hs
  | pushFaulted | quit | submitFailed | submitted => exact nofun
  | pushed =>
    unfold Loop.Sys.pushed
    dsimp only
    split
    · exact nofun
    · exact hs
  | receivePoll =>
    unfold Frame.receivePoll
    dsimp only
    split
    · exact nofun
    · exact hs
  | popFaulted hpc hpop => rcases Ring.popIteration_fault hpop with rfl | rfl <;> simp
  | spun | refused | popped =>
    rcases Loop.resumed_pc s _ _ with hpc | hpc
    · rw [hpc]
      exact nofun
    · rw [hpc]
      exact nofun

theorem running_of_loop (h : Reachable Loop.step Loop.Sys.init (loopOver p ring)) :
    p.crash = none := by
  unfold Sys.crash
  split
  · rename_i crash hpc
    exact absurd hpc (no_crash h crash)
  · rfl

theorem carries_init : Carries [] Sys.init.ring Ring.State.init := by
  refine ⟨⟨rfl, rfl, rfl, rfl, rfl, rfl, rfl⟩, holds_empty, ?_⟩
  exact fun addr haddr => absurd haddr List.not_mem_nil

theorem follows_of_reachable {s : Sys × List Nat}
    (h : Reachable (record lostBy step) (Sys.init, []) s) :
    s.1.crash = some .nullInfo ∨ ∃ ring, Reachable Loop.step Loop.Sys.init (loopOver s.1 ring) ∧
      Carries s.2 s.1.ring ring := by
  apply h.invariant fun s => s.1.crash = some .nullInfo ∨
    ∃ ring, Reachable Loop.step Loop.Sys.init (loopOver s.1 ring) ∧ Carries s.2 s.1.ring ring
  · exact Or.inr ⟨_, Reachable.refl _ _, carries_init⟩
  · intro s event t _ hs hstep
    rcases record_eq_some.mp hstep with ⟨hmove, hlost⟩
    rcases hs with hcrash | ⟨ring, hreach, hcarries⟩
    · simp [step, hcrash] at hmove
    · apply (follows_step hcarries hmove).imp id
      rintro ⟨ring', hring, hnext⟩
      rw [hlost]
      exact ⟨ring', hreach.tail hring, hnext⟩

/-- A run on the memory is one on the records that its pointers lead to. -/
theorem refines_loop {s : Sys} (h : Reachable step Sys.init s) (hcrash : s.crash = none) :
    ∃ ring, Shows s.ring ring ∧ Reachable Loop.step Loop.Sys.init (loopOver s ring) := by
  rcases h.recorded lostBy with ⟨lost, hrecord⟩
  rcases follows_of_reachable hrecord with hnull | ⟨ring, hreach, hcarries⟩
  · rw [hcrash] at hnull
    cases hnull
  · exact ⟨ring, hcarries.1, hreach⟩

/-- No step follows a pointer to memory that is not in use or frees it, be it
in `pop_request`, in its callback or in the kernel. -/
theorem no_wild_access {s : Sys} (h : Reachable step Sys.init s) : s.crash ≠ some .wild := by
  rcases h.recorded lostBy with ⟨lost, hrecord⟩
  intro hwild
  rcases follows_of_reachable hrecord with hnull | ⟨ring, hreach, -⟩
  · rw [hnull] at hwild
    cases hwild
  · rw [running_of_loop hreach] at hwild
    cases hwild

/-- The memory in use is that of the requests in the ring and that of the
pushes that gave up, and no two of them share an address. -/
theorem in_use {s : Sys} {lost : List Nat}
    (h : Reachable (record lostBy step) (Sys.init, []) (s, lost)) (hcrash : s.crash = none) :
    Holds s.ring.heap ((pending s.ring).flatMap (footprint s.ring.heap) ++ lost) := by
  rcases follows_of_reachable h with hnull | ⟨ring, -, hcarries⟩
  · rw [hcrash] at hnull
    cases hnull
  · exact hcarries.2.holds

end Runs

def readTwice : List Event :=
  [.loop (.readFile 3 3), .receive 0 ⟨some 100, [200]⟩, .loop .poll, .loop (.receivePoll 0),
    .loop (.submit 1), .loop (.complete 0 3 [1, 2, 3]), .loop .pop, .loop (.readFile 4 8),
    .receive 0 ⟨some 200, [100]⟩]

theorem no_wild_access_read_twice : ∃ s, Reachable step Sys.init s ∧
    (s.ring.log.length = 3 ∧ s.received.length = 2) ∧ s.crash ≠ some .wild := by
  have hview : (run step Sys.init readTwice).map
      (fun s => (s.ring.log.length, s.received.length)) = some (3, 2) := by decide +kernel
  rcases Reachable.of_view hview with ⟨s, hreach, hseen⟩
  rw [Prod.mk.injEq] at hseen
  exact ⟨s, hreach, hseen, no_wild_access hreach⟩

theorem refines_loop_read_twice : ∃ s, Reachable step Sys.init s ∧ s.crash = none ∧
    ∃ ring, Shows s.ring ring ∧ Reachable Loop.step Loop.Sys.init (loopOver s ring) := by
  have hview : (run step Sys.init readTwice).map (fun s => s.crash) = some none := by
    decide +kernel
  rcases Reachable.of_view hview with ⟨s, hreach, hcrash⟩
  exact ⟨s, hreach, hcrash, refines_loop hreach hcrash⟩

theorem in_use_read_twice : ∃ s, Reachable (record lostBy step) (Sys.init, []) (s, [200, 100]) ∧
    s.crash = none ∧
    Holds s.ring.heap ((pending s.ring).flatMap (footprint s.ring.heap) ++ [200, 100]) := by
  have hview : (run (record lostBy step) (Sys.init, []) readTwice).map
      (fun s => (s.1.crash, s.2)) = some (none, [200, 100]) := by decide +kernel
  rcases Reachable.of_view hview with ⟨⟨s, lost⟩, hreach, hseen⟩
  rw [Prod.mk.injEq] at hseen
  rcases hseen with ⟨hcrash, rfl⟩
  exact ⟨s, hreach, hcrash, in_use hreach hcrash⟩

section Stuck

variable {p q : Sys} {cqe : Cqe}

/-- What is in use stays in use, and the first completion stays where it is. -/
structure Pins (cqe : Cqe) (p q : State) : Prop where
  head : q.cq.head? = some cqe
  used : ∀ addr, (p.heap addr).isSome → (q.heap addr).isSome

theorem Pins.of_eq {p q : State} (hhead : p.cq.head? = some cqe) (hcq : q.cq = p.cq)
    (hheap : q.heap = p.heap) : Pins cqe p q := by
  refine ⟨by rw [hcq, hhead], fun addr haddr => ?_⟩
  rw [hheap]
  exact haddr

theorem popRequest_of_neg {p : State} {rest : List Cqe} (hcq : p.cq = cqe :: rest)
    (hneg : cqe.res < 0) :
    ∃ q, popRequest p = .ok (cqe.res, q) ∧ q.cq = p.cq ∧ q.heap = p.heap := by
  simp only [popRequest, hcq, if_pos hneg]
  exact ⟨_, rfl, rfl, rfl⟩

theorem pop_pins (hhead : p.ring.cq.head? = some cqe) (hneg : cqe.res < 0) (n : Nat) :
    Pins cqe p.ring (p.pop rig n).ring := by
  rcases List.head?_eq_some_iff.mp hhead with ⟨rest, hcq⟩
  rcases popRequest_of_neg hcq hneg with ⟨q, hpop, hq, hheap⟩
  have hrequest : rig.popRequest p.ring = .ok (cqe.res, q) := hpop
  simp only [Frame.pop, hrequest, Except.map, Loop.resumed_ring, Ring.afterPop,
    if_pos (Int.ne_of_lt hneg)]
  exact Pins.of_eq hhead hq hheap

theorem Pins.place {p q : State} {objects : List (Nat × Object)} (hhead : p.cq.head? = some cqe)
    (hcq : q.cq = p.cq) (hheap : q.heap = place p.heap objects) : Pins cqe p q := by
  refine ⟨by rw [hcq, hhead], fun addr haddr => ?_⟩
  rw [hheap, place_isSome]
  exact Or.inr haddr

theorem prepare_pins {p q : State} {heap : Nat → Option Object} {addr : Nat} {ret : Int}
    (h : (State.lift { p with heap := heap } (Ring.prepare addr)).map (fun s => ((0 : Int), s)) =
      .ok (ret, q)) : q.cq = p.cq ∧ q.heap = heap := by
  unfold State.lift Ring.prepare at h
  split at h
  · cases h
    exact ⟨rfl, rfl⟩
  · cases h

theorem push_pins {p q : State} {grant : Grant} {r : Request} {ret : Int}
    (hhead : p.cq.head? = some cqe) (h : push grant r p = .ok (ret, q)) : Pins cqe p q := by
  unfold push at h
  cases hcode : r.code with
  | opCodeRead =>
    simp only [hcode, pushReadRequest] at h
    cases hinfo : grant.info with
    | none => simp [hinfo] at h
    | some addr =>
      simp only [hinfo] at h
      split at h
      · cases h
        exact Pins.place hhead rfl rfl
      · exact Pins.place hhead (prepare_pins h).1 (prepare_pins h).2
  | opCodeWrite =>
    simp only [hcode, pushWriteRequest] at h
    cases hinfo : grant.info with
    | none => simp [hinfo] at h
    | some addr =>
      simp only [hinfo] at h
      exact Pins.place hhead (prepare_pins h).1 (prepare_pins h).2

theorem receive_pins (hhead : p.ring.cq.head? = some cqe) (i : Nat) (r : Request) (grant : Grant) :
    Pins cqe p.ring (p.receive rig i r grant).ring := by
  unfold Frame.receive
  dsimp only
  cases hpush : rig.push grant r (p.registered rig i r).ring with
  | error fault => exact Pins.of_eq hhead rfl rfl
  | ok pair =>
    rcases pair with ⟨ret, mem⟩
    have hpins := push_pins (show (p.registered rig i r).ring.cq.head? = some cqe from hhead) hpush
    dsimp only
    split
    · exact ⟨hpins.head, hpins.used⟩
    · split <;> exact ⟨hpins.head, hpins.used⟩

theorem ended_pins {i : Nat} {res : Int} {data : List UInt8} {result : Except Ring.Fault State}
    (hhead : p.ring.cq.head? = some cqe) (h : rig.complete p.ring i res data = some result) :
    Pins cqe p.ring (p.ended result).ring := by
  rcases List.head?_eq_some_iff.mp hhead with ⟨rest, hcq⟩
  rcases Option.bind_eq_some_iff.mp h with ⟨addr, -, hcomplete⟩
  unfold Memory.complete at hcomplete
  split at hcomplete
  · rename_i fi seen hfi hseen
    simp only [Option.ite_none_right_eq_some, Option.some.injEq] at hcomplete
    rcases hcomplete with ⟨-, rfl⟩
    refine ⟨by simp [Frame.ended, posted, hcq], fun other hother => ?_⟩
    simp only [Frame.ended, posted, transfer]
    cases fi.opcode with
    | writev => exact hother
    | readv => exact (place_isSome other).mpr (Or.inr hother)
  · cases hcomplete
    exact Pins.of_eq hhead rfl rfl

theorem step_pins {event : Event} (hhead : p.ring.cq.head? = some cqe) (hneg : cqe.res < 0)
    (hstep : step p event = some q) : Pins cqe p.ring q.ring := by
  rcases Option.ite_none_left_eq_some.mp hstep with ⟨-, hmove⟩
  cases event with
  | receive i grant =>
    rcases Frame.take_eq_some.mp hmove with ⟨-, r, -, -, rfl⟩
    exact receive_pins hhead i r grant
  | loop event =>
    cases Frame.step_sound hmove with
    | opened | callReturn | poll | pollReturn | quit => exact Pins.of_eq hhead rfl rfl
    | @receivePoll i poll =>
      rw [receivePoll_ring]
      exact Pins.of_eq hhead rfl rfl
    | submit =>
      unfold Frame.submit
      split <;> exact Pins.of_eq hhead rfl rfl
    | ended hended => exact ended_pins hhead hended
    | pop => exact pop_pins hhead hneg _

/-- Once a failed completion is at the head of the queue, no memory is freed
any more, whatever else completes. -/
theorem nothing_freed {s t : Sys} {cqe : Cqe} (hhead : s.ring.cq.head? = some cqe)
    (hneg : cqe.res < 0) (h : Reachable step s t) {addr : Nat}
    (hused : (s.ring.heap addr).isSome) : (t.ring.heap addr).isSome := by
  have hpins : Pins cqe s.ring t.ring := by
    apply h.invariant (fun t => Pins cqe s.ring t.ring) ⟨hhead, fun _ => id⟩
    intro p event q _ hp hstep
    have hq := step_pins hp.head hneg hstep
    exact ⟨hq.head, fun addr haddr => hq.used addr (hp.used addr haddr)⟩
  exact hpins.used addr hused

end Stuck

def readFails : List Event :=
  [.loop (.readFile 3 3), .receive 0 ⟨some 100, [200]⟩, .loop (.readFile 4 2),
    .receive 0 ⟨some 101, [201]⟩, .loop .poll, .loop (.receivePoll 0), .loop (.submit 2),
    .loop (.complete 0 (-5) []), .loop (.complete 0 2 [7, 8])]

theorem nothing_freed_read_fails : ∃ s t, Reachable step s t ∧
    s.ring.cq.head? = some ⟨-5, 100⟩ ∧ t.pc = .select ∧ (t.ring.heap 201).isSome := by
  have hstart : (run step Sys.init readFails).map (fun s => (s.ring.cq.head?,
      (s.ring.heap 201).isSome, (run step s [.loop .pop, .loop .pop]).map fun t => t.pc)) =
      some (some ⟨-5, 100⟩, true, some .select) := by decide +kernel
  rcases Option.map_eq_some_iff.mp hstart with ⟨s, -, hseen⟩
  simp only [Prod.mk.injEq] at hseen
  rcases hseen with ⟨hhead, hused, hafter⟩
  rcases Reachable.of_view hafter with ⟨t, hreach, hpc⟩
  exact ⟨s, t, hreach, hhead, hpc, nothing_freed hhead (by decide) hreach hused⟩

end IoWrapper.FileRing.Refinement
