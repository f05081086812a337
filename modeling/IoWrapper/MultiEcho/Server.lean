import Mathlib.Algebra.Group.Int.Defs
import Mathlib.Logic.Function.Basic
import IoWrapper.Core.Tables
import IoWrapper.Core.Traffic
import IoWrapper.GoEcho.Operations

/-! `golang-multi-iouring-server`: event loops in goroutines of their own, each with a ring
and a map from `user_data` to `EventInfo`. They share the variable `buffs`, the descriptors
of the process, and the memory that the kernel receives into. -/
namespace IoWrapper.MultiEcho.Server
open Core.Machine Core.Tables Core.Traffic GoEcho.Operations

/-- Where a goroutine is: not started, at the head of its loop, after the submission, or
returned, because the submission failed or because a completion was not in the map. -/
inductive Pc where
  | created
  | head
  | waiting
  | returned
  | empty
deriving DecidableEq

/-- `IOurigGoEchoServer` on one ring, with a note of the operations that it has queued and
the completions that it has processed. -/
structure Loop where
  ring : IoRing Sqe
  mapEvent : Table EventInfo
  pc : Pc
  queued : List Op
  handled : List Cqe

def Loop.created : Loop := ⟨.empty Sqe, ∅, .created, [], []⟩

def Loop.produced (l : Loop) (prepared : Prepared) (userData : Nat) : Loop :=
  { l with
    ring := l.ring.push ⟨prepared.op, userData⟩
    mapEvent := l.mapEvent.insert userData prepared.info
    queued := l.queued ++ [prepared.op] }

/-- The address of the new `EventInfo` is that of no other in the map. `GetSqe` returns nil
if all entries of the ring are queued, and then the entry cannot be filled in. -/
def Loop.produce (buffs : Nat) (l : Loop) (request : Request) (userData : Nat) :
    Except Stop Loop :=
  match request.prepare buffs with
  | .error panic => .error (.panic panic)
  | .ok prepared =>
    if l.ring.sq.length < entries then
      if userData ∈ l.mapEvent then .error .impossible else .ok (l.produced prepared userData)
    else .error (.panic .nilSqe)

def Loop.produceAll (buffs : Nat) (l : Loop) (requests : List Request) (addresses : List Nat) :
    Except Stop Loop :=
  produceEach (fun l => l.produce buffs) l requests addresses

def react (lfd : Nat) (eventInfo : EventInfo) (res : Int) : Except Panic (List Request) :=
  match eventInfo.etype with
  | .accept => if res < 0 then .ok [] else .ok [.accept lfd, .recv res.toNat]
  | .read =>
    if res ≤ 0 then
      if res ≠ -ebadf then .ok [.close eventInfo.cfd] else .ok []
    else .ok [.send eventInfo.cfd res.toNat]
  | .write => .ok [.recv eventInfo.cfd]
  | .close => .ok []
  | .unknow | .providBuff => .error .unsupportedType

def Loop.delete (l : Loop) (userData : Nat) : Loop :=
  { l with mapEvent := l.mapEvent.erase userData }

/-- The rest of the loop after `WaitCqe` has returned a completion. -/
def Loop.process (lfd buffs : Nat) (l : Loop) (cqe : Cqe) (addresses : List Nat) :
    Except Stop Loop :=
  match l.mapEvent.lookup cqe.entry.userData with
  | none => .ok { l with pc := .empty }
  | some eventInfo =>
    match react lfd eventInfo cqe.res with
    | .error panic => .error (.panic panic)
    | .ok requests => do
      let next ← (l.delete cqe.entry.userData).produceAll buffs requests addresses
      .ok { next with ring := next.ring.seen, pc := .head, handled := next.handled ++ [cqe] }

/-- `buffs` is the table of the last call of `InitBuffs`. An open descriptor goes with the
loop that accepted it; of a connection it is noted what the last receive has stored, and
where. A panic ends the process. -/
structure Shared where
  lfd : Nat
  buffs : Nat
  memory : Buf → List UInt8
  stored : Nat → Option (Buf × List UInt8)
  fds : Nat → Option Nat
  panic : Option Panic

inductive Action where
  | start (userData : Nat)
  | submit (count : Nat)
  | submitError (count : Nat)
  | waitError
  | handle (addresses : List Nat)
  | complete (i : Nat) (res : Int) (data : List UInt8)
deriving DecidableEq

/-- What the kernel has done when it posts a completion. -/
def Shared.completed (sh : Shared) (id : Nat) (op : Op) (res : Int) (data : List UInt8) : Shared :=
  match op with
  | .accept _ =>
    if 0 ≤ res then { sh with fds := Function.update sh.fds res.toNat (some id) } else sh
  | .recv fd buf _ =>
    if 0 < res then { sh with
      memory := Function.update sh.memory buf (data ++ (sh.memory buf).drop data.length)
      stored := Function.update sh.stored fd (some (buf, data)) }
    else sh
  | .send .. => sh
  | .close fd => { sh with fds := Function.update sh.fds fd none }

theorem completed_same (sh : Shared) (id : Nat) (op : Op) (res : Int) (data : List UInt8) :
    (sh.completed id op res data).lfd = sh.lfd ∧ (sh.completed id op res data).buffs = sh.buffs ∧
      (sh.completed id op res data).panic = sh.panic := by
  cases op with
  | accept | recv =>
    simp only [Shared.completed]
    split <;> exact ⟨rfl, rfl, rfl⟩
  | send | close => exact ⟨rfl, rfl, rfl⟩

@[simp] theorem completed_lfd (sh : Shared) (id : Nat) (op : Op) (res : Int) (data : List UInt8) :
    (sh.completed id op res data).lfd = sh.lfd :=
  (completed_same sh id op res data).1

@[simp] theorem completed_buffs (sh : Shared) (id : Nat) (op : Op) (res : Int)
    (data : List UInt8) : (sh.completed id op res data).buffs = sh.buffs :=
  (completed_same sh id op res data).2.1

@[simp] theorem completed_panic (sh : Shared) (id : Nat) (op : Op) (res : Int)
    (data : List UInt8) : (sh.completed id op res data).panic = sh.panic :=
  (completed_same sh id op res data).2.2

def received (op : Op) (res : Int) : Nat :=
  match op with
  | .recv .. => res.toNat
  | .accept _ | .send .. | .close _ => 0

/-- A panic ends the process, with every loop in it: what the call had done to its own loop
until then is left out, as nothing reads it any more. -/
def settle (sh : Shared) (l : Loop) : Except Stop Loop → Option (Shared × Loop)
  | .ok next => some (sh, next)
  | .error (.panic panic) => some ({ sh with panic := some panic }, l)
  | .error .impossible => none

def act (id : Nat) (sh : Shared) (l : Loop) : Action → Option (Shared × Loop)
  | .start userData =>
    if l.pc = .created then
      settle { sh with buffs := sh.buffs + 1 } l
        ((l.produce (sh.buffs + 1) (.accept sh.lfd) userData).map fun next =>
          { next with pc := .head })
    else none
  | .submit count =>
    if l.pc = .head then some (sh, { l with ring := l.ring.submit count, pc := .waiting })
    else none
  | .submitError count =>
    if l.pc = .head then some (sh, { l with ring := l.ring.submit count, pc := .returned })
    else none
  | .waitError => if l.pc = .waiting then some (sh, { l with pc := .head }) else none
  | .handle addresses =>
    match l.pc, l.ring.cq with
    | .waiting, cqe :: _ => settle sh l (l.process sh.lfd sh.buffs cqe addresses)
    | _, _ => none
  | .complete i res data =>
    match l.ring.inflight[i]? with
    | some sqe =>
      if -2 ^ 31 ≤ res ∧ res < 2 ^ 31 ∧ data.length = received sqe.op res then
        some (sh.completed id sqe.op res data, { l with ring := l.ring.complete i ⟨sqe, res⟩ })
      else none
    | none => none

structure State (n : Nat) where
  shared : Shared
  loops : Fin n → Loop

structure Event (n : Nat) where
  id : Fin n
  action : Action
deriving DecidableEq

/-- The goroutines have been created and none has run. -/
def State.init (n lfd : Nat) : State n :=
  { shared :=
      { lfd := lfd
        buffs := 0
        memory := fun _ => List.replicate maxMsgLen 0
        stored := fun _ => none
        fds := fun _ => none
        panic := none }
    loops := fun _ => Loop.created }

def step {n : Nat} (s : State n) (event : Event n) : Option (State n) :=
  if s.shared.panic = none then
    (act event.id s.shared (s.loops event.id) event.action).map fun next =>
      ⟨next.1, Function.update s.loops event.id next.2⟩
  else none

section Calls

variable {buffs userData : Nat} {l next : Loop} {request : Request}

theorem produce_eq_ok (h : l.produce buffs request userData = .ok next) :
    ∃ prepared, request.prepare buffs = .ok prepared ∧ userData ∉ l.mapEvent ∧
      next = l.produced prepared userData := by
  unfold Loop.produce at h
  split at h
  · cases h
  · rename_i prepared hprepared
    split at h
    · split at h
      · cases h
      · rename_i hnew
        cases h
        exact ⟨prepared, hprepared, hnew, rfl⟩
    · cases h

structure Queued (buffs : Nat) (requests : List Request) (l : Loop) (sqes : List Sqe)
    (next : Loop) : Prop where
  requests : sqes.map (fun sqe => sqe.op.request) = requests
  bufs : ∀ sqe ∈ sqes, ∀ buf ∈ sqe.op.buf, buf = ⟨buffs, sqe.op.info.cfd⟩
  ring : next.ring = l.ring.pushAll sqes
  queued : next.queued = l.queued ++ sqes.map Sqe.op
  handled : next.handled = l.handled

theorem produceAll_queued {requests : List Request} {addresses : List Nat}
    (h : l.produceAll buffs requests addresses = .ok next) :
    ∃ sqes, Queued buffs requests l sqes next := by
  induction requests generalizing l addresses with
  | nil =>
    cases h
    exact ⟨[], rfl, fun _ => List.not_mem_nil.elim, (IoRing.pushAll_nil _).symm, by simp, rfl⟩
  | cons request requests ih =>
    cases addresses with
    | nil => cases h
    | cons userData addresses =>
      rcases bind_eq_ok.mp h with ⟨middle, hmiddle, hrest⟩
      rcases produce_eq_ok hmiddle with ⟨prepared, hprepared, -, rfl⟩
      rcases ih hrest with ⟨sqes, hqueued⟩
      rcases prepare_eq_ok hprepared with ⟨hrequest, hinfo, hbuf⟩
      refine ⟨⟨prepared.op, userData⟩ :: sqes, ?_, ?_, ?_, ?_, hqueued.handled⟩
      · rw [List.map_cons, hqueued.requests, hrequest]
      · rw [List.forall_mem_cons, ← hinfo]
        exact ⟨hbuf, hqueued.bufs⟩
      · rw [IoRing.pushAll_cons]
        exact hqueued.ring
      · rw [hqueued.queued]
        simp [Loop.produced]

end Calls

inductive Acts (id : Nat) (sh : Shared) (l : Loop) : Action → Shared → Loop → Prop where
  | started {userData : Nat} {next : Loop} (hpc : l.pc = .created)
      (hproduce : l.produce (sh.buffs + 1) (.accept sh.lfd) userData = .ok next) :
      Acts id sh l (.start userData) { sh with buffs := sh.buffs + 1 } { next with pc := .head }
  | startPanicked {userData : Nat} {panic : Panic} (hpc : l.pc = .created)
      (hproduce : l.produce (sh.buffs + 1) (.accept sh.lfd) userData = .error (.panic panic)) :
      Acts id sh l (.start userData) { sh with buffs := sh.buffs + 1, panic := some panic } l
  | submitted {count : Nat} (hpc : l.pc = .head) :
      Acts id sh l (.submit count) sh { l with ring := l.ring.submit count, pc := .waiting }
  | submitFailed {count : Nat} (hpc : l.pc = .head) :
      Acts id sh l (.submitError count) sh { l with ring := l.ring.submit count, pc := .returned }
  | waitFailed (hpc : l.pc = .waiting) : Acts id sh l .waitError sh { l with pc := .head }
  | unknown {addresses : List Nat} {cqe : Cqe} {rest : List Cqe} (hpc : l.pc = .waiting)
      (hcq : l.ring.cq = cqe :: rest) (hlookup : l.mapEvent.lookup cqe.entry.userData = none) :
      Acts id sh l (.handle addresses) sh { l with pc := .empty }
  | unsupported {addresses : List Nat} {cqe : Cqe} {rest : List Cqe} {eventInfo : EventInfo}
      {panic : Panic} (hpc : l.pc = .waiting) (hcq : l.ring.cq = cqe :: rest)
      (hlookup : l.mapEvent.lookup cqe.entry.userData = some eventInfo)
      (hreact : react sh.lfd eventInfo cqe.res = .error panic) :
      Acts id sh l (.handle addresses) { sh with panic := some panic } l
  | panicked {addresses : List Nat} {cqe : Cqe} {rest : List Cqe} {eventInfo : EventInfo}
      {requests : List Request} {panic : Panic} (hpc : l.pc = .waiting)
      (hcq : l.ring.cq = cqe :: rest)
      (hlookup : l.mapEvent.lookup cqe.entry.userData = some eventInfo)
      (hreact : react sh.lfd eventInfo cqe.res = .ok requests)
      (hproduce : (l.delete cqe.entry.userData).produceAll sh.buffs requests addresses =
        .error (.panic panic)) :
      Acts id sh l (.handle addresses) { sh with panic := some panic } l
  | handled {addresses : List Nat} {cqe : Cqe} {rest : List Cqe} {eventInfo : EventInfo}
      {requests : List Request} {next : Loop} (hpc : l.pc = .waiting)
      (hcq : l.ring.cq = cqe :: rest)
      (hlookup : l.mapEvent.lookup cqe.entry.userData = some eventInfo)
      (hreact : react sh.lfd eventInfo cqe.res = .ok requests)
      (hproduce : (l.delete cqe.entry.userData).produceAll sh.buffs requests addresses = .ok next) :
      Acts id sh l (.handle addresses) sh
        { next with ring := next.ring.seen, pc := .head, handled := next.handled ++ [cqe] }
  | completed {i : Nat} {sqe : Sqe} {res : Int} {data : List UInt8}
      (hsqe : l.ring.inflight[i]? = some sqe) (hdata : data.length = received sqe.op res)
      (hres : -2 ^ 31 ≤ res ∧ res < 2 ^ 31) :
      Acts id sh l (.complete i res data) (sh.completed id sqe.op res data)
        { l with ring := l.ring.complete i ⟨sqe, res⟩ }

theorem act_sound {id : Nat} {sh sh' : Shared} {l l' : Loop} {action : Action}
    (h : act id sh l action = some (sh', l')) : Acts id sh l action sh' l' := by
  cases action with
  | start userData =>
    simp only [act, Option.ite_none_right_eq_some] at h
    rcases h with ⟨hpc, hsettle⟩
    cases hproduce : l.produce (sh.buffs + 1) (.accept sh.lfd) userData with
    | ok next =>
      rw [hproduce] at hsettle
      cases hsettle
      exact .started hpc hproduce
    | error stop =>
      rw [hproduce] at hsettle
      cases stop with
      | panic panic =>
        cases hsettle
        exact .startPanicked hpc hproduce
      | impossible => cases hsettle
  | submit count =>
    simp only [act, Option.ite_none_right_eq_some, Option.some.injEq] at h
    cases h.2
    exact .submitted h.1
  | submitError count =>
    simp only [act, Option.ite_none_right_eq_some, Option.some.injEq] at h
    cases h.2
    exact .submitFailed h.1
  | waitError =>
    simp only [act, Option.ite_none_right_eq_some, Option.some.injEq] at h
    cases h.2
    exact .waitFailed h.1
  | handle addresses =>
    simp only [act] at h
    split at h
    · rename_i cqe rest hpc hcq
      unfold Loop.process at h
      split at h
      · rename_i hlookup
        cases h
        exact .unknown hpc hcq hlookup
      · rename_i eventInfo hlookup
        split at h
        · rename_i panic hreact
          cases h
          exact .unsupported hpc hcq hlookup hreact
        · rename_i requests hreact
          cases hproduce : (l.delete cqe.entry.userData).produceAll sh.buffs requests addresses with
          | ok next =>
            simp only [hproduce] at h
            cases h
            exact .handled hpc hcq hlookup hreact hproduce
          | error stop =>
            simp only [hproduce] at h
            cases stop with
            | panic panic =>
              cases h
              exact .panicked hpc hcq hlookup hreact hproduce
            | impossible => cases h
    · cases h
  | complete i res data =>
    simp only [act] at h
    split at h
    · rename_i sqe hsqe
      simp only [Option.ite_none_right_eq_some, Option.some.injEq] at h
      cases h.2
      exact .completed hsqe h.1.2.2 ⟨h.1.1, h.1.2.1⟩
    · cases h

section System

variable {n : Nat} {s t : State n}

theorem step_sound {event : Event n} (h : step s event = some t) :
    s.shared.panic = none ∧ ∃ sh l, Acts event.id s.shared (s.loops event.id) event.action sh l ∧
      t = ⟨sh, Function.update s.loops event.id l⟩ := by
  unfold step at h
  rw [Option.ite_none_right_eq_some, Option.map_eq_some_iff] at h
  rcases h with ⟨hpanic, ⟨sh, l⟩, hact, rfl⟩
  exact ⟨hpanic, sh, l, act_sound hact, rfl⟩

/-- What one loop keeps whatever the others do holds of every loop. -/
theorem loop_invariant {lfd : Nat} (inv : Loop → Prop) (h : Reachable step (State.init n lfd) s)
    (hcreated : inv Loop.created)
    (hact : ∀ id sh l action sh' l', inv l → Acts id sh l action sh' l' → inv l') (id : Fin n) :
    inv (s.loops id) := by
  revert id
  apply h.invariant (fun s => ∀ id, inv (s.loops id)) fun _ => hcreated
  intro s event t _ hs hstep id
  rcases step_sound hstep with ⟨-, sh, l, hacts, rfl⟩
  dsimp only
  by_cases heq : id = event.id
  · rw [heq, Function.update_self]
    exact hact _ _ _ _ _ _ (hs event.id) hacts
  · rw [Function.update_of_ne heq]
    exact hs id

end System

def oneConnect {n : Nat} (id : Fin n) : List (Event n) :=
  [⟨id, .start 1⟩, ⟨id, .submit 1⟩, ⟨id, .complete 0 5 []⟩, ⟨id, .handle [2, 3]⟩, ⟨id, .submit 2⟩]

end IoWrapper.MultiEcho.Server
