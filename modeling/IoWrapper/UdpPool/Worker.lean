import IoWrapper.Core.Machine
import IoWrapper.Core.Rings

/-! `iouring-worker-pool`: a thread that fills the submission queues of its
rings with reads of one byte from a UDP socket, once, and then waits for each
ring and drains it, round after round. An entry is the same for all requests,
so a queue is known by its lengths; what a ring has been drained of is kept as
a history. -/
namespace IoWrapper.UdpPool.Worker
open Core.Machine Core.Rings

/-- `MAX_SQES`, a power of two, so that a ring has as many entries. -/
def maxSqes : Nat := 4096

/-- `libc::EINTR`. -/
def eintr : Int := 4

abbrev Sq := SubmissionQueue Unit maxSqes

structure Ring where
  sq : Sq
  inflight : Nat
  cq : CompletionQueue Int
  drained : List Int

def createRing : Ring := ⟨SubmissionQueue.empty Unit maxSqes, 0, CompletionQueue.empty Int, []⟩

/-- The loop of `fill_sq`, with the number of turns that `i < num_sqes` leaves
it; a push onto a full queue would be an error. -/
def fillLoop : Nat → Sq → Option Sq
  | 0, sq => some sq
  | left + 1, sq => if sq.isFull then some sq else (sq.push ()).bind (fillLoop left)

def fillSq (sq : Sq) (numSqes : Nat) : Option Sq :=
  (fillLoop numSqes sq.sync).map SubmissionQueue.sync

def accepted (result : Int) : Bool := result == 1 || result == -eintr

/-- The loop of `drain_cq` over the completions that the first `sync` shows;
one that is not accepted makes the thread panic. -/
def drainLoop : List Int → CompletionQueue Int → Option (CompletionQueue Int)
  | [], cq => some cq
  | result :: rest, cq => if accepted result then drainLoop rest (cq.next result rest) else none

def drainCq (cq : CompletionQueue Int) : Option (CompletionQueue Int) :=
  (drainLoop cq.sync.visible cq.sync).map CompletionQueue.sync

inductive Pc where
  | filling (k : Nat)
  | submitting (k : Nat)
  | waiting (k : Nat)
  | draining (k : Nat)
  | returned
  | panicked
deriving DecidableEq

/-- The number of requests for each ring, the rings, and the full rounds of the
loop so far. -/
structure State where
  numSqes : Nat
  rings : List Ring
  pc : Pc
  rounds : Nat

/-- The options `-s` and `-r`. -/
def State.init (sqes numRings : Nat) : State :=
  ⟨if sqes > 0 then sqes else maxSqes, List.replicate numRings createRing, .filling 0, 0⟩

inductive Event where
  | fill
  | submit (count : Nat)
  | waited (count : Nat)
  | interrupted
  | drain
  | proceed
  | fail
  | complete (k : Nat) (result : Int)

def State.put (s : State) (k : Nat) (ring : Ring) (pc : Pc) : State :=
  { s with rings := s.rings.set k ring, pc := pc }

def Ring.taken (ring : Ring) (count : Nat) : Ring :=
  { ring with sq := ring.sq.submitSome count, inflight := ring.inflight + count }

def Ring.completed (ring : Ring) (result : Int) : Ring :=
  { ring with inflight := ring.inflight - 1, cq := ring.cq.post result }

def State.fill (s : State) (k : Nat) (ring : Ring) : State :=
  match fillSq ring.sq s.numSqes with
  | some sq => s.put k { ring with sq := sq } (.submitting k)
  | none => { s with pc := .returned }

def State.drain (s : State) (k : Nat) (ring : Ring) : State :=
  match drainCq ring.cq with
  | some cq =>
    s.put k { ring with cq := cq, drained := ring.drained ++ ring.cq.sync.visible }
      (.draining (k + 1))
  | none => { s with pc := .panicked }

/-- The heads of the loops over the rings, at their end. -/
def State.proceed (s : State) : Option State :=
  match s.pc with
  | .filling k => if k = s.rings.length then some { s with pc := .waiting 0 } else none
  | .waiting k => if k = s.rings.length then some { s with pc := .draining 0 } else none
  | .draining k =>
    if k = s.rings.length then some { s with pc := .waiting 0, rounds := s.rounds + 1 } else none
  | _ => none

/-- `submit_and_wait(1)` returns when there is a completion, or when it has
submitted something before a signal came; an interrupted one is made again. -/
def step (s : State) : Event → Option State
  | .fill =>
    match s.pc with
    | .filling k => (s.rings[k]?).map (s.fill k)
    | _ => none
  | .submit count =>
    match s.pc with
    | .submitting k => (s.rings[k]?).bind fun ring =>
      if count ≤ ring.sq.published.length then
        some (s.put k (ring.taken count) (.filling (k + 1)))
      else none
    | _ => none
  | .waited count =>
    match s.pc with
    | .waiting k => (s.rings[k]?).bind fun ring =>
      if count ≤ ring.sq.published.length ∧ (0 < count ∨ ring.cq.outstanding ≠ []) then
        some (s.put k (ring.taken count) (.waiting (k + 1)))
      else none
    | _ => none
  | .interrupted =>
    match s.pc with
    | .waiting k => (s.rings[k]?).map fun _ => s
    | _ => none
  | .drain =>
    match s.pc with
    | .draining k => (s.rings[k]?).map (s.drain k)
    | _ => none
  | .proceed => s.proceed
  | .fail =>
    match s.pc with
    -- At the end of this loop it is the affinity that is not restored.
    | .filling k => if k ≤ s.rings.length then some { s with pc := .returned } else none
    | .submitting k | .waiting k =>
      if k < s.rings.length then some { s with pc := .returned } else none
    | _ => none
  | .complete k result => (s.rings[k]?).bind fun ring =>
    if 0 < ring.inflight then some (s.put k (ring.completed result) s.pc) else none

inductive Step (s : State) : State → Prop where
  | filled {k : Nat} {ring : Ring} (hpc : s.pc = .filling k) (hk : s.rings[k]? = some ring) :
      Step s (s.fill k ring)
  | submitted {k count : Nat} {ring : Ring} (hpc : s.pc = .submitting k)
      (hk : s.rings[k]? = some ring) (hcount : count ≤ ring.sq.published.length) :
      Step s (s.put k (ring.taken count) (.filling (k + 1)))
  | waited {k count : Nat} {ring : Ring} (hpc : s.pc = .waiting k) (hk : s.rings[k]? = some ring)
      (hcount : count ≤ ring.sq.published.length)
      (hwoken : 0 < count ∨ ring.cq.outstanding ≠ []) :
      Step s (s.put k (ring.taken count) (.waiting (k + 1)))
  | interrupted : Step s s
  | drained {k : Nat} {ring : Ring} (hpc : s.pc = .draining k) (hk : s.rings[k]? = some ring) :
      Step s (s.drain k ring)
  | allFilled (hpc : s.pc = .filling s.rings.length) : Step s { s with pc := .waiting 0 }
  | allWaited (hpc : s.pc = .waiting s.rings.length) : Step s { s with pc := .draining 0 }
  | allDrained (hpc : s.pc = .draining s.rings.length) :
      Step s { s with pc := .waiting 0, rounds := s.rounds + 1 }
  | failed : Step s { s with pc := .returned }
  | completed {k : Nat} {ring : Ring} {result : Int} (hk : s.rings[k]? = some ring)
      (hbusy : 0 < ring.inflight) : Step s (s.put k (ring.completed result) s.pc)

theorem proceed_sound {s t : State} (h : s.proceed = some t) : Step s t := by
  unfold State.proceed at h
  cases hpc : s.pc with
  | filling k =>
    simp only [hpc, Option.ite_none_right_eq_some, Option.some.injEq] at h
    rw [← h.2]
    exact .allFilled (by rw [hpc, h.1])
  | waiting k =>
    simp only [hpc, Option.ite_none_right_eq_some, Option.some.injEq] at h
    rw [← h.2]
    exact .allWaited (by rw [hpc, h.1])
  | draining k =>
    simp only [hpc, Option.ite_none_right_eq_some, Option.some.injEq] at h
    rw [← h.2]
    exact .allDrained (by rw [hpc, h.1])
  | _ => simp [hpc] at h

theorem step_sound {s t : State} {event : Event} (h : step s event = some t) : Step s t := by
  cases event with
  | fill =>
    cases hpc : s.pc with
    | filling k =>
      simp only [step, hpc, Option.map_eq_some_iff] at h
      rcases h with ⟨ring, hk, rfl⟩
      exact .filled hpc hk
    | _ => simp [step, hpc] at h
  | submit count =>
    cases hpc : s.pc with
    | submitting k =>
      simp only [step, hpc, Option.bind_eq_some_iff, Option.ite_none_right_eq_some,
        Option.some.injEq] at h
      rcases h with ⟨ring, hk, hcount, rfl⟩
      exact .submitted hpc hk hcount
    | _ => simp [step, hpc] at h
  | waited count =>
    cases hpc : s.pc with
    | waiting k =>
      simp only [step, hpc, Option.bind_eq_some_iff, Option.ite_none_right_eq_some,
        Option.some.injEq] at h
      rcases h with ⟨ring, hk, ⟨hcount, hwoken⟩, rfl⟩
      exact .waited hpc hk hcount hwoken
    | _ => simp [step, hpc] at h
  | interrupted =>
    cases hpc : s.pc with
    | waiting k =>
      simp only [step, hpc, Option.map_eq_some_iff] at h
      rcases h with ⟨ring, hk, rfl⟩
      exact .interrupted
    | _ => simp [step, hpc] at h
  | drain =>
    cases hpc : s.pc with
    | draining k =>
      simp only [step, hpc, Option.map_eq_some_iff] at h
      rcases h with ⟨ring, hk, rfl⟩
      exact .drained hpc hk
    | _ => simp [step, hpc] at h
  | proceed => exact proceed_sound h
  | fail =>
    cases hpc : s.pc with
    | filling k | submitting k | waiting k =>
      simp only [step, hpc, Option.ite_none_right_eq_some, Option.some.injEq] at h
      rw [← h.2]
      exact .failed
    | _ => simp [step, hpc] at h
  | complete k result =>
    simp only [step, Option.bind_eq_some_iff, Option.ite_none_right_eq_some,
      Option.some.injEq] at h
    rcases h with ⟨ring, hk, hbusy, rfl⟩
    exact .completed hk hbusy

end IoWrapper.UdpPool.Worker
