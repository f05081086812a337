import IoWrapper.EchoV1.Records

/-! The indices into `conns`, `bufs` and `registered_files`. They are descriptors, and the
only one that the server has not used before is the one that an accept returns, which it
does not check. -/
namespace IoWrapper.EchoV1.Bounds
open Core.Machine Core.Traffic Server Records

/-- The result of an accept is a place in every array that is indexed with it. -/
def Indexable (u : Setup) (res : Int) : Prop :=
  0 ≤ res ∧ res < u.maxConnections ∧ (u.registerfiles = true → res < u.nrFiles)

def processed (s : State) : Event → List Cqe
  | .handle _ => s.batch.take 1
  | _ => []

def AllIndexable (u : Setup) (log : List Cqe) : Prop :=
  u.sockListenFd < u.maxConnections ∧
    ∀ cqe ∈ log, cqe.entry.op.type = .accept → Indexable u cqe.res

section Calls

variable {u : Setup} {s t : State} {fd : Int} {stop : Stop} {arr : Arr} {i : Int}

theorem index_eq_error {arr : Arr} {length : Nat} (h : index arr length fd = .error stop) :
    ¬ (0 ≤ fd ∧ fd < length) := by
  unfold index at h
  split at h
  · cases h
  · assumption

theorem addSqe_ne_outOfBounds {connI : Nat} {op : Op} :
    addSqe u s connI op ≠ .error (.outOfBounds arr i) := by
  unfold addSqe
  split <;> simp

theorem addAccept_outOfBounds (h : addAccept u s fd = .error (.outOfBounds arr i)) :
    ¬ (0 ≤ fd ∧ fd < u.maxConnections) := by
  rcases bind_eq_error.mp h with hconn | ⟨connI, -, hadd⟩
  · exact index_eq_error hconn
  · exact absurd hadd addSqe_ne_outOfBounds

theorem addSocketOp_outOfBounds {op : Nat → Nat → Op}
    (h : addSocketOp u s fd op = .error (.outOfBounds arr i)) :
    ¬ (0 ≤ fd ∧ fd < u.maxConnections) := by
  rcases bind_eq_error.mp h with hconn | ⟨connI, -, hrest⟩
  · exact index_eq_error hconn
  · rcases bind_eq_error.mp hrest with hbuf | ⟨buf, -, hadd⟩
    · exact index_eq_error hbuf
    · exact absurd hadd addSqe_ne_outOfBounds

theorem registerFile_outOfBounds {ret : Int}
    (h : registerFile u s fd ret = .error (.outOfBounds arr i)) :
    u.registerfiles = true ∧ ¬ (0 ≤ fd ∧ fd < u.nrFiles) := by
  unfold registerFile at h
  split at h
  · rename_i hfixed
    rcases bind_eq_error.mp h with hindex | ⟨slot, -, hrest⟩
    · exact ⟨hfixed, index_eq_error hindex⟩
    · split at hrest
      · split at hrest <;> simp at hrest
      · cases hrest
  · cases h

theorem indexable_of_registered (h : Registered u s fd t) (hpos : 0 ≤ fd)
    (hlt : fd < u.maxConnections) : Indexable u fd := by
  refine ⟨hpos, hlt, fun hfixed => ?_⟩
  cases h with
  | unused hunused =>
    rw [hfixed] at hunused
    cases hunused
  | filled _ _ hfiles _ => exact hfiles
  | kept _ _ hfiles _ => exact hfiles

end Calls

section Steps

variable {u : Setup} {s t : State} {cqe : Cqe}

theorem handleCqe_outOfBounds {ret : Int} {arr : Arr} {i : Int}
    (hconns : s.conns cqe.entry.userData = ⟨cqe.entry.op.fd, cqe.entry.op.type⟩)
    (hfd : cqe.entry.op.fd < u.maxConnections)
    (hlisten : u.sockListenFd < u.maxConnections)
    (h : handleCqe u s cqe ret = .error (.outOfBounds arr i)) :
    cqe.entry.op.type = .accept ∧ ¬ Indexable u cqe.res := by
  simp only [handleCqe, hconns] at h
  split at h
  · rename_i htype
    refine ⟨htype, fun hres => ?_⟩
    rcases bind_eq_error.mp h with hregister | ⟨mid, -, hrest⟩
    · have := registerFile_outOfBounds hregister
      exact this.2 ⟨hres.1, hres.2.2 this.1⟩
    · rcases bind_eq_error.mp hrest with haccept | ⟨next, -, hread⟩
      · exact addAccept_outOfBounds haccept (by omega)
      · exact addSocketOp_outOfBounds hread ⟨hres.1, hres.2.1⟩
  · split at h
    · cases h
    · exact absurd (by omega) (addSocketOp_outOfBounds h)
  · exact absurd (by omega) (addSocketOp_outOfBounds h)
  · cases h
  · cases h

/-- While the server runs all places have been in bounds, and an index outside of an array
comes from one that was not. -/
structure Checked (u : Setup) (s : State) (log : List Cqe) : Prop where
  running : (∀ stop, s.pc ≠ .stopped stop) → AllIndexable u log
  outOfBounds : ∀ arr i, s.pc = .stopped (.outOfBounds arr i) → ¬ AllIndexable u log

theorem Checked.of_running {log : List Cqe} (h : AllIndexable u log)
    (hpc : ∀ stop, s.pc ≠ .stopped stop) : Checked u s log :=
  ⟨fun _ => h, fun _ _ hstop => absurd hstop (hpc _)⟩

theorem pc_of_answered (h : Answered u s cqe t) : t.pc = s.pc := by
  cases h with
  | accepted htype hpos hlt hregistered =>
    cases hregistered with
    | unused | filled | kept => rfl
  | hungUp | received | sent | ignored => rfl

theorem indexable_of_answered (h : Answered u s cqe t)
    (hconns : s.conns cqe.entry.userData = ⟨cqe.entry.op.fd, cqe.entry.op.type⟩)
    (haccept : cqe.entry.op.type = .accept) : Indexable u cqe.res := by
  cases h with
  | accepted htype hpos hlt hregistered => exact indexable_of_registered hregistered hpos hlt
  | hungUp htype | received htype | sent htype =>
    rw [hconns, haccept] at htype
    cases htype
  | ignored htype =>
    rw [hconns, haccept] at htype
    exact absurd rfl htype

theorem AllIndexable.concat {log : List Cqe} (h : AllIndexable u log)
    (hcqe : cqe.entry.op.type = .accept → Indexable u cqe.res) :
    AllIndexable u (log ++ [cqe]) := by
  refine ⟨h.1, fun other hother => ?_⟩
  rcases List.mem_append.mp hother with hother | hother
  · exact h.2 other hother
  · rw [List.mem_singleton.mp hother]
    exact hcqe

theorem Checked.step {log : List Cqe} {event : Event} (h : Checked u s log) (hwired : Wired u s)
    (hstep : step u s event = some t) : Checked u t (log ++ processed s event) := by
  have hrun : ∀ pc, (∀ stop, pc ≠ .stopped stop) → s.pc = pc → AllIndexable u log := by
    intro pc hpc heq
    exact h.running (by rw [heq]; exact hpc)
  cases step_sound hstep with
  | submitted hpc =>
    simp only [processed, List.append_nil]
    exact .of_running (hrun _ (by simp) hpc) (by simp)
  | failed hpc => exact ⟨fun hpc => absurd rfl (hpc _), fun arr i hpc => nomatch hpc⟩
  | peeked hpc =>
    simp only [processed, List.append_nil]
    exact .of_running (hrun _ (by simp) hpc) (by simp)
  | @answered cqe rest ret _ hpc hbatch hanswered =>
    have hconns := hwired.conns_userData (hwired.head hbatch).pending
    have hcqe : processed s (.handle ret) = [cqe] := by
      rw [processed, hbatch]
      rfl
    rw [hcqe]
    have hall := (hrun _ (by simp) hpc).concat (indexable_of_answered hanswered hconns)
    refine .of_running hall fun stop => ?_
    rw [pc_of_answered hanswered]
    simp [hpc]
  | @stopped cqe rest ret stop hpc hbatch hstop =>
    have hhead := hwired.head hbatch
    have hconns : ({ s with batch := rest } : State).conns cqe.entry.userData = _ :=
      hwired.conns_userData hhead.pending
    have hbefore := hrun _ (by simp) hpc
    have hcqe : processed s (.handle ret) = [cqe] := by
      rw [processed, hbatch]
      rfl
    rw [hcqe]
    refine ⟨fun hpc => absurd rfl (hpc stop), fun arr i hpc => ?_⟩
    cases hpc
    have hfault := handleCqe_outOfBounds hconns (hwired.inBounds _ hhead.pending) hbefore.1 hstop
    exact fun hall => hfault.2 (hall.2 cqe (by simp) hfault.1)
  | ended hpc hbatch =>
    simp only [processed, List.append_nil]
    exact .of_running (hrun _ (by simp) hpc) (by simp)
  | completed hsqe hpossible =>
    simp only [processed, List.append_nil]
    exact ⟨h.running, h.outOfBounds⟩

end Steps

theorem listening_pc (u : Setup) : (State.listening u).pc = .submitting := by
  unfold State.listening
  split <;> rfl

theorem checked_init (u : Setup) : Checked u (State.init u) [] := by
  unfold State.init
  split
  · rename_i s hs
    rcases addAccept_eq_ok hs with ⟨-, hlt, rfl⟩
    refine .of_running ⟨by omega, by simp⟩ fun stop => ?_
    simp [State.queue, listening_pc]
  · rename_i stop hstop
    refine ⟨fun hpc => absurd rfl (hpc stop), fun arr i hpc => ?_⟩
    cases hpc
    exact fun hall => addAccept_outOfBounds hstop ⟨by omega, by have := hall.1; omega⟩

/-- As long as the server has not been stopped otherwise, it has indexed within its arrays
exactly if the listening socket and the results of all accepts are places in them. -/
theorem in_bounds_iff {u : Setup} {s : State} {log : List Cqe}
    (h : Reachable (record processed (step u)) (State.init u, []) (s, log))
    (hnull : s.pc ≠ .stopped .nullSqe) (hexit : ∀ text, s.pc ≠ .stopped (.exit text)) :
    (∀ arr i, s.pc ≠ .stopped (.outOfBounds arr i)) ↔ AllIndexable u log := by
  have hchecked : Checked u s log :=
    h.invariant (fun p => Checked u p.1 p.2) (checked_init u) fun p event q hreach hp hstep => by
      have hstep := record_eq_some.mp hstep
      rw [hstep.2]
      exact hp.step (wired_of_reachable hreach.of_record) hstep.1
  constructor
  · intro hbounds
    apply hchecked.running
    intro stop hpc
    cases stop with
    | outOfBounds arr i => exact hbounds arr i hpc
    | nullSqe => exact hnull hpc
    | exit text => exact hexit text hpc
  · intro hall arr i hpc
    exact hchecked.outOfBounds arr i hpc hall

theorem oneReuse_spec :
    (run (record processed (step fixedSetup)) (State.init fixedSetup, []) oneReuse).map
      (fun p => (p.1.pc, p.2.map Completion.res)) = some (.batch, [5, 0]) := by
  decide +kernel

theorem oneReuse_in_bounds :
    ∃ p, Reachable (record processed (step fixedSetup)) (State.init fixedSetup, []) p ∧
      (∀ arr i, p.1.pc ≠ .stopped (.outOfBounds arr i)) ∧ AllIndexable fixedSetup p.2 := by
  rcases Reachable.of_view oneReuse_spec with ⟨p, hreach, hp⟩
  simp only [Prod.mk.injEq] at hp
  have hbounds : ∀ arr i, p.1.pc ≠ .stopped (.outOfBounds arr i) := by
    intro arr i
    simp [hp.1]
  exact ⟨p, hreach, hbounds,
    (in_bounds_iff hreach (by simp [hp.1]) (by simp [hp.1])).mp hbounds⟩

/-- Without `-f`. -/
def plainSetup : Setup := ⟨3, 4124, 2046, false, 1048576, fun _ => three_lt_maxFiles⟩

def acceptFails : List Event := [.submit 1, .complete 0 (-24), .peek, .handle 1]

/-- A failed accept is used as an index into the arrays. -/
theorem failed_accept_out_of_bounds :
    (∃ s, Reachable (step plainSetup) (State.init plainSetup) s ∧
      s.pc = .stopped (.outOfBounds .conns (-24))) ∧
      ∃ s, Reachable (step fixedSetup) (State.init fixedSetup) s ∧
        s.pc = .stopped (.outOfBounds .registeredFiles (-24)) := by
  have hplain : (run (step plainSetup) (State.init plainSetup) acceptFails).map State.pc =
      some (.stopped (.outOfBounds .conns (-24))) := by
    decide +kernel
  have hfixed : (run (step fixedSetup) (State.init fixedSetup) acceptFails).map State.pc =
      some (.stopped (.outOfBounds .registeredFiles (-24))) := by
    decide +kernel
  rcases Reachable.of_view hplain with ⟨s, hs, hpc⟩
  rcases Reachable.of_view hfixed with ⟨t, ht, hpc'⟩
  exact ⟨⟨s, hs, hpc⟩, t, ht, hpc'⟩

end IoWrapper.EchoV1.Bounds
