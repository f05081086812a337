import IoWrapper.NetpollEcho.Server

/-! Who uses which element of `buffs`. The number of an open duplicate is nobody else's; so
the connections that are served have elements of their own as long as no finalizer closes the
duplicate of one of them, and what is written is what was read. -/
namespace IoWrapper.NetpollEcho.Elements
open Core.Machine Server

def serving : Stage → Option Nat
  | .reading buff | .writing buff _ => some buff
  | .starting | .filed _ | .returned => none

/-- Two connections that are served at the same time use different elements. -/
def Exclusive (s : State) : Prop :=
  ∀ (i j : Nat) (a b : Conn) (buff : Nat), s.conns[i]? = some a → s.conns[j]? = some b →
    serving a.stage = some buff → serving b.stage = some buff → i = j

/-- The finalizer does not run before `handleConn` has returned. -/
def Patient (s : State) : Event → Prop
  | .act i .finalize => ∀ c ∈ s.conns[i]?, c.stage = .returned
  | .act _ (.file _) | .act _ .index | .act _ (.read ..) | .act _ (.write _) | .accept _
  | .acceptError | .openOther _ | .closeOther _ => True

instance (s : State) : (event : Event) → Decidable (Patient s event)
  | .act i .finalize => inferInstanceAs (Decidable (∀ c ∈ s.conns[i]?, c.stage = .returned))
  | .act _ (.file _) | .act _ .index | .act _ (.read ..) | .act _ (.write _) | .accept _
  | .acceptError | .openOther _ | .closeOther _ => isTrue trivial

def number : Stage → Option Nat
  | .filed f => f
  | .reading buff | .writing buff _ => some buff
  | .starting | .returned => none

/-- A connection has its descriptor until it returns, its duplicate is open under the number
of its element, and what it has read is in the element until it is written. -/
structure Held (s : State) (i : Nat) (c : Conn) : Prop where
  own : c.stage ≠ .returned → s.fds c.fd = some (.conn i)
  dup : ∀ d ∈ c.dup, s.fds d = some (.dup i)
  named : ∀ d ∈ number c.stage, c.dup = some d
  stored : ∀ buff data, c.stage = .writing buff data → (s.buffs buff).take data.length = data

structure Inv (s : State) : Prop where
  held : ∀ i c, s.conns[i]? = some c → Held s i c
  written : ∀ w ∈ s.written, w.bytes = w.read

theorem number_of_serving {stage : Stage} {buff : Nat} (h : serving stage = some buff) :
    number stage = some buff := by
  cases stage <;> simp_all [serving, number]

theorem Inv.exclusive {s : State} (h : Inv s) : Exclusive s := by
  intro i j a b buff hi hj ha hb
  have hleft := (h.held i a hi).dup buff ((h.held i a hi).named buff (number_of_serving ha))
  have hright := (h.held j b hj).dup buff ((h.held j b hj).named buff (number_of_serving hb))
  exact Owner.dup.inj (Option.some.inj (hleft.symm.trans hright))

section Moves

variable {s t : State} {i j fd : Nat} {b c c' : Conn} {owner : Owner}

theorem setFd_kept {fd' : Nat} {new : Option Owner} (h : s.fds fd' = some owner)
    (hne : s.fds fd ≠ some owner) : (s.setFd fd new).fds fd' = some owner := by
  refine (Function.update_of_ne ?_ ..).trans h
  rintro rfl
  exact hne h

theorem Held.setFd {new : Option Owner} (h : Held s i c) (hconn : s.fds fd ≠ some (.conn i))
    (hdup : s.fds fd ≠ some (.dup i)) : Held (s.setFd fd new) i c :=
  ⟨fun hstage => setFd_kept (h.own hstage) hconn, fun d hd => setFd_kept (h.dup d hd) hdup,
    h.named, h.stored⟩

theorem Inv.setConn (hconn : s.conns[i]? = some c) (hheld : Held t i c')
    (hconns : t.conns = s.conns) (hothers : ∀ j b, j ≠ i → s.conns[j]? = some b → Held t j b)
    (hwritten : ∀ w ∈ t.written, w.bytes = w.read) : Inv (t.setConn i c') := by
  refine ⟨?_, hwritten⟩
  intro j b hj
  change (t.conns.set i c')[j]? = some b at hj
  rw [hconns] at hj
  have hsame : ∀ {k a}, Held t k a → Held (t.setConn i c') k a :=
    fun h => ⟨h.own, h.dup, h.named, h.stored⟩
  by_cases hij : j = i
  · subst hij
    rw [List.getElem?_set_self (List.getElem?_eq_some_iff.mp hconn).1] at hj
    cases hj
    exact hsame hheld
  · rw [List.getElem?_set_ne (Ne.symm hij)] at hj
    exact hsame (hothers j b hij hj)

theorem Inv.fail (h : Inv s) (crash : Crash) : Inv (s.fail crash) :=
  ⟨fun i c hconn => ⟨(h.held i c hconn).own, (h.held i c hconn).dup, (h.held i c hconn).named,
    (h.held i c hconn).stored⟩, h.written⟩

theorem ne_conn (hij : j ≠ i) (h : s.fds fd = some (.conn i)) :
    s.fds fd ≠ some (.conn j) ∧ s.fds fd ≠ some (.dup j) := by
  rw [h]
  simp [Ne.symm hij]

theorem ne_dup (hij : j ≠ i) (h : s.fds fd = some (.dup i)) :
    s.fds fd ≠ some (.conn j) ∧ s.fds fd ≠ some (.dup j) := by
  rw [h]
  simp [Ne.symm hij]

theorem Inv.held_store {buff : Nat} {data : List UInt8} (h : Inv s) (hconn : s.conns[i]? = some c)
    (hserving : serving c.stage = some buff) (hij : j ≠ i) (hj : s.conns[j]? = some b) :
    Held (s.store buff data) j b := by
  have hother := h.held j b hj
  refine ⟨hother.own, hother.dup, hother.named, fun buff' data' hwriting => ?_⟩
  have hne : buff' ≠ buff := by
    rintro rfl
    exact hij (h.exclusive j i b c buff' hj hconn (by simp [hwriting, serving]) hserving)
  exact (congrArg _ (Function.update_of_ne hne ..)).trans (hother.stored buff' data' hwriting)

theorem Inv.acted {act : Act} (h : Inv s) (hconn : s.conns[i]? = some c)
    (hpatient : Patient s (.act i act)) (ht : Acted s i c act t) : Inv t := by
  have hheld := h.held i c hconn
  cases ht with
  | noFile hstage =>
    refine Inv.setConn hconn ⟨fun _ => hheld.own (by simp [hstage]), hheld.dup, nofun, nofun⟩ rfl
      (fun j b _ => h.held j b) h.written
  | @filed d hstage hfree =>
    have hkept : ∀ j b, s.conns[j]? = some b → Held (s.setFd d (some (.dup i))) j b :=
      fun j b hj => (h.held j b hj).setFd (by simp [hfree]) (by simp [hfree])
    refine Inv.setConn hconn ⟨?_, ?_, ?_, nofun⟩ rfl (fun j b _ => hkept j b) h.written
    · exact fun _ => (hkept i c hconn).own (by simp [hstage])
    · intro d' hd'
      cases hd'
      exact Function.update_self ..
    · intro d' hd'
      cases hd'
      rfl
  | @indexed d hstage hlt =>
    refine Inv.setConn hconn ⟨?_, hheld.dup, ?_, nofun⟩ rfl (fun j b _ => h.held j b) h.written
    · exact fun _ => hheld.own (by simp [hstage])
    · exact fun d' hd' => hheld.named d' (by simpa [hstage, number] using hd')
  | @closed buff _ _ _ hstage =>
    have hfd := hheld.own (by simp [hstage])
    refine Inv.setConn hconn ⟨fun hne => absurd rfl hne, ?_, nofun, nofun⟩ rfl ?_ h.written
    · exact fun d hd => setFd_kept (hheld.dup d hd) (by simp [hfd])
    · intro j b hij hj
      exact (h.held j b hj).setFd (ne_conn hij hfd).1 (ne_conn hij hfd).2
  | @stored buff data _ _ hstage hlen =>
    have hserving : serving c.stage = some buff := by simp [hstage, serving]
    refine Inv.setConn hconn ⟨?_, hheld.dup, ?_, ?_⟩ rfl ?_ h.written
    · exact fun _ => hheld.own (by simp [hstage])
    · exact fun d hd => hheld.named d (by simpa [hstage, number] using hd)
    · rintro _ _ ⟨rfl, rfl⟩
      change (Function.update s.buffs buff _ buff).take _ = _
      rw [Function.update_self, List.take_left]
    · exact fun j b hij hj => h.held_store hconn hserving hij hj
  | @wrote buff data _ hstage =>
    refine Inv.setConn hconn ⟨?_, hheld.dup, ?_, nofun⟩ rfl ?_ ?_
    · exact fun _ => hheld.own (by simp [hstage])
    · exact fun d hd => hheld.named d (by simpa [hstage, number] using hd)
    · intro j b _ hj
      exact ⟨(h.held j b hj).own, (h.held j b hj).dup, (h.held j b hj).named,
        (h.held j b hj).stored⟩
    · intro w hw
      rcases List.mem_append.mp hw with hw | hw
      · exact h.written w hw
      · cases List.mem_singleton.mp hw
        exact hheld.stored buff data hstage
  | @finalized d hdup hpast =>
    -- A patient finalizer waits for the connection, so that no element is named after `d`.
    have hreturned : c.stage = .returned := hpatient c hconn
    have hfd := hheld.dup d hdup
    refine Inv.setConn hconn ⟨fun hne => absurd hreturned hne, nofun, ?_, ?_⟩ rfl ?_ h.written
    · simp [hreturned, number]
    · simp [hreturned]
    · intro j b hij hj
      exact (h.held j b hj).setFd (ne_dup hij hfd).1 (ne_dup hij hfd).2
  | crashed => exact h.fail _

theorem Inv.setFd {new : Option Owner} (h : Inv s)
    (hfree : s.fds fd = none ∨ s.fds fd = some .other) : Inv (s.setFd fd new) :=
  ⟨fun i c hconn => (h.held i c hconn).setFd
    (by rcases hfree with hfree | hfree <;> simp [hfree])
    (by rcases hfree with hfree | hfree <;> simp [hfree]), h.written⟩

theorem Inv.step {event : Event} (h : Inv s) (hpatient : Patient s event)
    (hstep : step s event = some t) : Inv t := by
  cases step_sound hstep with
  | @accepted fd hfree =>
    have hset : Inv (s.setFd fd (some (.conn s.conns.length))) := h.setFd (.inl hfree)
    refine ⟨?_, h.written⟩
    intro i c hconn
    change (s.conns ++ [_])[i]? = some c at hconn
    rw [List.getElem?_append] at hconn
    split at hconn
    · have hheld := hset.held i c hconn
      exact ⟨hheld.own, hheld.dup, hheld.named, hheld.stored⟩
    · have hi : i = s.conns.length := by
        have hlt := (List.getElem?_eq_some_iff.mp hconn).1
        rw [List.length_singleton] at hlt
        omega
      subst hi
      rw [Nat.sub_self] at hconn
      cases hconn
      exact ⟨fun _ => Function.update_self .., nofun, nofun, nofun⟩
  | notAccepted => exact h.fail _
  | acted hconn hacted => exact h.acted hconn hpatient hacted
  | otherOpened hfree => exact h.setFd (.inl hfree)
  | otherClosed hfd => exact h.setFd (.inr hfd)

end Moves

theorem inv_of_patient {s : State} (h : Reachable (restrict Patient step) State.init s) :
    Inv s := by
  apply h.invariant Inv
  · exact ⟨nofun, nofun⟩
  · intro s event t _ hs hstep
    rcases restrict_eq_some.mp hstep with ⟨hpatient, hmove⟩
    exact hs.step hpatient hmove

/-- Connections that are served at the same time use different elements of `buffs`, if no
finalizer closes the duplicate of a connection before `handleConn` has returned. -/
theorem exclusive_of_patient {s : State} (h : Reachable (restrict Patient step) State.init s) :
    Exclusive s :=
  (inv_of_patient h).exclusive

/-- And what they write is what they have read. -/
theorem written_of_patient {s : State} (h : Reachable (restrict Patient step) State.init s) :
    ∀ w ∈ s.written, w.bytes = w.read :=
  (inv_of_patient h).written

def serve (i fd d : Nat) : List Event :=
  [.accept fd, .act i (.file (some d)), .act i .index]

def oneReuse : List Event := serve 0 7 8 ++
  [.act 0 (.read [104] none true), .act 0 (.write true), .act 0 (.read [] (some .eof) true),
    .act 0 .finalize] ++ serve 1 7 8

theorem exclusive_one_reuse : ∃ s, Reachable (restrict Patient step) State.init s ∧
    s.conns = [⟨7, none, .returned⟩, ⟨7, some 8, .reading 8⟩] ∧ Exclusive s := by
  have hview : (run (restrict Patient step) State.init oneReuse).map (fun s => s.conns) =
      some [⟨7, none, .returned⟩, ⟨7, some 8, .reading 8⟩] := by
    decide +kernel
  rcases Reachable.of_view hview with ⟨s, hreach, hconns⟩
  exact ⟨s, hreach, hconns, exclusive_of_patient hreach⟩

theorem written_of_patient_one_reuse : ∃ s, Reachable (restrict Patient step) State.init s ∧
    s.written.map Written.read = [[104]] ∧ ∀ w ∈ s.written, w.bytes = w.read := by
  have hview : (run (restrict Patient step) State.init oneReuse).map
      (fun s => s.written.map Written.read) = some [[104]] := by
    decide +kernel
  rcases Reachable.of_view hview with ⟨s, hreach, hread⟩
  exact ⟨s, hreach, hread, written_of_patient hreach⟩

/-- The process has the descriptors up to 6, and a new one is always the lowest that is free.
The finalizers run while the first two connections are served; the third one gets the number of
the one duplicate, and its own duplicate that of the other. -/
def earlyFinalizer : List Event :=
  (List.range 7).map .openOther ++ serve 0 7 8 ++ serve 1 9 10 ++
    [.act 0 .finalize, .act 1 .finalize] ++ serve 2 8 10 ++
    [.act 1 (.read [104] none true), .act 2 (.read [111] none true), .act 1 (.write true)]

/-- Two connections are served in one element, and the client of the first one gets the byte of
the other. -/
theorem early_finalizer_shares : ∃ s, Reachable step State.init s ∧
    s.conns = [⟨7, none, .reading 8⟩, ⟨9, none, .reading 10⟩, ⟨8, some 10, .writing 10 [111]⟩] ∧
    s.written = [⟨[104], [111]⟩] ∧ ¬Exclusive s := by
  have hview : (run step State.init earlyFinalizer).map (fun s => (s.conns, s.written)) =
      some ([⟨7, none, .reading 8⟩, ⟨9, none, .reading 10⟩, ⟨8, some 10, .writing 10 [111]⟩],
        [⟨[104], [111]⟩]) := by
    decide +kernel
  rcases Reachable.of_view hview with ⟨s, hreach, hs⟩
  rw [Prod.mk.injEq] at hs
  refine ⟨s, hreach, hs.1, hs.2, fun hexclusive => ?_⟩
  have hsame := hexclusive 1 2 ⟨9, none, .reading 10⟩ ⟨8, some 10, .writing 10 [111]⟩ 10
    (by rw [hs.1]; rfl) (by rw [hs.1]; rfl) rfl rfl
  cases hsame

end IoWrapper.NetpollEcho.Elements
