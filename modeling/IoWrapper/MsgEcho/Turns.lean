import IoWrapper.MsgEcho.Messages

/-! Clients that take turns. A connection has something in the buffer from the first byte that
its recv stores until its send has been answered. If a recv stores nothing while another
connection has something there, then all that is sent is the sender's own, and the server does
what an echo service with a buffer for each client does. -/
namespace IoWrapper.MsgEcho.Turns
open Core.Machine Core.Provenance Server Tasks Messages

/-- How much of the buffer is taken up by a message that is to be sent back. -/
def held (w : Work) : Nat :=
  match w.op with
  | .recvmsg .. => w.done
  | .sendmsg _ len => len
  | .accept _ => 0

/-- A recv stores something only where no other connection has something in the buffer. -/
def Turn (s : State) : Event → Prop
  | .store i _ => ∀ w ∈ tasks s.loop, held w ≠ 0 → s.loop.fds w.op.fd = fileAt s.loop i
  | .move _ | .transmit .. => True

instance (s : State) (event : Event) : Decidable (Turn s event) :=
  match event with
  | .store i _ => inferInstanceAs
      (Decidable (∀ w ∈ tasks s.loop, held w ≠ 0 → s.loop.fds w.op.fd = fileAt s.loop i))
  | .move _ | .transmit .. => isTrue trivial

/-- The places that a task takes up hold bytes of its own connection. -/
def Unmixed (s : State) (file : Nat) (w : Work) : Prop :=
  ∀ p < held w, (s.buffer p).origin = some file

structure Clear (s : State) : Prop where
  unmixed : ∀ file, Doing s.loop file (Unmixed s file)
  own : ∀ file, Own s file

section Steps

variable {sockfd i : Nat} {s : State} {w w' : Work}

theorem held_reply (h : Reply w w') : held w' ≤ held w := by
  cases h with
  | send => exact Nat.le_refl _
  | recv => exact Nat.zero_le _

theorem Clear.moved {m : Move} {next : Loop} (h : Clear s) (hwired : Wired s.loop)
    (hstep : s.loop.step sockfd m = some next) : Clear { s with loop := next } := by
  refine ⟨fun file => ?_, h.own⟩
  apply (h.unmixed file).shift hwired.toNamed (hwired.shift hstep)
  · exact fun w w' hreply hw p hp => hw p (Nat.lt_of_lt_of_le hp (held_reply hreply))
  · exact fun _ fd p hp => absurd hp (Nat.not_lt_zero p)

theorem Clear.stored {data : List UInt8} (h : Clear s) (hwired : Wired s.loop)
    (hmover : s.loop.mover Op.receives i data.length = some w) (hturn : Turn s (.store i data)) :
    Clear (s.stored i w data) := by
  rcases mover_receives hmover with ⟨fd, len, hop, -⟩
  rcases hwired.moving hmover fun _ => rfl with ⟨file, rest, hfile, hfd, hbefore, hafter⟩
  refine ⟨fun other => ?_, h.own⟩
  by_cases hown : file = other
  · subst hown
    refine hwired.doing_own hbefore hafter rfl hfd ?_
    intro p hp
    have hp : p < w.done + data.length := by simpa only [held, hop] using hp
    simp only [State.stored]
    rcases Nat.lt_or_ge p w.done with hlt | hge
    · have hheld : p < held ⟨w.op, none, w.done⟩ := by simpa only [held, hop] using hlt
      rw [store_of_lt hlt]
      exact h.unmixed file _ (hbefore.mem_iff.mpr (List.mem_cons_self ..)) hfd p hheld
    · have hbyte : data[p - w.done]? = some _ := List.getElem?_eq_getElem (by omega)
      rw [store_of_le hge hbyte]
      exact hfile
  · have hempty : Doing s.loop other (fun v => held v = 0) := by
      intro v hv hother
      by_contra hheld
      have hsame := (hturn v hv hheld).trans (fileAt_of_mover hmover)
      exact hown (Option.some.inj ((hsame.trans hfile).symm.trans hother))
    have hother : s.loop.fds w.op.fd ≠ some other := by
      rw [hfd]
      exact fun heq => hown (Option.some.inj heq)
    intro v hv hv'
    have hzero := hempty.other hbefore hafter rfl rfl hother v hv hv'
    exact fun p hp => absurd (hzero ▸ hp) (Nat.not_lt_zero p)

theorem Clear.transmitted {count : Nat} (h : Clear s) (hwired : Wired s.loop)
    (hmover : s.loop.mover Op.sends i count = some w) : Clear (s.transmitted i w count) := by
  rcases mover_sends hmover with ⟨fd, len, hop, hle⟩
  rcases hwired.moving hmover fun _ => rfl with ⟨file, rest, hfile, hfd, hbefore, hafter⟩
  have hmine := h.unmixed file _ (hbefore.mem_iff.mpr (List.mem_cons_self ..)) hfd
  have hheld : ∀ done, held ⟨w.op, none, done⟩ = len := fun done => by simp only [held, hop]
  constructor
  case unmixed =>
    intro other
    by_cases hown : s.loop.fds w.op.fd = some other
    · cases hfd.symm.trans hown
      refine hwired.doing_own hbefore hafter rfl hfd ?_
      exact fun p hp => hmine p (by rwa [hheld] at hp ⊢)
    · exact (h.unmixed other).other hbefore hafter rfl rfl hown
  case own =>
    intro other
    by_cases hown : w.file = some other
    · have hsent : (s.transmitted i w count).sent other =
          s.sent other ++ window s.buffer w.done count := if_pos hown
      cases hfile.symm.trans hown
      unfold Own
      rw [hsent, List.forall_mem_append]
      refine ⟨h.own file, fun m hm => ?_⟩
      rcases mem_window.mp hm with ⟨p, -, hlt, rfl⟩
      have horigin := hmine p (by rw [hheld]; omega)
      intro origin hmem
      exact Option.some.inj (hmem.symm.trans horigin)
    · have hsent : (s.transmitted i w count).sent other = s.sent other := if_neg hown
      unfold Own
      rw [hsent]
      exact h.own other

theorem Clear.step {t : State} {event : Event} (h : Clear s) (hwired : Wired s.loop)
    (hturn : Turn s event) (hstep : step sockfd s event = some t) : Clear t := by
  cases step_sound hstep with
  | moved hmove => exact h.moved hwired hmove
  | stored hmover => exact h.stored hwired hmover hturn
  | transmitted hmover => exact h.transmitted hwired hmover

end Steps

theorem clear_init (sockfd : Nat) : Clear (State.init sockfd) := by
  constructor
  · exact fun file w hw => absurd hw List.not_mem_nil
  · exact fun file m hm => absurd hm List.not_mem_nil

theorem own_of_turns {α : Type} {sockfd : Nat} {note : State → Event → List α}
    {s : State × List α}
    (h : Reachable (restrict (fun s event => Turn s.1 event) (record note (step sockfd)))
      (State.init sockfd, []) s) (c : Nat) : Own s.1 c := by
  have hclear : Clear s.1 := by
    apply h.invariant (fun s => Clear s.1) (clear_init sockfd)
    intro s event t hreach hs hnext
    rcases restrict_eq_some.mp hnext with ⟨hturn, hnoted⟩
    have hwired := wired_of_reachable hreach.of_restrict.of_record
    exact hs.step hwired hturn (record_eq_some.mp hnoted).1
  exact hclear.own c

/-- Clients that take turns are served as if each had a buffer to itself. -/
theorem echoed_of_turns {sockfd c : Nat} {s : State × List Act}
    (h : Reachable (restrict (fun s event => Turn s.1 event) (heard sockfd c))
      (State.init sockfd, []) s) : echoed s.1 c = (replay s.2).out :=
  echoed_eq_replay h.of_restrict (own_of_turns h c)

def oneAfterOther : List Event :=
  [.move (.submit 2), .move (.complete 0 5), .move .handle, .move (.submit 2),
    .move (.complete 0 6), .move .handle, .move (.submit 2),
    .store 0 [104, 105], .move (.complete 0 2), .move .handle, .move (.submit 1),
    .transmit 2 2, .move (.complete 2 2), .move .handle, .move (.submit 1),
    .store 1 [111, 107], .move (.complete 1 2), .move .handle, .move (.submit 1), .transmit 2 2]

theorem echoed_of_turns_one_after_other : ∃ s,
    Reachable (restrict (fun s event => Turn s.1 event) (heard 3 2)) (State.init 3, []) s ∧
      s.2 = [.got [111, 107], .gave 2] ∧ echoed s.1 2 = [111, 107] := by
  have hview : (run (restrict (fun s event => Turn s.1 event) (heard 3 2)) (State.init 3, [])
      oneAfterOther).map Prod.snd = some [.got [111, 107], .gave 2] := by
    decide +kernel
  rcases Reachable.of_view hview with ⟨s, hreach, hs⟩
  refine ⟨s, hreach, hs, ?_⟩
  rw [echoed_of_turns hreach, hs]
  rfl

end IoWrapper.MsgEcho.Turns
