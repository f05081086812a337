import IoWrapper.MsgEcho.Tasks

/-! What a connection is owed. An echo service with a buffer for each of its clients keeps the
message that it has received and sends it from the front; a client that is sent only bytes of
its own is sent what that service would send, piece by piece. -/
namespace IoWrapper.MsgEcho.Messages
open Core.Machine Core.Provenance Server Tasks

/-- What happens on a connection. -/
inductive Act where
  | got (data : List UInt8)
  | gave (count : Nat)
deriving DecidableEq

/-- The message that has been received last, how much of it has been sent, and all that has
been sent. -/
structure Echo where
  message : List UInt8
  done : Nat
  out : List UInt8

/-- A message of which something has been sent is not added to. -/
def Echo.current (e : Echo) : List UInt8 := if e.done = 0 then e.message else []

def Echo.act (e : Echo) : Act → Echo
  | .got data => ⟨e.current ++ data, 0, e.out⟩
  | .gave count => ⟨e.message, e.done + count, e.out ++ (e.message.drop e.done).take count⟩

def replay (acts : List Act) : Echo := acts.foldl Echo.act ⟨[], 0, []⟩

def fileAt (l : Loop) (i : Nat) : Option Nat := l.ring.inflight[i]?.bind Work.file

/-- What an event is for the connection of a file. -/
def acts (c : Nat) (s : State) : Event → List Act
  | .store i data => if fileAt s.loop i = some c then [.got data] else []
  | .transmit i count => if fileAt s.loop i = some c then [.gave count] else []
  | .move _ => []

def heard (sockfd c : Nat) : State × List Act → Event → Option (State × List Act) :=
  record (acts c) (step sockfd)

def echoed (s : State) (c : Nat) : List UInt8 := (s.sent c).map Mark.byte

/-- No byte that has been sent on the connection was stored by the recv of another one. -/
def Own (s : State) (c : Nat) : Prop := ∀ m ∈ s.sent c, m.Own c

instance (s : State) (c : Nat) : Decidable (Own s c) :=
  inferInstanceAs (Decidable (∀ m ∈ s.sent c, m.Own c))

def Ready (e : Echo) (w : Work) : Prop :=
  match w.op with
  | .recvmsg .. => e.current.length = w.done
  | .sendmsg _ len => e.message.length = len ∧ e.done = w.done
  | .accept _ => True

/-- The buffer holds the message of the connection, except where another one has stored
something over it. -/
structure Tracks (c : Nat) (s : State) (e : Echo) : Prop where
  ready : Doing s.loop c (Ready e)
  ahead : s.loop.files ≤ c → e.current = []
  bytes : ∀ p byte, e.message[p]? = some byte →
    ∃ file, (s.buffer p).origin = some file ∧ (file = c → (s.buffer p).byte = byte)
  out : Own s c → e.out = echoed s c

section Service

variable {e : Echo} {w w' : Work}

theorem current_got (data : List UInt8) : (e.act (.got data)).current = e.current ++ data := rfl

theorem current_eq_message (h : e.current ≠ []) : e.done = 0 ∧ e.current = e.message := by
  unfold Echo.current at h ⊢
  split
  · rename_i hzero
    exact ⟨hzero, rfl⟩
  · rename_i hpos
    rw [if_neg hpos] at h
    exact absurd rfl h

theorem ready_freshRecv {fd : Nat} (h : e.current = []) : Ready e (freshRecv fd) := by
  simp [Ready, freshRecv, h]

theorem Ready.reply (hreply : Reply w w') (h : Ready e w) : Ready e w' := by
  cases hreply with
  | @send fd len count hpos =>
    have hlen : e.current.length = count := h
    have hne : e.current ≠ [] := by
      intro hnil
      rw [hnil] at hlen
      exact absurd hlen (Nat.ne_of_lt hpos)
    rcases current_eq_message hne with ⟨hzero, heq⟩
    exact ⟨heq ▸ hlen, hzero⟩
  | @recv fd len count hpos =>
    have hdone : e.done = count := h.2
    exact ready_freshRecv (if_neg (by omega))

end Service

section Steps

variable {sockfd c i : Nat} {s : State} {e : Echo} {w : Work}

theorem Own.of_append {t : State} {more : List (Mark UInt8 Nat)} (h : Own t c)
    (hsent : t.sent c = s.sent c ++ more) : Own s c ∧ ∀ m ∈ more, m.Own c := by
  unfold Own at h
  rw [hsent] at h
  exact List.forall_mem_append.mp h

theorem Tracks.moved {m : Move} {next : Loop} (h : Tracks c s e) (hwired : Wired s.loop)
    (hstep : s.loop.step sockfd m = some next) : Tracks c { s with loop := next } e := by
  have hshift := hwired.shift hstep
  constructor
  case ready =>
    apply h.ready.shift hwired.toNamed hshift
    · exact fun w w' hreply hready => hready.reply hreply
    · exact fun hfirst fd => ready_freshRecv (h.ahead (Nat.le_of_eq hfirst.symm))
  case ahead =>
    intro hle
    apply h.ahead
    refine Nat.le_trans ?_ hle
    cases hshift with
    | same _ _ hfiles | replied _ _ _ _ hfiles | left _ _ hfiles => exact Nat.le_of_eq hfiles.symm
    | entered _ _ _ hfiles => exact hfiles ▸ Nat.le_succ _
  case bytes => exact h.bytes
  case out => exact h.out

theorem not_ahead {l : Loop} {fd : Nat} (h : Wired l) (hfile : l.fds fd = some c) :
    ¬l.files ≤ c :=
  Nat.not_le.mpr (h.issued.below fd c hfile)

theorem Tracks.stored_own {data : List UInt8} (h : Tracks c s e) (hwired : Wired s.loop)
    (hmover : s.loop.mover Op.receives i data.length = some w) (hown : w.file = some c) :
    Tracks c (s.stored i w data) (e.act (.got data)) := by
  rcases mover_receives hmover with ⟨fd, len, hop, -⟩
  rcases hwired.moving hmover fun _ => rfl with ⟨file, rest, hfile, hfd, hbefore, hafter⟩
  cases hown.symm.trans hfile
  have hlen : e.current.length = w.done := by
    have hready := h.ready _ (hbefore.mem_iff.mpr (List.mem_cons_self ..)) hfd
    simpa only [Ready, hop] using hready
  constructor
  case ready =>
    refine hwired.doing_own hbefore hafter rfl hfd ?_
    simp only [Ready, hop, current_got, List.length_append, hlen]
  case ahead => exact fun hle => (not_ahead hwired hfd hle).elim
  case bytes =>
    intro p byte hbyte
    change (e.current ++ data)[p]? = some byte at hbyte
    simp only [State.stored]
    rcases Nat.lt_or_ge p w.done with hlt | hge
    · rw [List.getElem?_append_left (hlen ▸ hlt)] at hbyte
      have hmessage := (current_eq_message (List.ne_nil_of_mem (List.mem_of_getElem? hbyte))).2
      rw [store_of_lt hlt]
      exact h.bytes p byte (hmessage ▸ hbyte)
    · rw [List.getElem?_append_right (hlen ▸ hge), hlen] at hbyte
      rw [store_of_le hge hbyte]
      exact ⟨c, hown, fun _ => rfl⟩
  case out => exact h.out

theorem Tracks.stored_other {data : List UInt8} (h : Tracks c s e) (hwired : Wired s.loop)
    (hmover : s.loop.mover Op.receives i data.length = some w) (hother : w.file ≠ some c) :
    Tracks c (s.stored i w data) e := by
  rcases hwired.moving hmover fun _ => rfl with ⟨file, rest, hfile, hfd, hbefore, hafter⟩
  have hne : file ≠ c := fun heq => hother (heq ▸ hfile)
  constructor
  case ready =>
    refine h.ready.other hbefore hafter rfl rfl ?_
    rw [hfd]
    exact fun heq => hne (Option.some.inj heq)
  case ahead => exact h.ahead
  case bytes =>
    intro p byte hbyte
    simp only [State.stored]
    have hcases : store s.buffer w.done w.file data p = s.buffer p ∨ _ := store_cases
    rcases hcases with hsame | hnew
    · rw [hsame]
      exact h.bytes p byte hbyte
    · exact ⟨file, hnew.trans hfile, fun heq => absurd heq hne⟩
  case out => exact h.out

theorem Tracks.transmitted_own {count : Nat} (h : Tracks c s e) (hwired : Wired s.loop)
    (hmover : s.loop.mover Op.sends i count = some w) (hown : w.file = some c) :
    Tracks c (s.transmitted i w count) (e.act (.gave count)) := by
  rcases mover_sends hmover with ⟨fd, len, hop, hle⟩
  rcases hwired.moving hmover fun _ => rfl with ⟨file, rest, hfile, hfd, hbefore, hafter⟩
  cases hown.symm.trans hfile
  have hready : e.message.length = len ∧ e.done = w.done := by
    have hready := h.ready _ (hbefore.mem_iff.mpr (List.mem_cons_self ..)) hfd
    simpa only [Ready, hop] using hready
  have hsent : (s.transmitted i w count).sent c = s.sent c ++ window s.buffer w.done count :=
    if_pos hown
  constructor
  case ready =>
    refine hwired.doing_own hbefore hafter rfl hfd ?_
    simp only [Ready, hop, Echo.act, hready, and_self]
  case ahead => exact fun hle => (not_ahead hwired hfd hle).elim
  case bytes => exact h.bytes
  case out =>
    intro hall
    rcases hall.of_append hsent with ⟨hold, hnew⟩
    have hbytes : (window s.buffer w.done count).map Mark.byte =
        (e.message.drop w.done).take count := by
      apply window_bytes (hready.1 ▸ hle)
      intro p byte hge hlt hbyte
      rcases h.bytes p byte hbyte with ⟨origin, horigin, heq⟩
      exact heq (hnew _ (mem_window.mpr ⟨p, hge, hlt, rfl⟩) origin horigin)
    rw [echoed, hsent, List.map_append, hbytes]
    change e.out ++ (e.message.drop e.done).take count = _
    rw [h.out hold, hready.2]
    rfl

theorem Tracks.transmitted_other {count : Nat} (h : Tracks c s e) (hwired : Wired s.loop)
    (hmover : s.loop.mover Op.sends i count = some w) (hother : w.file ≠ some c) :
    Tracks c (s.transmitted i w count) e := by
  rcases hwired.moving hmover fun _ => rfl with ⟨file, rest, hfile, hfd, hbefore, hafter⟩
  have hsent : (s.transmitted i w count).sent c = s.sent c := if_neg hother
  constructor
  case ready =>
    refine h.ready.other hbefore hafter rfl rfl ?_
    rw [hfd, ← hfile]
    exact hother
  case ahead => exact h.ahead
  case bytes => exact h.bytes
  case out =>
    unfold Own echoed
    rw [hsent]
    exact h.out

theorem fileAt_of_mover {limit : Op → Nat} {count : Nat}
    (h : s.loop.mover limit i count = some w) : fileAt s.loop i = w.file := by
  rw [fileAt, (mover_eq_some.mp h).1]
  rfl

theorem Tracks.step {t : State} {event : Event} (h : Tracks c s e) (hwired : Wired s.loop)
    (hstep : step sockfd s event = some t) : Tracks c t ((acts c s event).foldl Echo.act e) := by
  cases step_sound hstep with
  | moved hmove => exact h.moved hwired hmove
  | @stored i data w hmover =>
    simp only [acts, fileAt_of_mover hmover]
    split
    · rename_i hown
      exact h.stored_own hwired hmover hown
    · rename_i hother
      exact h.stored_other hwired hmover hother
  | @transmitted i count w hmover =>
    simp only [acts, fileAt_of_mover hmover]
    split
    · rename_i hown
      exact h.transmitted_own hwired hmover hown
    · rename_i hother
      exact h.transmitted_other hwired hmover hother

end Steps

theorem tracks_init (sockfd c : Nat) : Tracks c (State.init sockfd) (replay []) := by
  refine ⟨?_, fun _ => rfl, ?_, fun _ => rfl⟩
  · exact fun w hw => absurd hw List.not_mem_nil
  · intro p byte hbyte
    cases hbyte

theorem tracks_of_heard {sockfd c : Nat} {s : State × List Act}
    (h : Reachable (heard sockfd c) (State.init sockfd, []) s) : Tracks c s.1 (replay s.2) := by
  apply h.invariant (fun s => Tracks c s.1 (replay s.2)) (tracks_init sockfd c)
  intro s event t hreach hs hnext
  rcases record_eq_some.mp hnext with ⟨hstep, hacts⟩
  have hwired := wired_of_reachable hreach.of_record
  rw [hacts, replay, List.foldl_append]
  exact hs.step hwired hstep

theorem echoed_eq_replay {sockfd c : Nat} {s : State × List Act}
    (h : Reachable (heard sockfd c) (State.init sockfd, []) s) (hown : Own s.1 c) :
    echoed s.1 c = (replay s.2).out :=
  ((tracks_of_heard h).out hown).symm

end IoWrapper.MsgEcho.Messages
