import IoWrapper.MsgEcho.Turns

/-! Isolation. What the server does is the same whatever the bytes are, so that a run can be
repeated with other bytes on all connections but one. A connection is isolated from the others
just if no byte that it has been sent was stored by the recv of another one. All recvs and
sends use one buffer, and so a client may be sent what another client has written; but not if
the clients take turns. -/
namespace IoWrapper.MsgEcho.Isolation
open Core.Machine Core.Provenance Server Messages Turns

/-- The state with the bytes of all connections but one changed. -/
def repaint (f : UInt8 → UInt8) (c : Nat) (s : State) : State :=
  { s with
    buffer := fun p => (s.buffer p).repaint f c
    sent := fun d => (s.sent d).map (Mark.repaint f c) }

def recolour (f : UInt8 → UInt8) (c : Nat) (s : State) : Event → Event
  | .store i data => .store i (dye f c (fileAt s.loop i) data)
  | .move m => .move m
  | .transmit i count => .transmit i count

/-- An event as it is for one connection: the bytes of the others are hidden, and it is known
what has happened on the connection itself. -/
structure Seen where
  event : Event
  acts : List Act
deriving DecidableEq

def hide (c : Nat) (s : State) (event : Event) : Seen :=
  ⟨recolour (fun _ => 0) c s event, acts c s event⟩

def watched (sockfd c : Nat) : State × List Seen → Event → Option (State × List Seen) :=
  record (fun s event => [hide c s event]) (step sockfd)

def look (scene : List Seen) : List Act := scene.flatMap Seen.acts

section Paint

variable {sockfd c : Nat} {f : UInt8 → UInt8} {s t : State} {event : Event}

theorem repaint_init : repaint f c (State.init sockfd) = State.init sockfd := by
  have hblank : Mark.repaint f c (⟨0, none⟩ : Mark UInt8 Nat) = ⟨0, none⟩ :=
    repaint_of_own fun origin horigin => by cases horigin
  simp only [repaint, State.init, hblank, List.map_nil]

/-- The server takes the same steps on other bytes. -/
theorem step_repaint (h : step sockfd s event = some t) :
    step sockfd (repaint f c s) (recolour f c s event) = some (repaint f c t) := by
  cases step_sound h with
  | @moved m next hmove =>
    simp only [recolour, step, repaint, hmove, Option.map_some]
  | @stored i data w hmover =>
    simp only [recolour, step, repaint, dye_length, hmover, Option.map_some,
      fileAt_of_mover hmover, State.stored, store_repaint]
  | @transmitted i count w hmover =>
    have hsent : ∀ d, (if w.file = some d then
        (s.sent d).map (Mark.repaint f c) ++ (window s.buffer w.done count).map (Mark.repaint f c)
        else (s.sent d).map (Mark.repaint f c)) =
        ((s.transmitted i w count).sent d).map (Mark.repaint f c) := by
      intro d
      rw [State.transmitted, apply_ite (List.map (Mark.repaint f c)), List.map_append]
    simp only [recolour, step, repaint, hmover, Option.map_some, State.transmitted,
      window_repaint]
    simp only [hsent]
    rfl

theorem hide_repaint : hide c (repaint f c s) (recolour f c s event) = hide c s event := by
  cases event with
  | move m | transmit i count => rfl
  | store i data =>
    have hfile : fileAt (repaint f c s).loop i = fileAt s.loop i := rfl
    simp only [hide, recolour, acts, hfile, dye_const_dye, Seen.mk.injEq, true_and]
    split
    · rename_i hown
      rw [hown, dye_own]
    · rfl

end Paint

section Runs

variable {sockfd c : Nat} {s t : State × List Seen}

theorem heard_of_watched (h : Reachable (watched sockfd c) (State.init sockfd, []) s) :
    Reachable (heard sockfd c) (State.init sockfd, []) (s.1, look s.2) := by
  apply h.component (fun s => (s.1, look s.2))
  intro s event t hstep
  rcases record_eq_some.mp hstep with ⟨hmove, hscene⟩
  refine Or.inr ⟨event, record_eq_some.mpr ⟨hmove, ?_⟩⟩
  simp [look, hscene, hide]

/-- A connection that has been sent only bytes of its own has been sent the same in every run
that is the same for it. -/
theorem sent_eq (h : Reachable (watched sockfd c) (State.init sockfd, []) s)
    (h' : Reachable (watched sockfd c) (State.init sockfd, []) t) (hscene : t.2 = s.2)
    (hown : Own s.1 c) : t.1.sent c = s.1.sent c := by
  have hview := Reachable.view_eq (step sockfd) (repaint (fun _ => 0) c) Seen.event h h'
    (fun _ _ _ hstep => step_repaint hstep) hscene
  have hsent : (t.1.sent c).map (Mark.repaint (fun _ => 0) c) = s.1.sent c :=
    (congrArg (fun s => s.sent c) hview).trans (map_repaint_of_own hown)
  have hown' : Own t.1 c := by
    intro m hm
    apply own_repaint.mp
    apply hown
    rw [← hsent]
    exact List.mem_map_of_mem hm
  rw [← hsent, map_repaint_of_own hown']

theorem painted_run (f : UInt8 → UInt8)
    (h : Reachable (watched sockfd c) (State.init sockfd, []) s) :
    Reachable (watched sockfd c) (State.init sockfd, []) (repaint f c s.1, s.2) := by
  have hrun : Reachable (watched sockfd c) (repaint f c (State.init sockfd), [])
      (repaint f c s.1, s.2) := by
    apply h.component (fun s => (repaint f c s.1, s.2))
    intro s event t hstep
    rcases record_eq_some.mp hstep with ⟨hmove, hscene⟩
    refine Or.inr ⟨recolour f c s.1 event, record_eq_some.mpr ⟨step_repaint hmove, ?_⟩⟩
    rw [hide_repaint]
    exact hscene
  rwa [repaint_init] at hrun

/-- A connection that has been sent only bytes of its own has been sent the same bytes in every
run that is the same for it, and in any run at all in which as much happens on the connection,
if there, too, its bytes are its own. -/
theorem isolated_of_own (h : Reachable (watched sockfd c) (State.init sockfd, []) s)
    (hown : Own s.1 c) :
    (∀ t, Reachable (watched sockfd c) (State.init sockfd, []) t → t.2 = s.2 →
      echoed t.1 c = echoed s.1 c) ∧
    ∀ c' t, Reachable (watched sockfd c') (State.init sockfd, []) t → Own t.1 c' →
      look t.2 = look s.2 → echoed t.1 c' = echoed s.1 c := by
  constructor
  · intro t ht hscene
    exact congrArg (List.map Mark.byte) (sent_eq h ht hscene hown)
  · intro c' t ht hown' hlook
    rw [echoed_eq_replay (heard_of_watched ht) hown',
      echoed_eq_replay (heard_of_watched h) hown, hlook]

end Runs

def otherByte (byte : UInt8) : UInt8 := if byte = 0 then 1 else 0

theorem otherByte_ne (byte : UInt8) : otherByte byte ≠ byte := by
  unfold otherByte
  split
  · rename_i hzero
    rw [hzero]
    decide
  · rename_i hne
    exact Ne.symm hne

/-- The bytes sent to a client depend on nothing but what has happened on its own connection,
just if none of them was stored by the recv of another connection. They are then the same in
every run that differs from this one in the bytes of the other clients only; and in any run at
all in which as much happens on the connection, if there, too, its bytes are its own. -/
theorem isolated_iff {sockfd c : Nat} {s : State × List Seen}
    (h : Reachable (watched sockfd c) (State.init sockfd, []) s) :
    Own s.1 c ↔
      (∀ t, Reachable (watched sockfd c) (State.init sockfd, []) t → t.2 = s.2 →
        echoed t.1 c = echoed s.1 c) ∧
      ∀ c' t, Reachable (watched sockfd c') (State.init sockfd, []) t → Own t.1 c' →
        look t.2 = look s.2 → echoed t.1 c' = echoed s.1 c := by
  refine ⟨isolated_of_own h, fun hsame => ?_⟩
  exact own_of_bytes otherByte_ne (hsame.1 _ (painted_run otherByte h) rfl)

/-- It is enough that the clients take turns: no recv stores a byte while another connection has
something in the buffer. -/
theorem isolated_of_turns {sockfd c : Nat} {s : State × List Seen}
    (h : Reachable (restrict (fun s event => Turn s.1 event) (watched sockfd c))
      (State.init sockfd, []) s) :
    (∀ t, Reachable (watched sockfd c) (State.init sockfd, []) t → t.2 = s.2 →
      echoed t.1 c = echoed s.1 c) ∧
    ∀ c' t, Reachable (restrict (fun s event => Turn s.1 event) (watched sockfd c'))
      (State.init sockfd, []) t → look t.2 = look s.2 → echoed t.1 c' = echoed s.1 c := by
  rcases isolated_of_own h.of_restrict (own_of_turns h c) with ⟨hscene, hlook⟩
  exact ⟨hscene, fun c' t ht => hlook c' t ht.of_restrict (own_of_turns ht c')⟩

def connect (fd : Int) : List Event :=
  [.move (.submit 2), .move (.complete 0 fd), .move .handle]

def twoClients : List Event := connect 5 ++ connect 6 ++ [.move (.submit 2)]

def receive (i : Nat) (data : List UInt8) : List Event :=
  [.store i data, .move (.complete i data.length), .move .handle, .move (.submit 1)]

def give (i count : Nat) : List Event :=
  [.transmit i count, .move (.complete i count), .move .handle, .move (.submit 1)]

def hi : List UInt8 := [104, 105]

def ok : List UInt8 := [111, 107]

def no : List UInt8 := [110, 111]

def inTurn : List Event := twoClients ++ receive 0 hi ++ give 2 2 ++ receive 1 ok ++ give 2 2

theorem isolated_in_turn : ∃ s, Reachable (watched 3 1) (State.init 3, []) s ∧
    echoed s.1 1 = hi ∧ echoed s.1 2 = ok ∧
    (∀ t, Reachable (watched 3 1) (State.init 3, []) t → t.2 = s.2 →
      echoed t.1 1 = echoed s.1 1) ∧
    ∀ c t, Reachable (watched 3 c) (State.init 3, []) t → Own t.1 c → look t.2 = look s.2 →
      echoed t.1 c = echoed s.1 1 := by
  have hview : (run (watched 3 1) (State.init 3, []) inTurn).map
      (fun s => (decide (Own s.1 1), echoed s.1 1, echoed s.1 2)) = some (true, hi, ok) := by
    decide +kernel
  rcases Reachable.of_view hview with ⟨s, hreach, hs⟩
  rw [Prod.mk.injEq, Prod.mk.injEq, decide_eq_true_eq] at hs
  exact ⟨s, hreach, hs.2.1, hs.2.2, (isolated_iff hreach).mp hs.1⟩

def overlap (data : List UInt8) : List Event :=
  twoClients ++ receive 0 hi ++ [.store 1 data, .transmit 2 2]

/-- The first client sends the same in both runs, and gets what the second one has sent. -/
theorem other_bytes_echoed : ∃ s t, Reachable (watched 3 1) (State.init 3, []) s ∧
    Reachable (watched 3 1) (State.init 3, []) t ∧ t.2 = s.2 ∧
    look s.2 = [.got hi, .gave 2] ∧ echoed s.1 1 = ok ∧ echoed t.1 1 = no := by
  have hscene : (run (watched 3 1) (State.init 3, []) (overlap no)).map Prod.snd =
      (run (watched 3 1) (State.init 3, []) (overlap ok)).map Prod.snd := by
    decide +kernel
  have hfirst : (run (watched 3 1) (State.init 3, []) (overlap ok)).map
      (fun s => (look s.2, echoed s.1 1)) = some ([.got hi, .gave 2], ok) := by
    decide +kernel
  have hsecond : (run (watched 3 1) (State.init 3, []) (overlap no)).map
      (fun t => echoed t.1 1) = some no := by
    decide +kernel
  rcases Option.map_eq_some_iff.mp hfirst with ⟨s, hrun, hs⟩
  rcases Option.map_eq_some_iff.mp hsecond with ⟨t, hrun', ht⟩
  rw [Prod.mk.injEq] at hs
  rw [hrun, hrun'] at hscene
  exact ⟨s, t, ⟨_, hrun⟩, ⟨_, hrun'⟩, Option.some.inj hscene, hs.1, hs.2, ht⟩

end IoWrapper.MsgEcho.Isolation
