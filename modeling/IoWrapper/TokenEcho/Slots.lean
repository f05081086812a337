import IoWrapper.TokenEcho.Entries

/-! The accept slots and the operations of the connections. While no completion fails
and no entry is dropped, every slot is counted or has its accept outstanding, and every
connection has its one operation. A completion that fails is printed and passed over:
its slot, or its connection with the buffer and the descriptor, is not seen again. -/
namespace IoWrapper.TokenEcho.Slots
open Core.Machine Core.Rings Core.Tables Core.Pool Server Operations Entries

/-- All accept slots are in use, and every connection has one operation outstanding. -/
structure InOrder (s : State) : Prop where
  slots : s.accept.count + (outstanding s).count s.accept.entry = acceptSlots
  served : ∀ key token, s.tokenAlloc.lookup key = some token → token ≠ .accept →
    ((outstanding s).countP fun entry => entry.userData == key) = 1

/-- A completion that the kernel posts has not failed. -/
def Succeeds : Event → Prop
  | .complete _ result => 0 ≤ result
  | _ => True

instance : DecidablePred Succeeds
  | .complete _ result => inferInstanceAs (Decidable (0 ≤ result))
  | .submitAndWait _ | .wake | .cleanBacklog _ | .pushAccepts | .handle _ | .endPass =>
    isTrue trivial

/-- The server has at most as many connections as the queue has places, and no
completion fails. -/
def Calm (s : State) (event : Event) : Prop := Within ringEntries s event ∧ Succeeds event

instance (s : State) (event : Event) : Decidable (Calm s event) :=
  inferInstanceAs (Decidable (_ ∧ _))

def pendingCqes (s : State) : List Cqe := s.cq.visible ++ s.cq.arrived

theorem mem_pendingCqes_step {s t : State} {event : Event} (h : Step s event t) {cqe : Cqe}
    (hcqe : cqe ∈ pendingCqes t) :
    cqe ∈ pendingCqes s ∨ ∃ i, event = .complete i cqe.result := by
  have hwalked : ∀ {own : Cqe} {rest : List Cqe}, s.cq.visible = own :: rest →
      cqe ∈ rest ++ s.cq.arrived → cqe ∈ pendingCqes s := by
    intro own rest hcq hmem
    rw [pendingCqes, hcq, List.cons_append]
    exact List.mem_cons_of_mem own hmem
  cases h with
  | submitted | failed | cleanBusy | accepts | passEnded => exact Or.inl hcqe
  | busy | woke =>
    simp only [pendingCqes, CompletionQueue.sync, List.append_nil] at hcqe
    exact Or.inl hcqe
  | cleaned | refilled | dropped =>
    simp only [pendingCqes, settled_cq] at hcqe
    exact Or.inl hcqe
  | handledError hpc hcq => exact Or.inl (hwalked hcq hcqe)
  | panicked hpc hcq => exact Or.inl (hwalked hcq hcqe)
  | handledHangup hpc hcq => exact Or.inl (hwalked hcq hcqe)
  | handledAccept hpc hcq | handledPoll hpc hcq | handledRead hpc hcq | handledWrite hpc hcq =>
    rw [pendingCqes, enqueue_cq] at hcqe
    exact Or.inl (hwalked hcq hcqe)
  | @completed i entry result hentry =>
    simp only [pendingCqes, CompletionQueue.post, ← List.append_assoc] at hcqe
    rcases List.mem_append.mp hcqe with hcqe | hcqe
    · exact Or.inl hcqe
    · rw [List.mem_singleton.mp hcqe]
      exact Or.inr ⟨i, rfl⟩

theorem result_nonneg {listenFd : Nat} {s : State}
    (h : Reachable (restrict Calm step) (State.init listenFd) s) :
    ∀ cqe ∈ pendingCqes s, 0 ≤ cqe.result := by
  refine h.invariant (fun s => ∀ cqe ∈ pendingCqes s, 0 ≤ cqe.result) ?_ ?_
  · intro cqe hcqe
    cases hcqe
  · intro s event t _ hs hstep cqe hcqe
    rcases restrict_eq_some.mp hstep with ⟨hcalm, hstep⟩
    rcases mem_pendingCqes_step (step_sound hstep) hcqe with hmem | ⟨i, rfl⟩
    · exact hs cqe hmem
    · exact hcalm.2

def Alive (s : State) : Prop :=
  ∀ key token, s.tokenAlloc.lookup key = some token → token ≠ .accept →
    ∃ entry ∈ outstanding s, entry.userData = key

def Slotted (s : State) : Prop :=
  s.accept.count + (outstanding s).count s.accept.entry = acceptSlots

theorem mem_rest {s : State} {entry : Entry} {rest : List Entry} {key : Nat}
    (hops : (outstanding s).Perm (entry :: rest)) (hkey : key ≠ entry.userData)
    (h : ∃ own ∈ outstanding s, own.userData = key) : ∃ own ∈ rest, own.userData = key := by
  rcases h with ⟨own, hown, heq⟩
  rcases List.mem_cons.mp (hops.mem_iff.mp hown) with hsame | hown
  · exact absurd (by rw [← heq, hsame]) hkey
  · exact ⟨own, hown, heq⟩

theorem alive_place {s t : State} {entry : Entry} {rest : List Entry} {key : Nat} {op : Op}
    {token : Token} (h : Alive s) (htokens : t.tokenAlloc = s.tokenAlloc.insert key token)
    (hops : (outstanding s).Perm (entry :: rest))
    (hops' : (outstanding t).Perm (⟨op, key⟩ :: rest))
    (hentry : ∀ other own, other ≠ key → s.tokenAlloc.lookup other = some own →
      own ≠ .accept → other ≠ entry.userData) : Alive t := by
  intro other own hown hopen
  rw [htokens] at hown
  by_cases heq : other = key
  · exact ⟨⟨op, key⟩, hops'.mem_iff.mpr (List.mem_cons_self ..), heq.symm⟩
  · rw [AList.lookup_insert_ne heq] at hown
    rcases mem_rest hops (hentry other own heq hown hopen) (h other own hown hopen) with
      ⟨last, hlast, hkey⟩
    exact ⟨last, hops'.mem_iff.mpr (List.mem_cons_of_mem _ hlast), hkey⟩

theorem alive_move {s t : State} (h : Alive s)
    (hlinked : Linked s.accept.entry s.tokenAlloc (outstanding s)) (hmove : Move s t)
    (hroom : (unseen s).length ≤ ringEntries) (hcqes : ∀ cqe ∈ pendingCqes s, 0 ≤ cqe.result) :
    Alive t := by
  cases hmove with
  | idle haccept htokens hpool halloc hops =>
    intro key token htoken hopen
    rw [htokens] at htoken
    rcases h key token htoken hopen with ⟨own, hown, heq⟩
    exact ⟨own, hops.mem_iff.mpr hown, heq⟩
  | dropped entry hentry haccept htokens hpool halloc hfull hpc hops =>
    have hall := unpublished_of_settled_full hfull
    have hpos := List.length_pos_of_mem hentry
    rw [unseen, List.length_append] at hroom
    omega
  | armed pushed haccept hcount htokens hpool halloc hops =>
    intro key token htoken hopen
    rw [htokens] at htoken
    rcases h key token htoken hopen with ⟨own, hown, heq⟩
    exact ⟨own, hops.mem_iff.mpr (List.mem_append_right _ hown), heq⟩
  | errored cqe hcqe hret =>
    have := hcqes cqe (List.mem_append_left _ hcqe)
    omega
  | panicked entry htoken haccept htokens hpool halloc hops =>
    exact absurd htoken (hlinked.answered hops).lookup_ne_none
  | opened entry key fd htoken hkey haccept htokens hpool halloc rest hops hops' =>
    refine alive_place h htokens hops hops' ?_
    intro other own _ hown hopen
    rw [hlinked.only _ htoken]
    exact hlinked.key_ne hown hopen
  | filled entry fd bufIndex htoken haccept htokens htakes rest hops hops' =>
    exact alive_place h htokens hops hops' fun _ _ hne _ _ => hne
  | hungUp entry fd bufIndex htoken haccept htokens hpool halloc hops =>
    intro key token hkey hopen
    rw [htokens] at hkey
    have hne : key ≠ entry.userData := by
      rintro rfl
      rw [AList.lookup_erase] at hkey
      cases hkey
    rw [AList.lookup_erase_ne hne] at hkey
    exact mem_rest hops hne (h key token hkey hopen)
  | advanced entry token token' op returned htoken hopen haccept hserves hbuffer hkept htokens
      hpool halloc rest hops hops' =>
    exact alive_place h htokens hops hops' fun _ _ hne _ _ => hne

theorem count_of_ne {accept entry : Entry} (ops : List Entry)
    (h : entry.userData ≠ accept.userData) : (entry :: ops).count accept = ops.count accept := by
  apply List.count_cons_of_ne
  rintro rfl
  exact h rfl

theorem slotted_place {s t : State} {entry own : Entry} {rest : List Entry} (h : Slotted s)
    (haccept : t.accept = s.accept) (hops : (outstanding s).Perm (entry :: rest))
    (hops' : (outstanding t).Perm (own :: rest))
    (hentry : entry.userData ≠ s.accept.entry.userData)
    (hown : own.userData ≠ s.accept.entry.userData) : Slotted t := by
  unfold Slotted at h ⊢
  rw [hops.count_eq, count_of_ne rest hentry] at h
  rw [haccept, hops'.count_eq, count_of_ne rest hown]
  exact h

theorem eq_accept {accept entry : Entry} {tokens : Table Token} {ops : List Entry}
    (h : Linked accept tokens (entry :: ops))
    (htoken : tokens.lookup entry.userData = some .accept) : entry = accept := by
  rcases h.serves entry (List.mem_cons_self ..) with heq | ⟨token, hlookup, hserves⟩
  · exact heq
  · rw [htoken] at hlookup
    exact absurd (Option.some.inj hlookup).symm (serves_ne_accept hserves)

theorem slotted_move {s t : State} (h : Slotted s)
    (hlinked : Linked s.accept.entry s.tokenAlloc (outstanding s)) (hmove : Move s t)
    (hroom : (unseen s).length ≤ ringEntries) (hcqes : ∀ cqe ∈ pendingCqes s, 0 ≤ cqe.result) :
    Slotted t := by
  cases hmove with
  | idle haccept htokens hpool halloc hops =>
    unfold Slotted
    rw [haccept, hops.count_eq]
    exact h
  | dropped entry hentry haccept htokens hpool halloc hfull hpc hops =>
    have hall := unpublished_of_settled_full hfull
    have hpos := List.length_pos_of_mem hentry
    rw [unseen, List.length_append] at hroom
    omega
  | armed pushed haccept hcount htokens hpool halloc hops =>
    unfold Slotted at h ⊢
    rw [haccept, hops.count_eq, List.count_append, List.count_replicate_self]
    omega
  | errored cqe hcqe hret =>
    have := hcqes cqe (List.mem_append_left _ hcqe)
    omega
  | panicked entry htoken haccept htokens hpool halloc hops =>
    exact absurd htoken (hlinked.answered hops).lookup_ne_none
  | opened entry key fd htoken hkey haccept htokens hpool halloc rest hops hops' =>
    have hentry := eq_accept (hlinked.answered hops) htoken
    have hfresh := (hlinked.notMem hkey).1
    unfold Slotted at h ⊢
    rw [hops.count_eq, hentry, List.count_cons_self] at h
    rw [haccept, hops'.count_eq, count_of_ne rest hfresh]
    dsimp only
    omega
  | filled entry fd bufIndex htoken haccept htokens htakes rest hops hops' =>
    have hkey := hlinked.key_ne htoken Token.noConfusion
    exact slotted_place h haccept hops hops' hkey hkey
  | hungUp entry fd bufIndex htoken haccept htokens hpool halloc hops =>
    have hkey := hlinked.key_ne htoken Token.noConfusion
    unfold Slotted at h ⊢
    rw [hops.count_eq, count_of_ne _ hkey] at h
    rw [haccept]
    exact h
  | advanced entry token token' op returned htoken hopen haccept hserves hbuffer hkept htokens
      hpool halloc rest hops hops' =>
    have hkey := hlinked.key_ne htoken hopen
    exact slotted_place h haccept hops hops' hkey hkey

theorem calm_invariant {listenFd : Nat} {s : State}
    (h : Reachable (restrict Calm step) (State.init listenFd) s) : Slotted s ∧ Alive s := by
  refine h.invariant (fun s => Slotted s ∧ Alive s) ⟨?_, ?_⟩ ?_
  · change 0 + (outstanding (State.init listenFd)).count ⟨.accept listenFd, 0⟩ = acceptSlots
    rw [outstanding_init, List.count_replicate_self]
    rfl
  · intro key token htoken hopen
    have hkey : key = 0 := List.mem_singleton.mp (AList.mem_keys.mp (mem_of_lookup htoken))
    rw [hkey] at htoken
    exact absurd (Option.some.inj htoken).symm hopen
  · intro s event t hreach hs hstep
    rcases restrict_eq_some.mp hstep with ⟨hcalm, hstep⟩
    have hlinked := linked_of_reachable hreach.of_restrict
    have hroom := Nat.le_trans (unseen_le hreach.of_restrict) hcalm.1
    have hmove := move_step (step_sound hstep)
    exact ⟨slotted_move hs.1 hlinked hmove hroom (result_nonneg hreach),
      alive_move hs.2 hlinked hmove hroom (result_nonneg hreach)⟩

/-- While no completion fails and the queue has a place for each connection, the accept
slots are all in use and every connection has one operation outstanding. -/
theorem inOrder_of_calm {listenFd : Nat} {s : State}
    (h : Reachable (restrict Calm step) (State.init listenFd) s) : InOrder s := by
  have hinvariant := calm_invariant h
  have hlinked := linked_of_reachable h.of_restrict
  refine ⟨hinvariant.1, ?_⟩
  intro key token htoken hopen
  rcases hinvariant.2 key token htoken hopen with ⟨entry, hentry, heq⟩
  have hle := hlinked.single key (hlinked.key_ne htoken hopen)
  have hpos : 0 < (outstanding s).countP fun entry => entry.userData == key :=
    List.countP_pos_iff.mpr ⟨entry, hentry, by simpa using heq⟩
  omega

def oneMessage : List Event :=
  oneRead ++ ([.endPass, .submitAndWait .ok, .wake, .cleanBacklog .ok, .pushAccepts, .endPass,
    .submitAndWait .ok] : List Event)

theorem oneMessage_spec :
    (run (restrict Calm step) (State.init 3) oneMessage).map
      (fun s => (s.accept.count, (outstanding s).count s.accept.entry, s.tokenAlloc.lookup 1)) =
      some (0, 3, some (.read 5 0)) := by
  decide +kernel

theorem oneMessage_inOrder : ∃ s, Reachable (restrict Calm step) (State.init 3) s ∧ InOrder s := by
  rcases Reachable.of_view oneMessage_spec with ⟨s, hreach, -⟩
  exact ⟨s, hreach, inOrder_of_calm hreach⟩

def acceptFails : List Event :=
  [.submitAndWait .ok, .complete 0 (-24), .wake, .cleanBacklog .ok, .pushAccepts, .handle 0,
    .endPass]

def recvFails : List Event :=
  oneMessage ++ ([.complete 3 (-104), .wake, .cleanBacklog .ok, .pushAccepts, .handle 0,
    .endPass] : List Event)

theorem acceptFails_spec :
    (run step (State.init 3) acceptFails).map
      (fun s => (s.pc, s.accept.count, (outstanding s).count s.accept.entry)) =
      some (.submitAndWait, 0, 2) := by
  decide +kernel

theorem recvFails_spec :
    (run step (State.init 3) recvFails).map
      (fun s => (s.tokenAlloc.lookup 1, (outstanding s).countP fun entry => entry.userData == 1,
        s.bufpool, s.closed)) =
      some (some (.read 5 0), 0, [], []) := by
  decide +kernel

/-- An accept that fails is not armed again; and a connection whose receive fails keeps
its token, its buffer and its descriptor with nothing outstanding. -/
theorem failures_are_not_released :
    (∃ s, Reachable step (State.init 3) s ∧ ¬ InOrder s ∧ s.pc = .submitAndWait ∧
      s.accept.count + (outstanding s).count s.accept.entry = 2) ∧
    ∃ s, Reachable step (State.init 3) s ∧ ¬ InOrder s ∧
      s.tokenAlloc.lookup 1 = some (.read 5 0) ∧
      ((outstanding s).countP fun entry => entry.userData == 1) = 0 ∧
      s.bufpool = [] ∧ s.closed = [] := by
  constructor
  · rcases Reachable.of_view acceptFails_spec with ⟨s, hreach, hview⟩
    simp only [Prod.mk.injEq] at hview
    refine ⟨s, hreach, ?_, hview.1, by omega⟩
    intro horder
    have := horder.slots
    unfold acceptSlots at this
    omega
  · rcases Reachable.of_view recvFails_spec with ⟨s, hreach, hview⟩
    simp only [Prod.mk.injEq] at hview
    refine ⟨s, hreach, ?_, hview⟩
    intro horder
    have := horder.served 1 _ hview.1 Token.noConfusion
    omega

end IoWrapper.TokenEcho.Slots
