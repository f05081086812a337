import IoWrapper.TokenEcho.Operations

/-! Where a buffer is. A buffer of the slab is in the pool or with one token; the
handlers move it between the two, and a failed completion leaves it where it is.
An operation uses the buffer of its token, so no two operations share one. -/
namespace IoWrapper.TokenEcho.Buffers
open Core.Machine Core.Rings Core.Tables Server Operations

theorem buffer_of_serves {op : Op} {token : Token} (h : Serves op token) :
    op.buffer = token.buffer := by
  cases h <;> rfl

def Holds (s : State) (key b : Nat) : Prop :=
  ∃ token, s.tokenAlloc.lookup key = some token ∧ token.buffer = some b

/-- The places where a buffer is: one if it has been allocated. -/
def Placed (b : Nat) (s : State) : Prop :=
  s.bufpool.count b + weight (Token.holds b) s.tokenAlloc = if b ∈ s.bufAlloc then 1 else 0

theorem holds_none {token : Token} (b : Nat) (h : token.buffer = none) :
    Token.holds b token = 0 := by
  simp [Token.holds, h]

theorem holds_some {token : Token} (b : Nat) {own : Nat} (h : token.buffer = some own) :
    Token.holds b token = [own].count b := by
  unfold Token.holds
  rw [h, List.count_singleton]
  simp

theorem holds_or {token token' : Token} {returned : Option Nat} (b : Nat)
    (hbuffer : token.buffer = returned.or (token'.buffer))
    (hkept : returned ≠ none → token'.buffer = none) :
    Token.holds b token = returned.toList.count b + Token.holds b token' := by
  cases returned with
  | none => simp [Token.holds, hbuffer]
  | some own =>
    rw [holds_none b (hkept (Option.some_ne_none own)), holds_some b hbuffer]
    rfl

theorem placed_taken {s t : State} {entry : Entry} {fd bufIndex b : Nat} (h : Placed b s)
    (htoken : s.tokenAlloc.lookup entry.userData = some (.poll fd))
    (htokens : t.tokenAlloc = s.tokenAlloc.insert entry.userData (.read fd bufIndex))
    (htakes : Takes s bufIndex t.bufpool t.bufAlloc) : Placed b t := by
  have hweight := weight_insert (Token.holds b) (.read fd bufIndex) htoken
  rw [holds_none b rfl, holds_some b rfl] at hweight
  unfold Placed at h ⊢
  generalize hpool' : t.bufpool = pool at htakes ⊢
  generalize halloc' : t.bufAlloc = alloc at htakes ⊢
  cases htakes with
  | pooled hpool =>
    rw [hpool, List.count_cons] at h
    rw [List.count_singleton] at hweight
    rw [htokens, ← h]
    omega
  | fresh hpool hnew =>
    rw [hpool, List.count_nil] at h
    rw [htokens, List.count_nil]
    by_cases heq : bufIndex = b
    · rw [heq] at hnew hweight ⊢
      rw [if_neg hnew] at h
      rw [List.count_singleton_self] at hweight
      rw [if_pos (by simp)]
      omega
    · have hiff : b ∈ s.bufAlloc ++ [bufIndex] ↔ b ∈ s.bufAlloc := by
        simp [Ne.symm heq]
      simp only [hiff, ← h]
      rw [List.count_singleton, if_neg (by simpa using heq)] at hweight
      omega

theorem placed_move {s t : State} {b : Nat} (h : Placed b s) (hmove : Move s t) :
    Placed b t := by
  cases hmove with
  | idle _ htokens hpool halloc | dropped _ _ _ htokens hpool halloc
  | armed _ _ _ htokens hpool halloc | errored _ _ _ _ htokens hpool halloc
  | panicked _ _ _ htokens hpool halloc =>
    unfold Placed
    rw [htokens, hpool, halloc]
    exact h
  | opened entry key fd htoken hkey haccept htokens hpool halloc rest hops hops' =>
    unfold Placed
    rw [htokens, hpool, halloc, weight_insert_of_notMem _ _ hkey, holds_none b rfl, Nat.zero_add]
    exact h
  | filled entry fd bufIndex htoken haccept htokens htakes rest hops hops' =>
    exact placed_taken h htoken htokens htakes
  | hungUp entry fd bufIndex htoken haccept htokens hpool halloc hops =>
    have hweight := weight_erase (Token.holds b) htoken
    rw [holds_some b rfl] at hweight
    unfold Placed at h ⊢
    rw [htokens, hpool, halloc, ← h, ← List.singleton_append, List.count_append]
    omega
  | advanced entry token token' op returned htoken hopen haccept hserves hbuffer hkept htokens
      hpool halloc rest hops hops' =>
    have hweight := weight_insert (Token.holds b) token' htoken
    rw [holds_or b hbuffer hkept] at hweight
    unfold Placed at h ⊢
    rw [htokens, hpool, halloc, ← h, List.count_append]
    omega

theorem placed_of_reachable {listenFd : Nat} {s : State}
    (h : Reachable step (State.init listenFd) s) (b : Nat) : Placed b s := by
  refine h.invariant (Placed b) rfl ?_
  intro s event t _ hs hstep
  exact placed_move hs (move_step (step_sound hstep))

theorem weight_pos_of_holds {s : State} {key b : Nat} (h : Holds s key b) :
    0 < weight (Token.holds b) s.tokenAlloc := by
  rcases h with ⟨token, htoken, hbuffer⟩
  have := le_weight (Token.holds b) htoken
  rw [holds_some b hbuffer, List.count_singleton_self] at this
  exact this

theorem holds_unique {s : State} {key other b : Nat}
    (hone : weight (Token.holds b) s.tokenAlloc ≤ 1) (h : Holds s key b) (h' : Holds s other b) :
    other = key := by
  rcases h with ⟨token, htoken, hbuffer⟩
  rcases h' with ⟨token', htoken', hbuffer'⟩
  by_contra hne
  have := add_le_weight (Token.holds b) hne htoken htoken'
  rw [holds_some b hbuffer, holds_some b hbuffer', List.count_singleton_self] at this
  omega

theorem exists_holds {s : State} {b : Nat} (h : 0 < weight (Token.holds b) s.tokenAlloc) :
    ∃ key, Holds s key b := by
  rcases exists_of_weight_pos h with ⟨key, token, htoken, hpos⟩
  refine ⟨key, token, htoken, ?_⟩
  by_contra hne
  simp [Token.holds, hne] at hpos

theorem holds_of_op {listenFd : Nat} {s : State} (h : Reachable step (State.init listenFd) s)
    {entry : Entry} {b : Nat} (hentry : entry ∈ outstanding s)
    (hbuffer : entry.op.buffer = some b) : Holds s entry.userData b := by
  rcases (linked_of_reachable h).serves entry hentry with heq | ⟨token, htoken, hserves⟩
  · rw [heq, accept_entry_of_reachable h] at hbuffer
    cases hbuffer
  · refine ⟨token, htoken, ?_⟩
    rw [← buffer_of_serves hserves]
    exact hbuffer

theorem countP_buffer_le {listenFd : Nat} {s : State}
    (h : Reachable step (State.init listenFd) s) (b : Nat) :
    (outstanding s).countP (fun entry => entry.op.buffer == some b) ≤ 1 := by
  have hlinked := linked_of_reachable h
  have hplaced := placed_of_reachable h b
  have hone : weight (Token.holds b) s.tokenAlloc ≤ 1 := by
    unfold Placed at hplaced
    split at hplaced <;> omega
  by_cases hany : ∃ entry ∈ outstanding s, entry.op.buffer = some b
  · rcases hany with ⟨entry, hentry, hbuffer⟩
    have hholds := holds_of_op h hentry hbuffer
    have hkey : entry.userData ≠ s.accept.entry.userData := by
      rcases hholds with ⟨token, htoken, htaken⟩
      refine hlinked.key_ne htoken ?_
      rintro rfl
      cases htaken
    refine Nat.le_trans ?_ (hlinked.single _ hkey)
    apply List.countP_mono_left
    intro other hother hsame
    rw [beq_iff_eq] at hsame ⊢
    exact holds_unique hone hholds (holds_of_op h hother hsame)
  · rw [List.countP_eq_zero.mpr]
    · exact Nat.zero_le 1
    · intro entry hentry hbuffer
      exact hany ⟨entry, hentry, beq_iff_eq.mp hbuffer⟩

theorem place_of_mem {listenFd : Nat} {s : State} (h : Reachable step (State.init listenFd) s)
    {b : Nat} (hb : b ∈ s.bufAlloc) :
    (s.bufpool.count b = 1 ∧ ∀ key, ¬ Holds s key b) ∨
      (b ∉ s.bufpool ∧ ∃! key, Holds s key b) := by
  have hplaced := placed_of_reachable h b
  unfold Placed at hplaced
  rw [if_pos hb] at hplaced
  by_cases hzero : weight (Token.holds b) s.tokenAlloc = 0
  · refine Or.inl ⟨by omega, fun key hkey => ?_⟩
    have := weight_pos_of_holds hkey
    omega
  · refine Or.inr ⟨List.count_eq_zero.mp (by omega), ?_⟩
    rcases exists_holds (Nat.pos_of_ne_zero hzero) with ⟨key, hkey⟩
    exact ⟨key, hkey, fun other hother => holds_unique (by omega) hkey hother⟩

/-- Whatever the completions return, a buffer of the slab is once in the pool and
with no token, or with one token and not in the pool; and at most one outstanding
operation reads into it or writes from it. -/
theorem buffer_has_one_place {listenFd : Nat} {s : State}
    (h : Reachable step (State.init listenFd) s) :
    (∀ b ∈ s.bufAlloc, (s.bufpool.count b = 1 ∧ ∀ key, ¬ Holds s key b) ∨
      (b ∉ s.bufpool ∧ ∃! key, Holds s key b)) ∧
    ∀ b, (outstanding s).countP (fun entry => entry.op.buffer == some b) ≤ 1 :=
  ⟨fun _ hb => place_of_mem h hb, countP_buffer_le h⟩

theorem oneRead_spec :
    (run step (State.init 3) oneRead).map
      (fun s => (s.bufAlloc, s.bufpool, s.tokenAlloc.lookup 1)) =
      some ([0], [], some (.read 5 0)) := by
  decide +kernel

theorem oneRead_places : ∃ s, Reachable step (State.init 3) s ∧ 0 ∈ s.bufAlloc ∧
    ((s.bufpool.count 0 = 1 ∧ ∀ key, ¬ Holds s key 0) ∨
      (0 ∉ s.bufpool ∧ ∃! key, Holds s key 0)) := by
  rcases Reachable.of_view oneRead_spec with ⟨s, hreach, hview⟩
  have halloc : s.bufAlloc = [0] := congrArg Prod.fst hview
  have hmem : 0 ∈ s.bufAlloc := by
    rw [halloc]
    exact List.mem_singleton_self 0
  exact ⟨s, hreach, hmem, (buffer_has_one_place hreach).1 0 hmem⟩

end IoWrapper.TokenEcho.Buffers
