import IoWrapper.EchoV2.Records

/-! The way of the buffers through the ring. Every entry that the server writes has the id 0
and goes to the slot at the tail, and the tail then moves by the number of entries written.
So the ring is as it was set up only as long as the one buffer that has come back is the
first one: after the second READ completion a buffer is missing or listed twice. -/
namespace IoWrapper.EchoV2.Recycling
open Core.Machine Core.BufRing Server Records
open EchoV1.Server (Setup backlog)

def held (s : State) : List Buf := s.cq.filterMap Cqe.used

/-- Every buffer is available or held, once, and what is available is a buffer of the pool
under its own id. -/
structure Recycled (s : State) : Prop where
  once : ((s.bufRing.available nrBufs ++ held s).map Buf.bid).Perm (List.range nrBufs)
  addr : ∀ buf ∈ s.bufRing.available nrBufs, buf.addr = .pool buf.bid

/-- The READ completions that the server is through with when it moves the tail. -/
def readsNote (s : State) : Event → List Cqe
  | .endBatch => s.reads
  | _ => []

/-- At most one READ completion, with a buffer. -/
def FirstOnly (reads : List Cqe) : Prop := reads.length ≤ 1 ∧ ∀ cqe ∈ reads, cqe.used ≠ none

def place (u : Setup) (i : Nat) : Buf := poolBuf u (i % nrBufs)

/-- The counters after `done` READ completions in earlier batches. -/
structure Counted (done : Nat) (s : State) : Prop where
  tail : s.bufRing.tail = nrBufs + done
  head : s.bufRing.head ≤ s.bufRing.tail
  used : done + (s.reads.filterMap Cqe.used).length + (held s).length = s.bufRing.head
  batch : s.reads.length + s.todo ≤ backlog
  idle : s.pc = .submitting ∨ s.pc = .peeking → s.reads = []

/-- The slots are as they were set up, but for the one at the tail in a batch with reads. -/
structure Unchanged (u : Setup) (done : Nat) (s : State) : Prop where
  taken : s.reads.filterMap Cqe.used ++ held s =
    (List.range' done (s.bufRing.head - done)).map (place u)
  slots : ∀ i < nrBufs, (s.reads ≠ [] → i ≠ done) → s.bufRing.slots i = poolBuf u i
  last : ∀ cqe, s.reads.getLast? = some cqe →
    s.bufRing.slots done = ⟨.pool cqe.bufId, u.msgLen, 0⟩

structure Kept (u : Setup) (done : Nat) (s : State) : Prop where
  first : done ≤ 1
  counted : Counted done s
  unchanged : (∀ cqe ∈ s.reads, cqe.used ≠ none) → Unchanged u done s

theorem used_length_iff {reads : List Cqe} :
    (reads.filterMap Cqe.used).length = reads.length ↔ ∀ cqe ∈ reads, cqe.used ≠ none := by
  simp only [List.filterMap_length_eq_length, Option.isSome_iff_ne_none]

section Moves

variable {u : Setup} {s t : State} {done : Nat} {cqe : Cqe}

theorem tail_mod (h : Kept u done s) : s.bufRing.tail % nrBufs = done := by
  have := h.first
  rw [h.counted.tail, nrBufs]
  omega

theorem Kept.of_eq (h : Kept u done s) (hring : t.bufRing = s.bufRing) (hreads : t.reads = s.reads)
    (hheld : held t = held s) (hbatch : t.reads.length + t.todo ≤ backlog)
    (hidle : t.pc = .submitting ∨ t.pc = .peeking → t.reads = []) : Kept u done t := by
  refine ⟨h.first, ⟨?_, ?_, ?_, hbatch, hidle⟩, ?_⟩
  · rw [hring, h.counted.tail]
  · rw [hring]
    exact h.counted.head
  · rw [hring, hreads, hheld, h.counted.used]
  · intro hused
    have hsame := h.unchanged (hreads ▸ hused)
    refine ⟨?_, ?_, ?_⟩
    · rw [hring, hreads, hheld, hsame.taken]
    · rw [hring, hreads]
      exact hsame.slots
    · rw [hring, hreads]
      exact hsame.last

theorem Kept.takeBuf {i : Nat} (h : Kept u done s)
    (hused : cqe.used = some (s.bufRing.first nrBufs)) (hcount : s.bufRing.count ≠ 0) :
    Kept u done (s.takeBuf.completed i cqe) := by
  have hheld : held (s.takeBuf.completed i cqe) = held s ++ [s.bufRing.first nrBufs] := by
    simp [held, State.completed, State.takeBuf, hused]
  have hhead : s.bufRing.head < s.bufRing.tail := by
    apply Nat.lt_of_le_of_ne h.counted.head
    intro heq
    exact hcount (by simp [SlotRing.count, heq])
  have hcounted := h.counted.used
  refine ⟨h.first, ⟨h.counted.tail, hhead, ?_, h.counted.batch, h.counted.idle⟩, ?_⟩
  · have hlen := congrArg List.length hheld
    rw [List.length_append, List.length_singleton] at hlen
    change done + (s.reads.filterMap Cqe.used).length + _ = s.bufRing.head + 1
    omega
  · intro hall
    have hsame := h.unchanged hall
    have hfirst : s.bufRing.first nrBufs = place u s.bufRing.head := by
      apply hsame.slots _ (Nat.mod_lt _ (by decide))
      intro hne
      have hlen : (s.reads.filterMap Cqe.used).length = s.reads.length :=
        used_length_iff.mpr hall
      have hpos := List.length_pos_iff.mpr hne
      have htail := h.counted.tail
      have hdone := h.first
      unfold nrBufs at htail ⊢
      omega
    refine ⟨?_, hsame.slots, hsame.last⟩
    have hsucc : s.bufRing.head + 1 - done = s.bufRing.head - done + 1 := by omega
    rw [hheld, ← List.append_assoc]
    change (s.reads.filterMap Cqe.used ++ held s) ++ _ = _
    rw [hsame.taken, hfirst]
    change _ = (List.range' done (s.bufRing.head + 1 - done)).map (place u)
    rw [hsucc, List.range'_concat, List.map_append, Nat.one_mul,
      Nat.add_sub_of_le (by omega : done ≤ s.bufRing.head)]
    rfl

theorem Kept.addBuf {rest : List Cqe} {todo : Nat} (h : Kept u done s) (hpc : s.pc = .batch)
    (hcq : s.cq = cqe :: rest) (htodo : s.todo = todo + 1) :
    Kept u done (s.next.addBuf u cqe) := by
  have hheld : held (s.next.addBuf u cqe) = rest.filterMap Cqe.used := by
    simp [held, State.addBuf, State.next, hcq]
  have hbefore : held s = cqe.used.toList ++ rest.filterMap Cqe.used := by
    cases hused : cqe.used <;> simp [held, hcq, hused]
  have hreads : (s.next.addBuf u cqe).reads.filterMap Cqe.used =
      s.reads.filterMap Cqe.used ++ cqe.used.toList := by
    cases hused : cqe.used <;> simp [State.addBuf, State.next, hused]
  have hlist : (s.next.addBuf u cqe).reads.filterMap Cqe.used ++ held (s.next.addBuf u cqe) =
      s.reads.filterMap Cqe.used ++ held s := by
    rw [hreads, hheld, hbefore, List.append_assoc]
  refine ⟨h.first, ⟨h.counted.tail, h.counted.head, ?_, ?_, ?_⟩, ?_⟩
  · have hlen := congrArg List.length hlist
    rw [List.length_append, List.length_append] at hlen
    have hcounted := h.counted.used
    change _ = s.bufRing.head
    omega
  · have hbatch := h.counted.batch
    rw [htodo] at hbatch
    simp only [State.addBuf, State.next, htodo, List.length_append, List.length_singleton]
    omega
  · intro hidle
    change s.pc = _ ∨ s.pc = _ at hidle
    simp [hpc] at hidle
  · intro hall
    have hsame := h.unchanged fun cqe' hmem => hall cqe' (List.mem_append_left _ hmem)
    have hslot : (s.bufRing.tail + 0) % nrBufs = done := tail_mod h
    refine ⟨hlist.trans hsame.taken, ?_, ?_⟩
    · intro i hi hne
      have hne := hne (by simp [State.addBuf])
      change Function.update s.bufRing.slots ((s.bufRing.tail + 0) % nrBufs) _ i = _
      rw [hslot, Function.update_of_ne hne]
      exact hsame.slots i hi fun _ => hne
    · intro last hlast
      have heq : last = cqe := by simpa [State.addBuf] using hlast.symm
      change Function.update s.bufRing.slots ((s.bufRing.tail + 0) % nrBufs) _ done = _
      rw [hslot, Function.update_self, heq]

theorem Kept.pass {rest : List Cqe} {todo : Nat} (h : Kept u done s) (hcq : s.cq = cqe :: rest)
    (htodo : s.todo = todo + 1) (hused : cqe.used = none) (hpc : s.pc = .batch)
    (hring : t.bufRing = s.bufRing) (hreads : t.reads = s.reads) (hrest : t.cq = rest)
    (htodo' : t.todo = todo) (hpc' : t.pc = s.pc) : Kept u done t := by
  apply h.of_eq hring hreads
  · simp [held, hrest, hcq, hused]
  · have := h.counted.batch
    rw [hreads, htodo']
    omega
  · rw [hpc', hpc]
    simp

theorem Kept.advance_first (h : Kept u 0 s) (hreads : s.reads = [cqe]) (hused : cqe.used ≠ none) :
    Kept u 1 s.advance := by
  have hsame := h.unchanged (by simp [hreads, hused])
  rcases Option.ne_none_iff_exists'.mp hused with ⟨buf, hbuf⟩
  have htaken := hsame.taken
  simp only [hreads, List.filterMap_cons, hbuf, List.filterMap_nil, Nat.sub_zero] at htaken
  have hpos : s.bufRing.head = s.bufRing.head - 1 + 1 := by
    have := h.counted.used
    simp only [hreads, List.filterMap_cons, hbuf, List.filterMap_nil, List.length_singleton] at this
    omega
  rw [hpos, List.range'_succ, List.map_cons, List.singleton_append, List.cons.injEq] at htaken
  -- The buffer that comes back is the first one, and it comes back to its own slot.
  have hslot : s.bufRing.slots 0 = poolBuf u 0 := by
    rw [hsame.last cqe (by simp [hreads]), bufId_of_used hbuf, htaken.1]
    rfl
  refine ⟨Nat.le_refl 1, ⟨?_, ?_, ?_, ?_, fun _ => rfl⟩, fun _ => ⟨htaken.2, ?_, nofun⟩⟩
  · simp [State.advance, hreads, h.counted.tail]
  · exact Nat.le_trans h.counted.head (Nat.le_add_right ..)
  · have := h.counted.used
    simp only [hreads, List.filterMap_cons, hbuf, List.filterMap_nil, List.length_singleton] at this
    simp only [State.advance, List.filterMap_nil, List.length_nil, SlotRing.advance_head]
    change 1 + 0 + (held s).length = _
    omega
  · have := h.counted.batch
    simp only [State.advance, List.length_nil]
    omega
  · intro i hi _
    by_cases hzero : i = 0
    · rw [hzero]
      exact hslot
    · exact hsame.slots i hi fun _ => hzero

theorem Kept.advance_nil (h : Kept u done s) (hreads : s.reads = []) : Kept u done s.advance := by
  apply h.of_eq
  · simp [State.advance, hreads, SlotRing.advance]
  · simp [State.advance, hreads]
  · rfl
  · have := h.counted.batch
    simp only [State.advance, List.length_nil]
    omega
  · exact fun _ => rfl

theorem window_unchanged {start count : Nat} (h : Unchanged u done s) (hreads : s.reads = []) :
    s.bufRing.window nrBufs start count = (List.range' start count).map (place u) := by
  apply List.map_congr_left
  intro i _
  exact h.slots _ (Nat.mod_lt _ (by decide)) (by simp [hreads])

theorem Kept.recycled (h : Kept u done s) (hreads : s.reads = []) : Recycled s := by
  have hsame := h.unchanged (by simp [hreads])
  have hused := h.counted.used
  have htail := h.counted.tail
  have hle := h.counted.head
  have hfirst := h.first
  have hcount : s.bufRing.count = nrBufs + done - s.bufRing.head := by
    rw [SlotRing.count_of_le _ (by unfold nrBufs at htail; omega), htail]
  have havailable : s.bufRing.available nrBufs =
      (List.range' s.bufRing.head (nrBufs + done - s.bufRing.head)).map (place u) := by
    rw [SlotRing.available, window_unchanged hsame hreads, hcount]
  constructor
  case once =>
    have htaken := hsame.taken
    rw [hreads, List.filterMap_nil, List.nil_append] at htaken
    have hround : List.range' done (s.bufRing.head - done) ++
        List.range' s.bufRing.head (nrBufs + done - s.bufRing.head) = List.range' done nrBufs := by
      have hsplit := @List.range'_append_1 done (s.bufRing.head - done)
        (nrBufs + done - s.bufRing.head)
      rw [Nat.add_sub_of_le (by omega)] at hsplit
      rw [hsplit]
      congr 1
      omega
    rw [havailable, htaken, List.map_append]
    refine List.perm_append_comm.trans ?_
    rw [← List.map_append, ← List.map_append, hround, List.map_map]
    exact SlotRing.round_perm done
  case addr =>
    intro buf hbuf
    rw [havailable] at hbuf
    rcases List.mem_map.mp hbuf with ⟨i, -, rfl⟩
    rfl

theorem not_recycled_of_unused (h : Kept u done s) (hunused : ¬∀ cqe ∈ s.reads, cqe.used ≠ none) :
    ¬Recycled s.advance := by
  intro hrecycled
  have hlt : (s.reads.filterMap Cqe.used).length < s.reads.length :=
    Nat.lt_of_le_of_ne (List.length_filterMap_le ..) fun heq => hunused (used_length_iff.mp heq)
  have hlen := hrecycled.once.length_eq
  have hused := h.counted.used
  have htail := h.counted.tail
  have hle := h.counted.head
  have hfirst := h.first
  have hbatch := h.counted.batch
  unfold backlog at hbatch
  unfold nrBufs at htail
  rw [List.length_map, List.length_append, List.length_range,
    SlotRing.available_length (by
      simp only [State.advance, SlotRing.advance_tail, SlotRing.advance_head]
      omega)] at hlen
  simp only [State.advance, SlotRing.advance_tail, SlotRing.advance_head] at hlen
  change s.bufRing.tail + s.reads.length - s.bufRing.head + (held s).length = nrBufs at hlen
  unfold nrBufs at hlen
  omega

/-- What the advance makes available starts with the last entry that was written, and then
comes what the slots after it held before. -/
theorem available_advance (h : Kept u done s) (hreads : s.reads ≠ []) :
    s.advance.bufRing.available nrBufs = s.bufRing.available nrBufs ++
      s.bufRing.slots done :: s.bufRing.window nrBufs (nrBufs + done + 1) (s.reads.length - 1) := by
  have htail := h.counted.tail
  have hfirst := h.first
  have hbatch := h.counted.batch
  have hpos := List.length_pos_iff.mpr hreads
  have hsucc : s.reads.length = s.reads.length - 1 + 1 := by omega
  have hmod := tail_mod h
  unfold backlog at hbatch
  change (s.bufRing.advance s.reads.length).available nrBufs = _
  rw [SlotRing.available_advance h.counted.head (by unfold nrBufs at htail; omega), hsucc,
    SlotRing.window_succ, hmod, htail]
  rfl

theorem last_bufId (h : Kept u done s) (hused : ∀ cqe ∈ s.reads, cqe.used ≠ none)
    (hlast : s.reads.getLast? = some cqe) :
    cqe.bufId = (done + s.reads.length - 1) % nrBufs := by
  rcases List.getLast?_eq_some_iff.mp hlast with ⟨front, hfront⟩
  rcases Option.ne_none_iff_exists'.mp (hused cqe (by simp [hfront])) with ⟨buf, hbuf⟩
  have hlen : (front.filterMap Cqe.used).length = front.length :=
    used_length_iff.mpr fun cqe' hmem => hused cqe' (by simp [hfront, hmem])
  have htaken := congrArg (·[front.length]?) (h.unchanged hused).taken
  have hcounted := h.counted.used
  simp only [hfront, List.filterMap_append, List.length_append, List.filterMap_cons, hbuf,
    List.filterMap_nil, List.length_singleton, hlen] at htaken hcounted ⊢
  rw [List.append_assoc, List.getElem?_append_right (by omega), hlen, Nat.sub_self,
    List.getElem?_map, List.getElem?_range' (by omega)] at htaken
  have hbuf' : buf = place u (done + front.length) := by simpa using htaken
  rw [bufId_of_used hbuf, hbuf']
  rfl

theorem first_of_recycled (h : Kept u done s) (hused : ∀ cqe ∈ s.reads, cqe.used ≠ none)
    (hreads : s.reads ≠ []) (hrecycled : Recycled s.advance) :
    done = 0 ∧ s.reads.length = 1 := by
  have hlast := List.getLast?_eq_getLast_of_ne_nil hreads
  have hslot := (h.unchanged hused).last _ hlast
  have havailable := available_advance h hreads
  have hzero : (s.reads.getLast hreads).bufId = 0 := by
    have haddr := hrecycled.addr (s.bufRing.slots done) (by rw [havailable]; simp)
    rw [hslot] at haddr
    exact Addr.pool.inj haddr
  have hplace := last_bufId h hused hlast
  rw [hzero] at hplace
  have hcounted := h.counted.used
  have htail := h.counted.tail
  have hle := h.counted.head
  have hfirst := h.first
  have hpos := List.length_pos_iff.mpr hreads
  have hlen : (s.reads.filterMap Cqe.used).length = s.reads.length := used_length_iff.mpr hused
  by_cases hdone : done = 0
  · refine ⟨hdone, ?_⟩
    unfold nrBufs at hplace htail
    omega
  · exfalso
    have hall : s.reads.length = nrBufs := by
      unfold nrBufs at hplace htail ⊢
      omega
    have hnodup := hrecycled.once.nodup_iff.mpr List.nodup_range
    rw [havailable, List.append_assoc, List.map_append, List.cons_append, List.map_cons] at hnodup
    have hnotMem := (List.nodup_cons.mp (List.nodup_append.mp hnodup).2.1).1
    apply hnotMem
    have hmem : s.bufRing.slots 0 ∈
        s.bufRing.window nrBufs (nrBufs + done + 1) (s.reads.length - 1) := by
      apply SlotRing.mem_window.mpr
      refine ⟨2 * nrBufs, ?_, ?_, ?_⟩
      · unfold nrBufs
        omega
      · rw [hall]
        unfold nrBufs
        omega
      · rw [Nat.mul_mod_left]
    have hfree : s.bufRing.slots 0 = poolBuf u 0 :=
      (h.unchanged hused).slots 0 (by decide) fun _ => Ne.symm hdone
    rw [hslot]
    refine List.mem_map.mpr ⟨s.bufRing.slots 0, List.mem_append_left _ hmem, ?_⟩
    rw [hfree]
    rfl

/-- A recv that has completed holds a buffer, and nothing else does. -/
def Tagged (s : State) : Prop := ∀ cqe ∈ s.cq, cqe.used ≠ none → cqe.entry.op.type = .read

theorem cq_of_answered (h : Answered u s cqe t) : t.cq = s.cq := by
  cases h with
  | accepted htype hpos hlt hmid => rcases hmid with rfl | rfl <;> rfl
  | hungUp | received | sent | ignored => rfl

theorem Tagged.step {event : Event} (h : Tagged s) (hstep : step u s event = some t) :
    Tagged t := by
  cases step_sound hstep with
  | submitted | failed | peeked | stopped | ended => exact h
  | answered hpc htodo hcq hok hanswered =>
    intro cqe hmem
    rw [cq_of_answered hanswered] at hmem
    exact h cqe (List.mem_of_mem_tail hmem)
  | @completed i sqe res takes hsqe hpossible =>
    intro cqe hmem hused
    cases takes with
    | true =>
      rcases List.mem_append.mp hmem with hmem | hmem
      · exact h cqe hmem hused
      · cases List.mem_singleton.mp hmem
        exact (hpossible.2.1 rfl).1
    | false =>
      rcases List.mem_append.mp hmem with hmem | hmem
      · exact h cqe hmem hused
      · cases List.mem_singleton.mp hmem
        exact absurd rfl hused

theorem Kept.answered {rest : List Cqe} {todo : Nat} (h : Kept u done s) (htagged : Tagged s)
    (hconns : s.conns cqe.entry.userData = ⟨cqe.entry.op.fd, cqe.entry.op.type⟩)
    (hpc : s.pc = .batch) (hcq : s.cq = cqe :: rest) (htodo : s.todo = todo + 1)
    (ht : Answered u s.next cqe t) : Kept u done t := by
  have hown : s.next.conns cqe.entry.userData = ⟨cqe.entry.op.fd, cqe.entry.op.type⟩ := hconns
  have hused : cqe.entry.op.type ≠ .read → cqe.used = none := by
    intro hne
    by_contra hsome
    exact hne (htagged cqe (by simp [hcq]) hsome)
  have hrest : s.next.cq = rest := by simp [State.next, hcq]
  have hleft : s.next.todo = todo := by simp [State.next, htodo]
  have hadded := h.addBuf hpc hcq htodo
  cases ht with
  | accepted htype hpos hlt hmid =>
    rw [hown] at htype
    have hnone := hused (fun hread => by cases htype.symm.trans hread)
    rcases hmid with rfl | rfl
    · exact h.pass hcq htodo hnone hpc rfl rfl hrest hleft rfl
    · exact h.pass hcq htodo hnone hpc rfl rfl hrest hleft rfl
  | hungUp htype hres =>
    exact hadded.of_eq rfl rfl rfl hadded.counted.batch hadded.counted.idle
  | received htype hres hlt =>
    exact hadded.of_eq rfl rfl rfl hadded.counted.batch hadded.counted.idle
  | sent htype hlt =>
    rw [hown] at htype
    have hnone := hused (fun hread => by cases htype.symm.trans hread)
    exact h.pass hcq htodo hnone hpc rfl rfl hrest hleft rfl
  | ignored htype =>
    rw [hown] at htype
    have hnone := hused (fun hread => by simp [hread] at htype)
    exact h.pass hcq htodo hnone hpc rfl rfl hrest hleft rfl

theorem Kept.complete {i : Nat} {sqe : Sqe} {res : Int} {takes : Bool} (h : Kept u done s)
    (hpossible : s.Possible sqe res takes) : Kept u done (s.complete i sqe res takes) := by
  cases takes with
  | true => exact h.takeBuf rfl (hpossible.2.1 rfl).2
  | false =>
    have hheld : held (s.complete i sqe res false) = held s := by
      simp [held, State.complete, State.completed]
    exact h.of_eq (t := s.complete i sqe res false) rfl rfl hheld h.counted.batch h.counted.idle

theorem Kept.step {event : Event} (h : Kept u done s)
    (hreach : Reachable (step u) (State.init u) s) (htagged : Tagged s)
    (hstep : step u s event = some t) (hend : event ≠ .endBatch) : Kept u done t := by
  cases step_sound hstep with
  | submitted hpc =>
    exact h.of_eq rfl rfl rfl h.counted.batch fun _ => h.counted.idle (.inl hpc)
  | failed | stopped => exact h.of_eq rfl rfl rfl h.counted.batch nofun
  | peeked hpc =>
    have hreads := h.counted.idle (.inr hpc)
    refine h.of_eq rfl rfl rfl ?_ nofun
    rw [hreads, List.length_nil, Nat.zero_add]
    exact Nat.min_le_left ..
  | answered hpc htodo hcq hok hanswered =>
    exact h.answered htagged (completion_finds_record hreach hcq) hpc hcq htodo hanswered
  | ended => exact absurd rfl hend
  | completed hsqe hpossible => exact h.complete hpossible

theorem Kept.advance (h : Kept u done s) (hle : done + s.reads.length ≤ 1)
    (hused : ∀ cqe ∈ s.reads, cqe.used ≠ none) : Kept u (done + s.reads.length) s.advance := by
  by_cases hreads : s.reads = []
  · rw [hreads]
    exact h.advance_nil hreads
  · have hpos := List.length_pos_iff.mpr hreads
    have hdone : done = 0 := by omega
    rcases List.length_eq_one_iff.mp (by omega : s.reads.length = 1) with ⟨cqe, hone⟩
    subst hdone
    rw [hone]
    exact h.advance_first hone (hused cqe (by simp [hone]))

theorem advance_iff (h : Kept u done s) : Recycled s.advance ↔
    done + s.reads.length ≤ 1 ∧ ∀ cqe ∈ s.reads, cqe.used ≠ none := by
  constructor
  · intro hrecycled
    have hused : ∀ cqe ∈ s.reads, cqe.used ≠ none := by
      by_contra hunused
      exact not_recycled_of_unused h hunused hrecycled
    refine ⟨?_, hused⟩
    by_cases hreads : s.reads = []
    · rw [hreads]
      exact h.first
    · rcases first_of_recycled h hused hreads hrecycled with ⟨hdone, hlen⟩
      omega
  · rintro ⟨hle, hused⟩
    exact (h.advance hle hused).recycled rfl

end Moves

theorem setUpBufs_slots {u : Setup} {i : Nat} (h : i < nrBufs) :
    (setUpBufs u).slots i = poolBuf u i :=
  SlotRing.fill_slots rfl (Nat.le_refl _) h

theorem kept_of_setUp {u : Setup} {s : State} (hring : s.bufRing = setUpBufs u)
    (hreads : s.reads = []) (hcq : s.cq = []) (htodo : s.todo = 0) : Kept u 0 s := by
  have hhead : s.bufRing.head = 0 := by
    rw [hring]
    exact SlotRing.fill_head rfl (Nat.le_refl _)
  have htail : s.bufRing.tail = nrBufs := by
    rw [hring]
    exact SlotRing.fill_tail rfl (Nat.le_refl _)
  refine ⟨Nat.zero_le 1, ⟨htail, by omega, ?_, ?_, fun _ => hreads⟩, fun _ => ⟨?_, ?_, ?_⟩⟩
  · simp [hreads, held, hcq, hhead]
  · simp [hreads, htodo]
  · simp [hreads, held, hcq, hhead]
  · intro i hi _
    rw [hring]
    exact setUpBufs_slots hi
  · simp [hreads]

theorem init_bufs (u : Setup) : (State.init u).bufRing = setUpBufs u ∧
    (State.init u).reads = [] ∧ (State.init u).cq = [] ∧ (State.init u).todo = 0 := by
  have hlistening : (State.listening u).bufRing = setUpBufs u ∧
      (State.listening u).reads = [] ∧ (State.listening u).cq = [] ∧
      (State.listening u).todo = 0 := by
    unfold State.listening
    split <;> exact ⟨rfl, rfl, rfl, rfl⟩
  unfold State.init
  cases hadd : addAccept u (State.listening u) u.sockListenFd with
  | ok s =>
    rcases addOp_eq_ok hadd with ⟨-, -, rfl⟩
    exact hlistening
  | error stop => exact hlistening

theorem kept_init (u : Setup) : Kept u 0 (State.init u) := by
  rcases init_bufs u with ⟨hring, hreads, hcq, htodo⟩
  exact kept_of_setUp hring hreads hcq htodo

theorem tagged_of_reachable {u : Setup} {s : State} (h : Reachable (step u) (State.init u) s) :
    Tagged s := by
  apply h.invariant Tagged
  · simp [Tagged, (init_bufs u).2.2.1]
  · exact fun _ _ _ _ hs hstep => hs.step hstep

theorem firstOnly_append_iff {front back : List Cqe} : FirstOnly (front ++ back) ↔
    front.length + back.length ≤ 1 ∧ (∀ cqe ∈ front, cqe.used ≠ none) ∧
      ∀ cqe ∈ back, cqe.used ≠ none := by
  simp only [FirstOnly, List.length_append, List.forall_mem_append]

theorem endBatch_eq_some {u : Setup} {s t : State} (h : step u s .endBatch = some t) :
    t = s.advance := by
  simp only [step, Option.ite_none_right_eq_some, Option.some.injEq] at h
  exact h.2.symm

theorem readsNote_of_ne {s : State} {event : Event} (h : event ≠ .endBatch) :
    readsNote s event = [] := by
  cases event with
  | endBatch => exact absurd rfl h
  | submit | submitError | peek | handle | complete => rfl

/-- All buffers are available or held, once and under their ids, whenever the server is back
at the head of its loop, just if it has processed no READ completion but one with a
buffer. -/
theorem recycled_iff {u : Setup} {events : List Event} {s : State} {reads : List Cqe}
    (hrun : run (record readsNote (step u)) (State.init u, []) events = some (s, reads)) :
    Always (record readsNote (step u)) (State.init u, []) events
        (fun t => t.1.pc = .submitting → Recycled t.1) ↔
      reads.length ≤ 1 ∧ ∀ cqe ∈ reads, cqe.used ≠ none := by
  apply always_iff (fun t => Kept u t.2.length t.1) (fun t => FirstOnly t.2) hrun
  · exact ⟨kept_init u, Nat.zero_le 1, nofun⟩
  · exact fun t ht hpc => ht.recycled (ht.counted.idle (.inl hpc))
  · intro s event t hreach hs hstep hfirst
    rcases record_eq_some.mp hstep with ⟨hmove, hnote⟩
    have hreach' := hreach.of_record
    rw [hnote] at hfirst ⊢
    by_cases hend : event = .endBatch
    · subst hend
      rcases firstOnly_append_iff.mp hfirst with ⟨hle, -, hused⟩
      rw [endBatch_eq_some hmove, List.length_append]
      exact hs.advance hle hused
    · rw [readsNote_of_ne hend, List.append_nil]
      exact hs.step hreach' (tagged_of_reachable hreach') hmove hend
  · intro s event t hreach hfirst hs hstep hno hrecycled
    rcases record_eq_some.mp hstep with ⟨hmove, hnote⟩
    rw [hnote] at hno
    by_cases hend : event = .endBatch
    · subst hend
      rw [endBatch_eq_some hmove] at hrecycled
      rcases (advance_iff hs).mp (hrecycled rfl) with ⟨hle, hused⟩
      exact hno (firstOnly_append_iff.mpr ⟨hle, hfirst.2, hused⟩)
    · rw [readsNote_of_ne hend, List.append_nil] at hno
      exact hno hfirst
  · intro s event t hstep hfirst
    rw [(record_eq_some.mp hstep).2] at hfirst
    rcases firstOnly_append_iff.mp hfirst with ⟨hlen, hfront, -⟩
    exact ⟨by omega, hfront⟩

def twoMessages : List Event := oneMessage ++ exchange 1 false ++ exchange 1 true

theorem recycled_one_message : ∃ t : State × List Cqe, t.2.length = 1 ∧
    run (record readsNote (step plainSetup)) (State.init plainSetup, []) oneMessage = some t ∧
      Always (record readsNote (step plainSetup)) (State.init plainSetup, []) oneMessage
        (fun t => t.1.pc = .submitting → Recycled t.1) := by
  have hview : (run (record readsNote (step plainSetup)) (State.init plainSetup, [])
      oneMessage).map (fun t => t.2.map fun cqe => cqe.used.isSome) = some [true] := by
    decide +kernel
  rcases Option.map_eq_some_iff.mp hview with ⟨⟨s, reads⟩, hrun, hreads⟩
  rcases List.map_eq_singleton_iff.mp hreads with ⟨cqe, rfl, hused⟩
  refine ⟨(s, [cqe]), rfl, hrun, (recycled_iff hrun).mpr ⟨Nat.le_refl 1, ?_⟩⟩
  rw [List.forall_mem_singleton]
  exact Option.isSome_iff_ne_none.mp hused

/-- The buffer of the second message goes back under the id of the first one: two entries
have the id 0, and the second buffer has none of its own. -/
theorem second_read_takes_first_id : ∃ s, Reachable (step plainSetup) (State.init plainSetup) s ∧
    s.pc = .submitting ∧ s.cq = [] ∧ s.bufRing.head = 2 ∧ s.bufRing.tail = 1026 ∧
    s.bufRing.window nrBufs 1024 2 = [⟨.pool 0, 2046, 0⟩, ⟨.pool 1, 2046, 0⟩] ∧
    ¬Recycled s := by
  have hview : (run (step plainSetup) (State.init plainSetup) twoMessages).map
      (fun s => (s.pc, s.cq, s.bufRing.head, s.bufRing.tail, s.bufRing.window nrBufs 1024 2)) =
        some (.submitting, [], 2, 1026, [⟨.pool 0, 2046, 0⟩, ⟨.pool 1, 2046, 0⟩]) := by
    decide +kernel
  rcases Reachable.of_view hview with ⟨s, hreach, hs⟩
  simp only [Prod.mk.injEq] at hs
  rcases hs with ⟨hpc, hcq, hhead, htail, hwindow⟩
  refine ⟨s, hreach, hpc, hcq, hhead, htail, hwindow, fun hrecycled => ?_⟩
  have hslot : s.bufRing.slots (1025 % nrBufs) = ⟨.pool 1, 2046, 0⟩ :=
    Option.some.inj (congrArg (·[1]?) hwindow)
  have hmem : s.bufRing.slots (1025 % nrBufs) ∈ s.bufRing.available nrBufs := by
    apply SlotRing.mem_window.mpr
    refine ⟨1025, ?_, ?_, rfl⟩
    · omega
    · rw [SlotRing.count, hhead, htail]
      decide
  have haddr := hrecycled.addr _ hmem
  rw [hslot] at haddr
  cases haddr

end IoWrapper.EchoV2.Recycling
