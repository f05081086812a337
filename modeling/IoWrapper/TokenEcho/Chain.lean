import IoWrapper.TokenEcho.Server

/-! A message on its way back to the client. The kernel may write less than it is
asked to, and the token then says where to go on. Its `len` is the length of the
message at first and what is left of it after a short write, but `offset` always
counts from the start of the buffer. -/
namespace IoWrapper.TokenEcho.Chain
open Server

/-- What a chain of writes comes to: the slices reported written, the buffers
returned to the pool and the token at the end. -/
structure Written where
  slices : List (List UInt8)
  returned : List Nat
  token : Token
deriving DecidableEq

/-- The chain when the kernel answers the writes with these results. There is none if
it cannot: a write answers with at least one byte and at most what it was asked for,
and only while the token waits for one. -/
def writeChain (buf : List UInt8) : Token → Op → List Nat → Option Written
  | token, _, [] => some ⟨[], [], token⟩
  | .write fd bufIndex offset len, op, writeLen :: results =>
    match op.offered with
    | some (start, count) =>
      if 0 < writeLen ∧ writeLen ≤ count then
        let next := afterWrite fd bufIndex offset len writeLen
        (writeChain buf next.2.1 next.2.2 results).map fun later =>
          ⟨(buf.drop start).take writeLen :: later.slices, next.1.toList ++ later.returned,
            later.token⟩
      else none
    | none => none
  | .accept, _, _ :: _ | .poll _, _, _ :: _ | .read _ _, _, _ :: _ => none

/-- The chain that a read of `len` bytes starts. -/
def echoChain (buf : List UInt8) (fd bufIndex len : Nat) (results : List Nat) : Option Written :=
  writeChain buf (.write fd bufIndex 0 len) (.send fd bufIndex len) results

variable {buf : List UInt8} {fd bufIndex offset len start count : Nat} {out : Written}
  {results : List Nat}

theorem writeChain_nil (token : Token) (op : Op) :
    writeChain buf token op [] = some ⟨[], [], token⟩ := by
  cases token <;> rfl

theorem writeChain_poll {op : Op} (h : writeChain buf (.poll fd) op results = some out) :
    results = [] ∧ out = ⟨[], [], .poll fd⟩ := by
  cases results with
  | nil =>
    rw [writeChain_nil] at h
    exact ⟨rfl, (Option.some.inj h).symm⟩
  | cons writeLen results => cases h

theorem writeChain_cons {op : Op} {writeLen : Nat} (hop : op.offered = some (start, count))
    (h : writeChain buf (.write fd bufIndex offset len) op (writeLen :: results) = some out) :
    0 < writeLen ∧ writeLen ≤ count ∧
      (len ≤ offset + writeLen ∧ results = [] ∧
          out = ⟨[(buf.drop start).take writeLen], [bufIndex], .poll fd⟩ ∨
        offset + writeLen < len ∧ ∃ later,
          writeChain buf (.write fd bufIndex (offset + writeLen) (len - (offset + writeLen)))
            (.write fd bufIndex (offset + writeLen) (len - (offset + writeLen))) results =
            some later ∧
          out = ⟨(buf.drop start).take writeLen :: later.slices, later.returned,
            later.token⟩) := by
  unfold writeChain at h
  rw [hop] at h
  simp only [Option.ite_none_right_eq_some] at h
  rcases h with ⟨hpossible, hlater⟩
  rcases Option.map_eq_some_iff.mp hlater with ⟨later, hchain, hout⟩
  refine ⟨hpossible.1, hpossible.2, ?_⟩
  unfold afterWrite at hchain hout
  by_cases hend : len ≤ offset + writeLen
  · rw [if_pos hend] at hchain hout
    rcases writeChain_poll hchain with ⟨hresults, heq⟩
    rw [heq] at hout
    exact Or.inl ⟨hend, hresults, hout.symm⟩
  · rw [if_neg hend] at hchain hout
    exact Or.inr ⟨by omega, later, hchain, hout.symm⟩

theorem writeChain_returned {op : Op} {count : Nat} (hop : op.offered = some (start, count))
    (h : writeChain buf (.write fd bufIndex offset len) op results = some out) :
    out.returned = if out.token = .poll fd then [bufIndex] else [] := by
  induction results generalizing offset len op start count out with
  | nil =>
    rw [writeChain_nil] at h
    rw [← Option.some.inj h]
    rfl
  | cons writeLen results ih =>
    rcases writeChain_cons hop h with ⟨-, -, ⟨-, -, hout⟩ | ⟨-, later, hchain, hout⟩⟩
    · rw [hout, if_pos rfl]
    · have hlater := ih rfl hchain
      rw [hout]
      exact hlater

/-- After a short write at most `len` more bytes are written: all that is left of the
message, and only if no write is short again. -/
theorem writeChain_sum_le
    (h : writeChain buf (.write fd bufIndex offset len) (.write fd bufIndex offset len) results =
      some out) : results.sum ≤ len := by
  induction results generalizing offset len out with
  | nil => exact Nat.zero_le _
  | cons writeLen results ih =>
    rcases writeChain_cons rfl h with ⟨-, hle, ⟨-, hnil, -⟩ | ⟨hlt, later, hchain, -⟩⟩
    · rw [hnil, List.sum_singleton]
      exact hle
    · have := ih hchain
      rw [List.sum_cons]
      omega

theorem writeChain_length (hbuf : offset + len ≤ buf.length)
    (h : writeChain buf (.write fd bufIndex offset len) (.write fd bufIndex offset len) results =
      some out) : out.slices.flatten.length = results.sum := by
  induction results generalizing offset len out with
  | nil =>
    rw [writeChain_nil] at h
    rw [← Option.some.inj h]
    rfl
  | cons writeLen results ih =>
    rcases writeChain_cons rfl h with ⟨-, hle, ⟨-, hnil, hout⟩ | ⟨hlt, later, hchain, hout⟩⟩
    · rw [hout, hnil, List.flatten_singleton, List.length_take, List.length_drop,
        List.sum_singleton]
      omega
    · rw [hout, List.flatten_cons, List.length_append, ih (by omega) hchain, List.sum_cons,
        List.length_take, List.length_drop]
      omega

theorem writeChain_short {first second : Nat} (hfirst : 0 < first) (hshort : second < len - first)
    (h : writeChain buf (.write fd bufIndex first (len - first))
      (.write fd bufIndex first (len - first)) (second :: results) = some out) :
    first + (second :: results).sum < len := by
  rcases writeChain_cons rfl h with ⟨-, -, ⟨-, hnil, -⟩ | ⟨hlt, later, hchain, -⟩⟩
  · rw [hnil, List.sum_singleton]
    omega
  · have := writeChain_sum_le hchain
    rw [List.sum_cons]
    omega

theorem echoChain_cons {first : Nat}
    (h : echoChain buf fd bufIndex len (first :: results) = some out) :
    0 < first ∧ first ≤ len ∧
      (first = len ∧ results = [] ∧ out = ⟨[buf.take first], [bufIndex], .poll fd⟩ ∨
        first < len ∧ ∃ later,
          writeChain buf (.write fd bufIndex first (len - first))
            (.write fd bufIndex first (len - first)) results = some later ∧
          out = ⟨buf.take first :: later.slices, later.returned, later.token⟩) := by
  rcases writeChain_cons rfl h with ⟨hpos, hle, hrest⟩
  simp only [Nat.zero_add, List.drop_zero] at hrest
  refine ⟨hpos, hle, hrest.imp ?_ id⟩
  rintro ⟨hend, hnil, hout⟩
  exact ⟨by omega, hnil, hout⟩

theorem echoChain_second {first second : Nat} {later : Written} (hpos : 0 < first)
    (hlt : first < len) (hbuf : len ≤ buf.length)
    (h : writeChain buf (.write fd bufIndex first (len - first))
      (.write fd bufIndex first (len - first)) (second :: results) = some later) :
    (buf.take first :: later.slices).flatten = buf.take len ↔
      second = len - first ∧ results = [] := by
  constructor
  · intro hall
    have hlength := congrArg List.length hall
    rw [List.flatten_cons, List.length_append, writeChain_length (by omega) h, List.length_take,
      List.length_take] at hlength
    have hsecond : second = len - first := by
      by_contra hne
      have hle := (writeChain_cons rfl h).2.1
      have := writeChain_short hpos (by omega) h
      omega
    rcases writeChain_cons rfl h with ⟨-, -, ⟨-, hnil, -⟩ | ⟨hmore, -⟩⟩
    · exact ⟨hsecond, hnil⟩
    · omega
  · rintro ⟨hsecond, hnil⟩
    rcases writeChain_cons rfl h with ⟨-, -, ⟨-, -, hout⟩ | ⟨hmore, -⟩⟩
    · rw [hout, List.flatten_cons, List.flatten_singleton, hsecond, ← List.take_add]
      congr 1
      omega
    · omega

/-- A message has been written, in order and each byte once, when its token is back
at `Poll` and its buffer in the pool, exactly if no write but the first was short. -/
theorem echoChain_iff (hbuf : len ≤ buf.length)
    (h : echoChain buf fd bufIndex len results = some out) :
    (out.returned = if out.token = .poll fd then [bufIndex] else []) ∧
      (out.token = .poll fd → (out.slices.flatten = buf.take len ↔
        results = [len] ∨ ∃ first, results = [first, len - first])) := by
  refine ⟨writeChain_returned rfl h, fun hpoll => ?_⟩
  cases results with
  | nil =>
    unfold echoChain at h
    rw [writeChain_nil] at h
    rw [← Option.some.inj h] at hpoll
    cases hpoll
  | cons first results =>
    rcases echoChain_cons h with ⟨hpos, hle, ⟨hall, hnil, hout⟩ | ⟨hlt, later, hchain, hout⟩⟩
    · rw [hout, hnil, hall]
      simp
    · cases results with
      | nil =>
        rw [writeChain_nil] at hchain
        rw [hout, ← Option.some.inj hchain] at hpoll
        cases hpoll
      | cons second results =>
        rw [hout, echoChain_second hpos hlt hbuf hchain]
        simp

theorem echoChain_one_short : ∃ out, echoChain [104, 101, 108, 108, 111] 5 0 5 [2, 3] = some out ∧
    out.returned = [0] ∧ out.slices.flatten = [104, 101, 108, 108, 111] := by
  have hchain : echoChain [104, 101, 108, 108, 111] 5 0 5 [2, 3] =
      some ⟨[[104, 101], [108, 108, 111]], [0], .poll 5⟩ := by
    decide
  have hall := ((echoChain_iff (by decide) hchain).2 rfl).mpr (Or.inr ⟨2, rfl⟩)
  exact ⟨_, hchain, rfl, hall⟩

/-- A message of ten bytes, of which four are written and then two: the token goes
back to `Poll` with the last four unsent. -/
theorem echoChain_two_short :
    echoChain [0, 1, 2, 3, 4, 5, 6, 7, 8, 9] 5 0 10 [4, 2] =
      some ⟨[[0, 1, 2, 3], [4, 5]], [0], .poll 5⟩ := by
  decide

end IoWrapper.TokenEcho.Chain
