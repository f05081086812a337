import Mathlib.Data.List.Basic

/-! The two rings of a process, as it sees them itself. It pushes to a tail of
its own, which others see once it is published, and it counts with a head that
it has to reload; and it walks over completions with a head of its own too. -/
namespace IoWrapper.Core.Rings

variable {α : Type} {capacity : Nat}

/-- A submission queue: how many entries have been taken since the head was last
reloaded, the entries published and not yet taken, and those not yet published.
Together they are what the process counts as used. -/
structure SubmissionQueue (α : Type) (capacity : Nat) where
  taken : Nat
  published : List α
  unpublished : List α
  bounded : taken + published.length + unpublished.length ≤ capacity

namespace SubmissionQueue

def empty (α : Type) (capacity : Nat) : SubmissionQueue α capacity := ⟨0, [], [], Nat.zero_le _⟩

def used (q : SubmissionQueue α capacity) : Nat :=
  q.taken + q.published.length + q.unpublished.length

def isFull (q : SubmissionQueue α capacity) : Bool := q.used == capacity

def push (q : SubmissionQueue α capacity) (a : α) : Option (SubmissionQueue α capacity) :=
  if h : q.used < capacity then
    some ⟨q.taken, q.published, q.unpublished ++ [a], by
      unfold used at h
      rw [List.length_append, List.length_singleton]
      omega⟩
  else none

def sync (q : SubmissionQueue α capacity) : SubmissionQueue α capacity :=
  ⟨0, q.published ++ q.unpublished, [], by
    have := q.bounded
    rw [List.length_append, List.length_nil]
    omega⟩

def submit (q : SubmissionQueue α capacity) : SubmissionQueue α capacity :=
  ⟨q.taken + q.published.length, [], q.unpublished, by
    have := q.bounded
    rw [List.length_nil]
    omega⟩

def submitSome (q : SubmissionQueue α capacity) (count : Nat) : SubmissionQueue α capacity :=
  ⟨q.taken + min count q.published.length, q.published.drop count, q.unpublished, by
    have := q.bounded
    rw [List.length_drop]
    omega⟩

@[simp] theorem sync_published (q : SubmissionQueue α capacity) :
    q.sync.published = q.published ++ q.unpublished := rfl

@[simp] theorem sync_unpublished (q : SubmissionQueue α capacity) : q.sync.unpublished = [] := rfl

@[simp] theorem submit_published (q : SubmissionQueue α capacity) : q.submit.published = [] := rfl

@[simp] theorem submit_unpublished (q : SubmissionQueue α capacity) :
    q.submit.unpublished = q.unpublished := rfl

theorem sync_used (q : SubmissionQueue α capacity) :
    q.sync.used = q.published.length + q.unpublished.length := by
  simp [used, sync]

theorem isFull_iff (q : SubmissionQueue α capacity) : q.isFull = true ↔ q.used = capacity := by
  simp [isFull]

theorem used_le (q : SubmissionQueue α capacity) : q.used ≤ capacity := q.bounded

theorem push_eq_some {q r : SubmissionQueue α capacity} {a : α} (h : q.push a = some r) :
    r.taken = q.taken ∧ r.published = q.published ∧ r.unpublished = q.unpublished ++ [a] := by
  unfold push at h
  split at h
  · cases h
    exact ⟨rfl, rfl, rfl⟩
  · cases h

theorem push_eq_none {q : SubmissionQueue α capacity} {a : α} :
    q.push a = none ↔ q.used = capacity := by
  have hle := q.used_le
  unfold push
  split
  · rename_i hlt
    simp only [reduceCtorEq, false_iff]
    omega
  · rename_i hlt
    simp only [true_iff]
    omega

def pushTimes (a : α) : Nat → SubmissionQueue α capacity → Nat × SubmissionQueue α capacity
  | 0, q => (0, q)
  | count + 1, q =>
    match q.push a with
    | some r => pushTimes a count r
    | none => (count + 1, q)

theorem pushTimes_spec (a : α) (count : Nat) (q : SubmissionQueue α capacity) :
    ∃ pushed, count = (pushTimes a count q).1 + pushed ∧
      (pushTimes a count q).2.published = q.published ∧
      (pushTimes a count q).2.unpublished = q.unpublished ++ List.replicate pushed a := by
  induction count generalizing q with
  | zero => exact ⟨0, rfl, rfl, by simp [pushTimes]⟩
  | succ count ih =>
    unfold pushTimes
    split
    · rename_i r hpush
      rcases ih r with ⟨pushed, hcount, hpublished, hunpublished⟩
      have hr := push_eq_some hpush
      refine ⟨pushed + 1, by omega, ?_, ?_⟩
      · rw [hpublished, hr.2.1]
      · rw [hunpublished, hr.2.2, List.replicate_succ, List.append_assoc]
        rfl
    · exact ⟨0, rfl, rfl, by simp⟩

end SubmissionQueue

/-- A completion queue: what the process has walked over since it last published
its head, what it can still walk over, and what has arrived since it last
reloaded the tail. -/
structure CompletionQueue (α : Type) where
  walked : List α
  visible : List α
  arrived : List α

namespace CompletionQueue

def empty (α : Type) : CompletionQueue α := ⟨[], [], []⟩

def outstanding (q : CompletionQueue α) : List α := q.walked ++ q.visible ++ q.arrived

def sync (q : CompletionQueue α) : CompletionQueue α := ⟨[], q.visible ++ q.arrived, []⟩

def post (q : CompletionQueue α) (a : α) : CompletionQueue α :=
  ⟨q.walked, q.visible, q.arrived ++ [a]⟩

def next (q : CompletionQueue α) (a : α) (rest : List α) : CompletionQueue α :=
  ⟨q.walked ++ [a], rest, q.arrived⟩

end CompletionQueue

end IoWrapper.Core.Rings
