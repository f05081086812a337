import IoWrapper.Core.Pool

/-! The traffic of a ring: entries that are queued, in flight, or completed and not yet
seen. A submission takes entries from the front of the queue, and the kernel completes
what is in flight in any order. Whatever moves, the entries that are pending stay the
same up to their order. -/
namespace IoWrapper.Core.Traffic
open Core.Pool

variable {α : Type}

structure Completion (α : Type) where
  entry : α
  res : Int
deriving DecidableEq

structure IoRing (α : Type) where
  sq : List α
  inflight : List α
  cq : List (Completion α)

namespace IoRing

def empty (α : Type) : IoRing α := ⟨[], [], []⟩

def uncompleted (r : IoRing α) : List α := r.sq ++ r.inflight

def pending (r : IoRing α) : List α := r.uncompleted ++ r.cq.map Completion.entry

def push (r : IoRing α) (a : α) : IoRing α := { r with sq := r.sq ++ [a] }

def pushAll (r : IoRing α) (entries : List α) : IoRing α := { r with sq := r.sq ++ entries }

def submit (r : IoRing α) (count : Nat) : IoRing α :=
  { r with sq := r.sq.drop count, inflight := r.inflight ++ r.sq.take count }

def complete (r : IoRing α) (i : Nat) (completion : Completion α) : IoRing α :=
  { r with inflight := r.inflight.eraseIdx i, cq := r.cq ++ [completion] }

def seen (r : IoRing α) : IoRing α := { r with cq := r.cq.tail }

def without (r : IoRing α) (i : Nat) : IoRing α := { r with inflight := r.inflight.eraseIdx i }

def renew (r : IoRing α) (i : Nat) (a : α) : IoRing α := { r with inflight := r.inflight.set i a }

theorem pushAll_nil (r : IoRing α) : r.pushAll [] = r := by
  simp [pushAll]

theorem pushAll_cons (r : IoRing α) (a : α) (entries : List α) :
    r.pushAll (a :: entries) = (r.push a).pushAll entries := by
  simp [pushAll, push]

@[simp] theorem complete_cq (r : IoRing α) (i : Nat) (completion : Completion α) :
    (r.complete i completion).cq = r.cq ++ [completion] := rfl

@[simp] theorem seen_cq (r : IoRing α) : r.seen.cq = r.cq.tail := rfl

theorem seen_of_cq_nil {r : IoRing α} (h : r.cq = []) : r.seen = r := by
  unfold seen
  rw [h, List.tail_nil, ← h]

@[simp] theorem pending_empty : (empty α).pending = [] := rfl

@[simp] theorem seen_uncompleted (r : IoRing α) : r.seen.uncompleted = r.uncompleted := rfl

theorem uncompleted_pushAll (r : IoRing α) (entries : List α) :
    (r.pushAll entries).uncompleted.Perm (entries ++ r.uncompleted) := by
  simp only [uncompleted, pushAll, List.append_assoc]
  exact List.perm_append_comm_assoc _ _ _

theorem uncompleted_push (r : IoRing α) (a : α) :
    (r.push a).uncompleted.Perm (a :: r.uncompleted) := by
  simp only [uncompleted, push, List.append_assoc]
  exact List.perm_middle

theorem uncompleted_submit (r : IoRing α) (count : Nat) :
    (r.submit count).uncompleted.Perm r.uncompleted := by
  have hmove : (r.submit count).uncompleted.Perm
      ((r.inflight ++ r.sq.take count) ++ r.sq.drop count) := List.perm_append_comm
  rw [List.append_assoc, List.take_append_drop] at hmove
  exact hmove.trans List.perm_append_comm

theorem uncompleted_complete {r : IoRing α} {i : Nat} {completion : Completion α}
    (h : r.inflight[i]? = some completion.entry) :
    r.uncompleted.Perm (completion.entry :: (r.complete i completion).uncompleted) :=
  ((perm_eraseIdx h).append_left _).trans List.perm_middle

theorem pending_push (r : IoRing α) (a : α) : (r.push a).pending.Perm (a :: r.pending) :=
  (uncompleted_push r a).append_right _

theorem pending_pushAll (r : IoRing α) (entries : List α) :
    (r.pushAll entries).pending.Perm (entries ++ r.pending) := by
  have hmove := (uncompleted_pushAll r entries).append_right (r.cq.map Completion.entry)
  rw [List.append_assoc] at hmove
  exact hmove

theorem pending_submit (r : IoRing α) (count : Nat) : (r.submit count).pending.Perm r.pending :=
  (uncompleted_submit r count).append_right _

theorem pending_complete {r : IoRing α} {i : Nat} {completion : Completion α}
    (h : r.inflight[i]? = some completion.entry) :
    (r.complete i completion).pending.Perm r.pending := by
  have hmove : (r.complete i completion).pending.Perm
      (completion.entry :: ((r.complete i completion).uncompleted ++
        r.cq.map Completion.entry)) := by
    simp only [pending, complete_cq, List.map_append, List.map_cons, List.map_nil]
    rw [← List.append_assoc]
    exact List.perm_append_comm
  exact hmove.trans ((uncompleted_complete h).symm.append_right _)

theorem pending_renew {r : IoRing α} {i : Nat} {a b : α} (h : r.inflight[i]? = some a) :
    ∃ rest, r.pending.Perm (a :: rest) ∧ (r.renew i b).pending.Perm (b :: rest) := by
  have hlt := (List.getElem?_eq_some_iff.mp h).1
  have hmove : ∀ (entry : α) (flights : List α), flights.Perm (entry :: r.inflight.eraseIdx i) →
      ((r.sq ++ flights) ++ r.cq.map Completion.entry).Perm
        (entry :: ((r.sq ++ r.inflight.eraseIdx i) ++ r.cq.map Completion.entry)) :=
    fun entry flights hflights =>
      ((hflights.append_left r.sq).trans List.perm_middle).append_right _
  exact ⟨_, hmove a _ (perm_eraseIdx h), hmove b _ (List.set_perm_cons_eraseIdx hlt b)⟩

theorem pending_seen {r : IoRing α} {completion : Completion α} {rest : List (Completion α)}
    (h : r.cq = completion :: rest) : r.pending.Perm (completion.entry :: r.seen.pending) := by
  simp only [pending, seen_uncompleted, seen_cq, h, List.map_cons, List.tail_cons]
  exact List.perm_middle

theorem mem_pending_of_cq {r : IoRing α} {completion : Completion α} (h : completion ∈ r.cq) :
    completion.entry ∈ r.pending :=
  List.mem_append_right _ (List.mem_map_of_mem h)

theorem mem_pending_of_seen {r : IoRing α} {a : α} (h : a ∈ r.seen.pending) : a ∈ r.pending := by
  rcases List.mem_append.mp h with h | h
  · exact List.mem_append_left _ h
  · rcases List.mem_map.mp h with ⟨completion, hmem, rfl⟩
    exact mem_pending_of_cq (List.mem_of_mem_tail hmem)

theorem mem_pending_of_sq {r : IoRing α} {a : α} (h : a ∈ r.sq) : a ∈ r.pending :=
  List.mem_append_left _ (List.mem_append_left _ h)

end IoRing

end IoWrapper.Core.Traffic
