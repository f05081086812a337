import Mathlib.Algebra.Group.Nat.Defs
import Mathlib.Data.List.Nodup
import Mathlib.Data.List.Perm.Subperm
import Mathlib.Logic.Function.Basic

/-! A ring that one side refills and the other side empties. An entry is written to a slot
behind the tail and becomes available when the tail moves past it, so a slot that is passed
without having been written to gives what it held before. The counters only grow; they are
of 16 bits, and a slot is found modulo the size, a power of two. -/
namespace IoWrapper.Core.BufRing

structure SlotRing (α : Type) where
  slots : Nat → α
  head : Nat
  tail : Nat

namespace SlotRing

variable {α : Type}

/-- The entry goes to the slot at an offset from the tail, which does not move. -/
def add (size : Nat) (r : SlotRing α) (a : α) (offset : Nat) : SlotRing α :=
  { r with slots := Function.update r.slots ((r.tail + offset) % size) a }

def advance (r : SlotRing α) (count : Nat) : SlotRing α := { r with tail := r.tail + count }

def consume (r : SlotRing α) : SlotRing α := { r with head := r.head + 1 }

def count (r : SlotRing α) : Nat := (r.tail - r.head) % 2 ^ 16

def first (size : Nat) (r : SlotRing α) : α := r.slots (r.head % size)

def window (size : Nat) (r : SlotRing α) (start count : Nat) : List α :=
  (List.range' start count).map fun i => r.slots (i % size)

def available (size : Nat) (r : SlotRing α) : List α := r.window size r.head r.count

/-- Entries are added at the offsets from 0 on, and made available at once. -/
def fill (size : Nat) (r : SlotRing α) (entry : Nat → α) (count : Nat) : SlotRing α :=
  ((List.range count).foldl (fun r i => r.add size (entry i) i) r).advance count

section Counters

variable (size : Nat) (r : SlotRing α)

@[simp] theorem advance_head (count : Nat) : (r.advance count).head = r.head := rfl

@[simp] theorem advance_tail (count : Nat) : (r.advance count).tail = r.tail + count := rfl

theorem count_of_le (h : r.tail - r.head < 2 ^ 16) : r.count = r.tail - r.head :=
  Nat.mod_eq_of_lt h

end Counters

section Windows

variable {size : Nat} {r : SlotRing α}

@[simp] theorem window_length (start count : Nat) :
    (r.window size start count).length = count := by
  simp [window]

theorem available_length (h : r.tail - r.head < 2 ^ 16) :
    (r.available size).length = r.tail - r.head := by
  rw [available, window_length, r.count_of_le h]

theorem window_append (start m n : Nat) :
    r.window size start (m + n) = r.window size start m ++ r.window size (start + m) n := by
  unfold window
  rw [← List.map_append, List.range'_append_1]

theorem window_succ (start count : Nat) :
    r.window size start (count + 1) =
      r.slots (start % size) :: r.window size (start + 1) count := by
  rw [window, List.range'_succ, List.map_cons]
  rfl

theorem mem_window {a : α} {start count : Nat} :
    a ∈ r.window size start count ↔
      ∃ i, start ≤ i ∧ i < start + count ∧ r.slots (i % size) = a := by
  simp [window, and_assoc]

theorem mod_ne {i j : Nat} (hlt : i < j) (hround : j < i + size) : i % size ≠ j % size := by
  intro heq
  have hdvd := Nat.dvd_of_mod_eq_zero (Nat.sub_mod_eq_zero_of_mod_eq heq.symm)
  have hle := Nat.le_of_dvd (by omega) hdvd
  omega

theorem round_perm (start : Nat) :
    ((List.range' start size).map (· % size)).Perm (List.range size) := by
  have hnodup : ((List.range' start size).map (· % size)).Nodup := by
    apply List.Nodup.map_on _ (List.nodup_range' ..)
    intro i hi j hj heq
    have hi := List.mem_range'_1.mp hi
    have hj := List.mem_range'_1.mp hj
    rcases Nat.lt_trichotomy i j with hlt | rfl | hlt
    · exact absurd heq (mod_ne hlt (by omega))
    · rfl
    · exact absurd heq.symm (mod_ne hlt (by omega))
  refine (List.subperm_of_subset hnodup ?_).perm_of_length_le (by simp)
  intro slot hslot
  rcases List.mem_map.mp hslot with ⟨i, hi, rfl⟩
  exact List.mem_range.mpr (Nat.mod_lt i (by have := List.mem_range'_1.mp hi; omega))

theorem available_advance {k : Nat} (hle : r.head ≤ r.tail)
    (h : r.tail + k - r.head < 2 ^ 16) :
    (r.advance k).available size = r.available size ++ r.window size r.tail k := by
  have hcount : (r.advance k).count = r.tail - r.head + k := by
    rw [(r.advance k).count_of_le h, advance_tail, advance_head]
    omega
  have hend : r.head + (r.tail - r.head) = r.tail := Nat.add_sub_of_le hle
  calc (r.advance k).available size = r.window size r.head (r.tail - r.head + k) := by
        rw [available, hcount]
        rfl
    _ = r.available size ++ r.window size r.tail k := by
        rw [window_append, hend, available, r.count_of_le (by omega)]

end Windows

section Fill

variable {size : Nat} {r : SlotRing α} {entry : Nat → α}

theorem foldl_add_slots {count : Nat} (htail : r.tail = 0) (hle : count ≤ size) :
    let filled := (List.range count).foldl (fun r i => r.add size (entry i) i) r
    filled.head = r.head ∧ filled.tail = 0 ∧ ∀ i < count, filled.slots i = entry i := by
  induction count with
  | zero => simp [htail]
  | succ count ih =>
    rcases ih (by omega) with ⟨hhead, htail, hslots⟩
    rw [List.range_succ, List.foldl_concat]
    refine ⟨hhead, htail, ?_⟩
    intro i hi
    rw [add, htail, Nat.zero_add, Nat.mod_eq_of_lt (by omega)]
    rcases Nat.lt_succ_iff_lt_or_eq.mp hi with hlt | rfl
    · exact (Function.update_of_ne (Nat.ne_of_lt hlt) ..).trans (hslots i hlt)
    · exact Function.update_self ..

theorem fill_slots {count i : Nat} (htail : r.tail = 0) (hle : count ≤ size) (hi : i < count) :
    (r.fill size entry count).slots i = entry i :=
  (foldl_add_slots htail hle).2.2 i hi

theorem fill_head {count : Nat} (htail : r.tail = 0) (hle : count ≤ size) :
    (r.fill size entry count).head = r.head := by
  change ((List.range count).foldl (fun r i => r.add size (entry i) i) r).head = r.head
  exact (foldl_add_slots htail hle).1

theorem fill_tail {count : Nat} (htail : r.tail = 0) (hle : count ≤ size) :
    (r.fill size entry count).tail = count := by
  rw [fill, advance_tail, (foldl_add_slots htail hle).2.1, Nat.zero_add]

end Fill

end SlotRing

end IoWrapper.Core.BufRing
