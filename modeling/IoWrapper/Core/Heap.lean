import Mathlib.Data.List.Nodup
import Mathlib.Data.List.Perm.Basic
import Mathlib.Logic.Function.Basic

/-! A heap of objects at addresses. An address that is not in use leads
nowhere, and giving back what is not in use is an error. The footprint of a
heap lists the addresses in use, each of them once; the laws say what becomes
of the footprint, and that the rest of the heap stays as it was. -/
namespace IoWrapper.Core.Heap

variable {α : Type} {heap : Nat → Option α} {addrs front back : List Nat}
  {objects : List (Nat × α)}

def place (heap : Nat → Option α) (objects : List (Nat × α)) : Nat → Option α :=
  objects.foldl (fun heap object => Function.update heap object.1 (some object.2)) heap

def free (heap : Nat → Option α) (addr : Nat) : Option (Nat → Option α) :=
  if (heap addr).isSome then some (Function.update heap addr none) else none

def freeAll (heap : Nat → Option α) (addrs : List Nat) : Option (Nat → Option α) :=
  addrs.foldlM free heap

/-- The addresses in use are just those of the footprint. -/
structure Holds (heap : Nat → Option α) (addrs : List Nat) : Prop where
  distinct : addrs.Nodup
  used : ∀ addr, (heap addr).isSome ↔ addr ∈ addrs

theorem holds_empty : Holds (fun _ => none : Nat → Option α) [] :=
  ⟨List.nodup_nil, fun addr => by simp⟩

theorem Holds.perm (h : Holds heap front) (hperm : front.Perm back) : Holds heap back :=
  ⟨hperm.nodup_iff.mp h.distinct, fun addr => (h.used addr).trans hperm.mem_iff⟩

theorem place_of_not_mem {addr : Nat} (h : addr ∉ objects.map Prod.fst) :
    place heap objects addr = heap addr := by
  induction objects generalizing heap with
  | nil => rfl
  | cons object objects ih =>
    simp only [List.map_cons, List.mem_cons, not_or] at h
    change place (Function.update heap object.1 (some object.2)) objects addr = heap addr
    rw [ih h.2, Function.update_of_ne h.1]

theorem place_of_mem (hdistinct : (objects.map Prod.fst).Nodup) {addr : Nat} {x : α}
    (h : (addr, x) ∈ objects) : place heap objects addr = some x := by
  induction objects generalizing heap with
  | nil => exact absurd h List.not_mem_nil
  | cons object objects ih =>
    rw [List.map_cons, List.nodup_cons] at hdistinct
    change place (Function.update heap object.1 (some object.2)) objects addr = some x
    rcases List.mem_cons.mp h with rfl | hrest
    · rw [place_of_not_mem hdistinct.1, Function.update_self]
    · exact ih hdistinct.2 hrest

theorem place_isSome (addr : Nat) :
    (place heap objects addr).isSome ↔ addr ∈ objects.map Prod.fst ∨ (heap addr).isSome := by
  induction objects generalizing heap with
  | nil => simp [place]
  | cons object objects ih =>
    change (place (Function.update heap object.1 (some object.2)) objects addr).isSome ↔ _
    rw [ih]
    by_cases haddr : addr = object.1
    · simp [haddr]
    · simp [haddr]

theorem Holds.place_new (h : Holds heap addrs) (hdistinct : (objects.map Prod.fst).Nodup)
    (hfresh : ∀ addr ∈ objects.map Prod.fst, heap addr = none) :
    Holds (place heap objects) (objects.map Prod.fst ++ addrs) := by
  refine ⟨List.nodup_append'.mpr ⟨hdistinct, h.distinct, ?_⟩, fun addr => ?_⟩
  · intro addr hnew hold
    have hused := (h.used addr).mpr hold
    rw [hfresh addr hnew] at hused
    exact absurd hused (by simp)
  · rw [place_isSome, h.used, List.mem_append]

theorem Holds.place_old (h : Holds heap addrs)
    (hused : ∀ addr ∈ objects.map Prod.fst, addr ∈ addrs) : Holds (place heap objects) addrs := by
  refine ⟨h.distinct, fun addr => ?_⟩
  rw [place_isSome, h.used]
  exact ⟨fun hor => hor.elim (hused addr) id, Or.inr⟩

theorem Holds.free {addr : Nat} (h : Holds heap (addr :: addrs)) :
    free heap addr = some (Function.update heap addr none) ∧
      Holds (Function.update heap addr none) addrs := by
  have hnew : addr ∉ addrs := (List.nodup_cons.mp h.distinct).1
  refine ⟨if_pos ((h.used addr).mpr List.mem_cons_self), (List.nodup_cons.mp h.distinct).2, ?_⟩
  intro other
  by_cases hother : other = addr
  · simp [hother, hnew]
  · rw [Function.update_of_ne hother, h.used]
    simp [hother]

theorem Holds.freeAll (h : Holds heap (front ++ back)) :
    ∃ rest, freeAll heap front = some rest ∧ Holds rest back ∧
      ∀ addr ∉ front, rest addr = heap addr := by
  induction front generalizing heap with
  | nil => exact ⟨heap, rfl, h, fun _ _ => rfl⟩
  | cons addr front ih =>
    rcases h.free with ⟨hfree, hheld⟩
    rcases ih hheld with ⟨rest, hrest, hback, hother⟩
    refine ⟨rest, ?_, hback, fun other hmem => ?_⟩
    · rw [Heap.freeAll, List.foldlM_cons, hfree]
      exact hrest
    · rw [List.mem_cons, not_or] at hmem
      rw [hother other hmem.2, Function.update_of_ne hmem.1]

end IoWrapper.Core.Heap
