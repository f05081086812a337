import IoWrapper.Core.Collections
import IoWrapper.Core.Tables

/-! Tables as registries. The entries of a pool are filed in a table, each under a key of
its own and with the value that belongs to it, and nothing else is filed. At the end, numbers
that are handed out one after the other and never again. -/
namespace IoWrapper.Core.Registry
open Core.Collections Core.Tables

variable {α β : Type} {key : α → Nat} {value : α → β} {table : Table β} {entries : List α} {a : α}

structure Registers (key : α → Nat) (value : α → β) (table : Table β) (entries : List α) :
    Prop where
  nodup : (entries.map key).Nodup
  found : ∀ a ∈ entries, table.lookup (key a) = some (value a)
  keys : ∀ k ∈ table, ∃ a ∈ entries, key a = k

theorem registers_nil : Registers key value ∅ [] :=
  ⟨List.nodup_nil, fun _ => List.not_mem_nil.elim, fun k hk => absurd hk (AList.notMem_empty k)⟩

theorem Registers.mem_iff (h : Registers key value table entries) (k : Nat) :
    k ∈ table ↔ k ∈ entries.map key := by
  rw [List.mem_map]
  constructor
  · exact h.keys k
  · rintro ⟨a, ha, rfl⟩
    exact mem_of_lookup (h.found a ha)

theorem Registers.perm {entries' : List α} (h : Registers key value table entries)
    (hperm : entries'.Perm entries) : Registers key value table entries' := by
  refine ⟨(hperm.map key).nodup_iff.mpr h.nodup, ?_, ?_⟩
  · exact fun a ha => h.found a (hperm.mem_iff.mp ha)
  · intro k hk
    rcases h.keys k hk with ⟨a, ha, heq⟩
    exact ⟨a, hperm.mem_iff.mpr ha, heq⟩

theorem Registers.insert (h : Registers key value table entries) (hnew : key a ∉ table) :
    Registers key value (table.insert (key a) (value a)) (a :: entries) := by
  have hne : ∀ b ∈ entries, key b ≠ key a := by
    intro b hb heq
    apply hnew
    rw [← heq]
    exact mem_of_lookup (h.found b hb)
  constructor
  case nodup =>
    rw [List.map_cons, List.nodup_cons, List.mem_map]
    exact ⟨fun ⟨b, hb, heq⟩ => hne b hb heq, h.nodup⟩
  case found =>
    intro b hb
    rcases List.mem_cons.mp hb with rfl | hb
    · exact AList.lookup_insert table
    · rw [AList.lookup_insert_ne (hne b hb)]
      exact h.found b hb
  case keys =>
    intro k hk
    rcases AList.mem_insert table |>.mp hk with heq | hk
    · exact ⟨a, List.mem_cons_self .., heq.symm⟩
    · rcases h.keys k hk with ⟨b, hb, heq⟩
      exact ⟨b, List.mem_cons_of_mem a hb, heq⟩

theorem Registers.erase (h : Registers key value table (a :: entries)) :
    Registers key value (table.erase (key a)) entries := by
  have hnodup := List.nodup_cons.mp (List.map_cons ▸ h.nodup)
  have hne : ∀ b ∈ entries, key b ≠ key a := by
    intro b hb heq
    apply hnodup.1
    rw [← heq]
    exact List.mem_map_of_mem hb
  constructor
  case nodup => exact hnodup.2
  case found =>
    intro b hb
    rw [AList.lookup_erase_ne (hne b hb)]
    exact h.found b (List.mem_cons_of_mem a hb)
  case keys =>
    intro k hk
    rw [AList.mem_erase] at hk
    rcases h.keys k hk.2 with ⟨b, hb, rfl⟩
    rcases List.mem_cons.mp hb with rfl | hb
    · exact absurd rfl hk.1
    · exact ⟨b, hb, rfl⟩

section Issue

variable {numbers : Nat → Option Nat} {count : Nat}

/-- So many numbers have been handed out, and nobody has the number of another one. -/
structure Issued (numbers : Nat → Option Nat) (count : Nat) : Prop where
  below : ∀ k n, numbers k = some n → n < count
  injective : ∀ k k' n, numbers k = some n → numbers k' = some n → k = k'

theorem issued_none : Issued (fun _ => none) 0 := by
  constructor
  · intro k n h
    cases h
  · intro k k' n h
    cases h

theorem Issued.add (h : Issued numbers count) (k : Nat) :
    Issued (Function.update numbers k (some count)) (count + 1) := by
  constructor
  case below =>
    intro k' n hk
    rcases eq_some_of_update_some hk with hold | ⟨-, rfl⟩
    · exact Nat.lt_succ_of_lt (h.below k' n hold)
    · exact Nat.lt_succ_self _
  case injective =>
    intro a b n ha hb
    rcases eq_some_of_update_some ha with hold | ⟨rfl, rfl⟩
    · rcases eq_some_of_update_some hb with hold' | ⟨-, rfl⟩
      · exact h.injective a b n hold hold'
      · exact absurd (h.below a n hold) (Nat.lt_irrefl n)
    · rcases eq_some_of_update_some hb with hold | ⟨rfl, -⟩
      · exact absurd (h.below b n hold) (Nat.lt_irrefl n)
      · rfl

theorem Issued.mono {fewer : Nat → Option Nat} (h : Issued numbers count)
    (hfewer : ∀ {k n}, fewer k = some n → numbers k = some n) : Issued fewer count :=
  ⟨fun k n hk => h.below k n (hfewer hk),
    fun a b n ha hb => h.injective a b n (hfewer ha) (hfewer hb)⟩

theorem Issued.remove (h : Issued numbers count) (k : Nat) :
    Issued (Function.update numbers k none) count :=
  h.mono eq_some_of_update_none

end Issue

end IoWrapper.Core.Registry
