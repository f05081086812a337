import Mathlib.Data.List.AList
import IoWrapper.Core.Pool

/-! Tables from numbers to values, and the weight of a table: the laws say what
filling, changing and clearing a place does to it. -/
namespace IoWrapper.Core.Tables
open Core.Pool

variable {α : Type}

abbrev Table (α : Type) := AList fun _ : Nat => α

def weight (w : α → Nat) (table : Table α) : Nat := total (fun entry => w entry.2) table.entries

theorem weight_insert_of_notMem (w : α → Nat) {table : Table α} {key : Nat} (a : α)
    (h : key ∉ table) : weight w (table.insert key a) = w a + weight w table := by
  unfold weight
  rw [AList.entries_insert_of_notMem h, total_cons]

theorem mem_of_lookup {table : Table α} {key : Nat} {a : α} (h : table.lookup key = some a) :
    key ∈ table := by
  rw [← AList.lookup_isSome, h]
  rfl

theorem notMem_erase (table : Table α) (key : Nat) : key ∉ table.erase key :=
  fun h => (AList.mem_erase.mp h).1 rfl

theorem weight_erase (w : α → Nat) {table : Table α} {key : Nat} {a : α}
    (h : table.lookup key = some a) : weight w (table.erase key) + w a = weight w table := by
  rcases List.exists_of_kerase (AList.mem_keys.mp (mem_of_lookup h)) with
    ⟨b, front, back, hfront, hentries, herase⟩
  have hb : b = a := by
    have hlookup : table.lookup key = some b :=
      AList.mem_lookup_iff.mpr (by rw [hentries]; simp)
    rw [h] at hlookup
    exact (Option.some.inj hlookup).symm
  have herased : (table.erase key).entries = front ++ back := herase
  unfold weight
  rw [herased, hentries, total_append, total_append, total_cons, hb]
  dsimp only
  omega

theorem weight_insert (w : α → Nat) {table : Table α} {key : Nat} {a : α} (b : α)
    (h : table.lookup key = some a) :
    weight w (table.insert key b) + w a = weight w table + w b := by
  have herase := weight_erase w h
  have hinsert := weight_insert_of_notMem w b (notMem_erase table key)
  have hsame : (table.insert key b).entries = ((table.erase key).insert key b).entries := by
    rw [AList.entries_insert_of_notMem (notMem_erase table key), AList.entries_insert]
    rfl
  unfold weight at herase hinsert ⊢
  rw [hsame]
  omega

theorem le_weight (w : α → Nat) {table : Table α} {key : Nat} {a : α}
    (h : table.lookup key = some a) : w a ≤ weight w table := by
  have := weight_erase w h
  omega

theorem add_le_weight (w : α → Nat) {table : Table α} {key other : Nat} {a b : α}
    (hne : other ≠ key) (ha : table.lookup key = some a) (hb : table.lookup other = some b) :
    w a + w b ≤ weight w table := by
  have herase := weight_erase w ha
  have hrest : (table.erase key).lookup other = some b := by
    rw [AList.lookup_erase_ne hne, hb]
  have := le_weight w hrest
  omega

theorem length_le_weight (w : α → Nat) {table : Table α} {places : List Nat}
    (hnodup : places.Nodup)
    (h : ∀ key ∈ places, ∃ a, table.lookup key = some a ∧ 0 < w a) :
    places.length ≤ weight w table := by
  induction places generalizing table with
  | nil => exact Nat.zero_le _
  | cons key places ih =>
    rcases h key (List.mem_cons_self ..) with ⟨a, ha, hpos⟩
    have herase := weight_erase w ha
    have hrest : places.length ≤ weight w (table.erase key) := by
      apply ih (List.nodup_cons.mp hnodup).2
      intro other hother
      have hne : other ≠ key := by
        rintro rfl
        exact (List.nodup_cons.mp hnodup).1 hother
      rw [AList.lookup_erase_ne hne]
      exact h other (List.mem_cons_of_mem key hother)
    rw [List.length_cons]
    omega

theorem exists_of_weight_pos {w : α → Nat} {table : Table α} (h : 0 < weight w table) :
    ∃ key a, table.lookup key = some a ∧ 0 < w a := by
  by_contra hnone
  have hzero : weight w table = 0 := by
    unfold weight
    rw [total_eq_zero_iff]
    intro entry hentry
    by_contra hpos
    exact hnone ⟨entry.1, entry.2, AList.mem_lookup_iff.mpr hentry, Nat.pos_of_ne_zero hpos⟩
  omega

theorem length_keys_insert_of_notMem {table : Table α} {key : Nat} (a : α) (h : key ∉ table) :
    (table.insert key a).keys.length = table.keys.length + 1 := by
  rw [AList.keys_insert, List.length_cons, List.erase_of_not_mem (fun hin => h hin)]

theorem length_keys_insert {table : Table α} {key : Nat} (a : α) (h : key ∈ table) :
    (table.insert key a).keys.length = table.keys.length := by
  have hmem : key ∈ table.keys := AList.mem_keys.mp h
  have hpos := List.length_pos_of_mem hmem
  rw [AList.keys_insert, List.length_cons, List.length_erase_of_mem hmem]
  omega

theorem length_keys_erase {table : Table α} {key : Nat} (h : key ∈ table) :
    (table.erase key).keys.length + 1 = table.keys.length := by
  have hmem : key ∈ table.keys := AList.mem_keys.mp h
  have hpos := List.length_pos_of_mem hmem
  rw [AList.keys_erase, List.length_erase_of_mem hmem]
  omega

end IoWrapper.Core.Tables
