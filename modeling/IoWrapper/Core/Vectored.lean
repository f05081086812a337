import Mathlib.Algebra.GroupWithZero.Nat
import Mathlib.Data.List.Basic

/-! Vectored transfers. A block of memory is a list of cells, a cell that
nothing has been written to is `none`, and a transfer fills the blocks in
order. The laws below say where each transferred item lands, for blocks of any
lengths and transfers that stop short. -/
namespace IoWrapper.Core.Vectored

variable {α : Type}

abbrev Block (α : Type) := List (Option α)

def blank (α : Type) (length : Nat) : Block α := List.replicate length none

def fillOne (block : Block α) (data : List α) : Block α :=
  (data.take block.length).map some ++ block.drop data.length

def fill : List (Block α) → List α → List (Block α)
  | [], _ => []
  | block :: blocks, data => fillOne block data :: fill blocks (data.drop block.length)

@[simp] theorem fillOne_length (block : Block α) (data : List α) :
    (fillOne block data).length = block.length := by
  simp only [fillOne, List.length_append, List.length_map, List.length_take, List.length_drop]
  omega

@[simp] theorem fillOne_nil (block : Block α) : fillOne block [] = block := by
  simp [fillOne]

@[simp] theorem fill_nil (blocks : List (Block α)) : fill blocks [] = blocks := by
  induction blocks with
  | nil => rfl
  | cons block blocks ih => simp [fill, ih]

@[simp] theorem fill_map_length (blocks : List (Block α)) (data : List α) :
    (fill blocks data).map List.length = blocks.map List.length := by
  induction blocks generalizing data with
  | nil => rfl
  | cons block blocks ih => simp [fill, ih]

/-- Read back without regard to block bounds: the items in order, then what
the transfer left alone. -/
theorem fill_flatten (blocks : List (Block α)) (data : List α) :
    (fill blocks data).flatten =
      (data.take blocks.flatten.length).map some ++ blocks.flatten.drop data.length := by
  induction blocks generalizing data with
  | nil => simp [fill]
  | cons block blocks ih =>
    simp only [fill, List.flatten_cons, ih, fillOne, List.length_append, List.length_drop]
    by_cases h : data.length ≤ block.length
    · have hdrop : data.drop block.length = [] := List.drop_eq_nil_of_le h
      have hzero : data.length - block.length = 0 := by omega
      have hleft : data.take block.length = data := List.take_of_length_le h
      have hall : data.take (block.length + blocks.flatten.length) = data :=
        List.take_of_length_le (by omega)
      simp only [hdrop, hzero, hleft, hall, List.take_nil, List.map_nil, List.nil_append,
        List.drop_zero]
      rw [List.append_assoc, List.drop_append, hzero, List.drop_zero]
    · have hblock : block.drop data.length = [] := List.drop_eq_nil_of_le (by omega)
      rw [hblock, List.append_nil, List.drop_append, hblock, List.nil_append,
        List.take_add, List.map_append, List.append_assoc]

theorem fill_append_of_le (front back : List (Block α)) (data : List α)
    (h : data.length ≤ front.flatten.length) :
    fill (front ++ back) data = fill front data ++ back := by
  induction front generalizing data with
  | nil =>
    have hdata : data = [] := List.eq_nil_of_length_eq_zero (by simpa using h)
    simp [fill, hdata]
  | cons block front ih =>
    simp only [List.cons_append, fill]
    rw [ih _ (by
      simp only [List.flatten_cons, List.length_append] at h
      simp only [List.length_drop]
      omega)]

theorem flatten_map_blank (lengths : List Nat) :
    (lengths.map (blank α)).flatten = blank α lengths.sum := by
  induction lengths with
  | nil => rfl
  | cons length lengths ih =>
    simp only [List.map_cons, List.flatten_cons, ih, List.sum_cons, blank,
      List.replicate_append_replicate]

end IoWrapper.Core.Vectored
