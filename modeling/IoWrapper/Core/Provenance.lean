import Mathlib.Data.List.Basic

/-! Memory that knows where its bytes come from. Each place holds a byte and a note of its
origin; what is stored and what is read carry the notes along. Repainting changes the bytes of
every origin but one and leaves the notes, so that a text that stays the same when it is
repainted has no byte of another origin. -/
namespace IoWrapper.Core.Provenance

variable {α β : Type}

structure Mark (α β : Type) where
  byte : α
  origin : Option β
deriving DecidableEq

def Mark.Own (own : β) (m : Mark α β) : Prop := ∀ origin ∈ m.origin, origin = own

def store (mem : Nat → Mark α β) (start : Nat) (origin : Option β) (data : List α) (p : Nat) :
    Mark α β :=
  if start ≤ p then
    match data[p - start]? with
    | some byte => ⟨byte, origin⟩
    | none => mem p
  else mem p

def window (mem : Nat → Mark α β) (start count : Nat) : List (Mark α β) :=
  (List.range' start count).map mem

section Places

variable {mem : Nat → Mark α β} {start count p : Nat} {origin : Option β} {data : List α}

theorem store_of_lt (h : p < start) : store mem start origin data p = mem p :=
  if_neg (Nat.not_le.mpr h)

theorem store_of_le (hle : start ≤ p) {byte : α} (hbyte : data[p - start]? = some byte) :
    store mem start origin data p = ⟨byte, origin⟩ := by
  rw [store, if_pos hle, hbyte]

theorem store_cases : store mem start origin data p = mem p ∨
    (store mem start origin data p).origin = origin := by
  unfold store
  split
  · split
    · exact Or.inr rfl
    · exact Or.inl rfl
  · exact Or.inl rfl

theorem mem_window {m : Mark α β} :
    m ∈ window mem start count ↔ ∃ p, start ≤ p ∧ p < start + count ∧ mem p = m := by
  simp [window, and_assoc]

theorem window_bytes {message : List α} (hlen : start + count ≤ message.length)
    (h : ∀ p byte, start ≤ p → p < start + count → message[p]? = some byte →
      (mem p).byte = byte) :
    (window mem start count).map Mark.byte = (message.drop start).take count := by
  apply List.ext_getElem?
  intro i
  rcases Nat.lt_or_ge i count with hlt | hge
  · have hmessage : start + i < message.length := by omega
    have hbyte := List.getElem?_eq_getElem hmessage
    simp only [window, List.map_map, List.getElem?_map, List.getElem?_range' hlt,
      List.getElem?_take_of_lt hlt, List.getElem?_drop, hbyte, Option.map_some, Nat.one_mul]
    exact congrArg some (h (start + i) _ (Nat.le_add_right ..) (by omega) hbyte)
  · rw [List.getElem?_eq_none (by simpa [window] using hge),
      List.getElem?_eq_none (by rw [List.length_take]; omega)]

end Places

section Repaint

variable [DecidableEq β] {f : α → α} {own : β} {m : Mark α β} {marks : List (Mark α β)}

instance (own : β) (m : Mark α β) : Decidable (m.Own own) :=
  inferInstanceAs (Decidable (∀ origin ∈ m.origin, origin = own))

def Mark.repaint (f : α → α) (own : β) (m : Mark α β) : Mark α β :=
  if m.Own own then m else { m with byte := f m.byte }

def dye (f : α → α) (own : β) (origin : Option β) (data : List α) : List α :=
  data.map fun byte => (Mark.repaint f own ⟨byte, origin⟩).byte

theorem repaint_of_own (h : m.Own own) : m.repaint f own = m := if_pos h

@[simp] theorem repaint_origin : (m.repaint f own).origin = m.origin := by
  unfold Mark.repaint
  split <;> rfl

theorem repaint_eq : m.repaint f own = ⟨(m.repaint f own).byte, m.origin⟩ := by
  unfold Mark.repaint
  split <;> rfl

theorem own_repaint : (m.repaint f own).Own own ↔ m.Own own := by
  rw [Mark.Own, repaint_origin, Mark.Own]

/-- Where every byte changes its colour, only one's own bytes keep theirs. -/
theorem own_of_bytes (hf : ∀ a, f a ≠ a)
    (h : (marks.map (Mark.repaint f own)).map Mark.byte = marks.map Mark.byte) :
    ∀ m ∈ marks, m.Own own := by
  rw [List.map_map, List.map_inj_left] at h
  intro m hm
  by_contra hother
  have hbyte := h m hm
  rw [Function.comp_apply, Mark.repaint, if_neg hother] at hbyte
  exact hf m.byte hbyte

theorem map_repaint_of_own (h : ∀ m ∈ marks, m.Own own) :
    marks.map (Mark.repaint f own) = marks := by
  conv_rhs => rw [← List.map_id marks]
  exact List.map_congr_left fun m hm => repaint_of_own (h m hm)

@[simp] theorem dye_length (origin : Option β) (data : List α) :
    (dye f own origin data).length = data.length :=
  List.length_map ..

theorem dye_own (data : List α) : dye f own (some own) data = data := by
  conv_rhs => rw [← List.map_id data]
  apply List.map_congr_left
  intro byte _
  rw [repaint_of_own (by simp [Mark.Own])]
  rfl

theorem dye_const_dye (a : α) (origin : Option β) (data : List α) :
    dye (fun _ => a) own origin (dye f own origin data) = dye (fun _ => a) own origin data := by
  unfold dye
  rw [List.map_map]
  apply List.map_congr_left
  intro byte _
  by_cases hown : Mark.Own own (⟨byte, origin⟩ : Mark α β)
  · rw [Function.comp_apply, repaint_of_own hown, repaint_of_own hown]
  · have hother : ∀ byte, ¬Mark.Own own (⟨byte, origin⟩ : Mark α β) := fun _ => hown
    simp only [Function.comp_apply, Mark.repaint, if_neg (hother _)]

theorem store_repaint (mem : Nat → Mark α β) (start : Nat) (origin : Option β) (data : List α) :
    store (fun p => (mem p).repaint f own) start origin (dye f own origin data) =
      fun p => (store mem start origin data p).repaint f own := by
  funext p
  by_cases hle : start ≤ p
  · simp only [store, if_pos hle, dye, List.getElem?_map]
    cases data[p - start]? with
    | none => rfl
    | some byte => exact repaint_eq.symm
  · rw [store_of_lt (Nat.not_le.mp hle), store_of_lt (Nat.not_le.mp hle)]

theorem window_repaint (mem : Nat → Mark α β) (start count : Nat) :
    window (fun p => (mem p).repaint f own) start count =
      (window mem start count).map (Mark.repaint f own) := by
  rw [window, window, List.map_map]
  rfl

end Repaint

end IoWrapper.Core.Provenance
