import Mathlib.Data.List.Basic

/-! Items that wait in a line. Those at the front have been served and carry a label each, the
others follow in their order. -/
namespace IoWrapper.Core.Labels

variable {α β γ : Type} {items : List α} {labels : List β} {item : α} {i : Nat}

def served (f : α → β → γ) (items : List α) (labels : List β) : List γ :=
  List.zipWith f items labels

def waiting (items : List α) (labels : List β) : List α := items.drop labels.length

section Served

variable (f : α → β → γ)

theorem served_getElem? {label : β} (hitem : items[i]? = some item)
    (hlabel : labels[i]? = some label) : (served f items labels)[i]? = some (f item label) := by
  rw [served, List.getElem?_zipWith, hitem, hlabel]

theorem served_append (more : List α) (h : labels.length ≤ items.length) :
    served f (items ++ more) labels = served f items labels := by
  unfold served
  induction items generalizing labels with
  | nil =>
    rw [List.eq_nil_of_length_eq_zero (Nat.le_zero.mp h), List.zipWith_nil_right,
      List.zipWith_nil_right]
  | cons item items ih =>
    cases labels with
    | nil => rfl
    | cons label labels =>
      rw [List.cons_append, List.zipWith_cons_cons, ih (Nat.le_of_succ_le_succ h),
        List.zipWith_cons_cons]

theorem served_concat (label : β) (hitem : items[labels.length]? = some item) :
    served f items (labels ++ [label]) = served f items labels ++ [f item label] := by
  unfold served
  induction labels generalizing items with
  | nil =>
    cases items with
    | nil => cases hitem
    | cons first rest =>
      cases hitem
      simp
  | cons own labels ih =>
    cases items with
    | nil => cases hitem
    | cons first rest =>
      rw [List.length_cons, List.getElem?_cons_succ] at hitem
      rw [List.cons_append, List.zipWith_cons_cons, ih hitem, List.zipWith_cons_cons,
        List.cons_append]

theorem served_set (label : β) (hitem : items[i]? = some item) :
    served f items (labels.set i label) = (served f items labels).set i (f item label) := by
  unfold served
  induction items generalizing labels i with
  | nil => cases hitem
  | cons first rest ih =>
    cases labels with
    | nil => rfl
    | cons own labels =>
      cases i with
      | zero =>
        cases hitem
        rfl
      | succ i =>
        rw [List.getElem?_cons_succ] at hitem
        rw [List.set_cons_succ, List.zipWith_cons_cons, ih hitem, List.zipWith_cons_cons,
          List.set_cons_succ]

theorem served_eraseIdx (items : List α) (labels : List β) (i : Nat) :
    served f (items.eraseIdx i) (labels.eraseIdx i) = (served f items labels).eraseIdx i := by
  unfold served
  induction i generalizing items labels with
  | zero => cases items <;> cases labels <;> simp
  | succ i ih =>
    cases items with
    | nil => rfl
    | cons first rest =>
      cases labels with
      | nil => rfl
      | cons own labels =>
        rw [List.eraseIdx_cons_succ, List.eraseIdx_cons_succ, List.zipWith_cons_cons, ih,
          List.zipWith_cons_cons, List.eraseIdx_cons_succ]

theorem served_eraseIdx_length (items : List α) (labels : List β) :
    served f (items.eraseIdx labels.length) labels = served f items labels := by
  unfold served
  induction labels generalizing items with
  | nil => rw [List.zipWith_nil_right, List.zipWith_nil_right]
  | cons own labels ih =>
    cases items with
    | nil => rfl
    | cons first rest =>
      rw [List.length_cons, List.eraseIdx_cons_succ, List.zipWith_cons_cons, ih,
        List.zipWith_cons_cons]

end Served

theorem waiting_append (more : List α) (h : labels.length ≤ items.length) :
    waiting (items ++ more) labels = waiting items labels ++ more :=
  List.drop_append_of_le_length h

theorem waiting_eq_cons (hitem : items[labels.length]? = some item) :
    waiting items labels = item :: items.drop (labels.length + 1) := by
  rw [waiting, List.drop_eq_getElem?_toList_append, hitem]
  rfl

theorem waiting_concat (label : β) :
    waiting items (labels ++ [label]) = items.drop (labels.length + 1) := by
  rw [waiting, List.length_append, List.length_singleton]

theorem waiting_set (label : β) : waiting items (labels.set i label) = waiting items labels := by
  rw [waiting, List.length_set, waiting]

theorem waiting_eraseIdx (h : i < labels.length) :
    waiting (items.eraseIdx i) (labels.eraseIdx i) = waiting items labels := by
  unfold waiting
  rw [List.length_eraseIdx_of_lt h]
  apply List.ext_getElem?
  intro j
  rw [List.getElem?_drop, List.getElem?_drop, List.getElem?_eraseIdx_of_ge (by omega)]
  congr 1
  omega

theorem waiting_eraseIdx_length :
    waiting (items.eraseIdx labels.length) labels = items.drop (labels.length + 1) := by
  unfold waiting
  apply List.ext_getElem?
  intro j
  rw [List.getElem?_drop, List.getElem?_drop, List.getElem?_eraseIdx_of_ge (by omega)]
  congr 1
  omega

theorem mem_served_or_waiting (f : α → β → γ) (h : item ∈ items) :
    (∃ label, f item label ∈ served f items labels) ∨ item ∈ waiting items labels := by
  rcases List.mem_iff_getElem?.mp h with ⟨i, hitem⟩
  cases hlabel : labels[i]? with
  | some label =>
    exact Or.inl ⟨label, List.mem_of_getElem? (served_getElem? f hitem hlabel)⟩
  | none =>
    have hle := List.getElem?_eq_none_iff.mp hlabel
    refine Or.inr (List.mem_iff_getElem?.mpr ⟨i - labels.length, ?_⟩)
    rw [waiting, List.getElem?_drop, Nat.add_sub_cancel' hle, hitem]

end IoWrapper.Core.Labels
