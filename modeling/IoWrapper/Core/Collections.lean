import Mathlib.Algebra.BigOperators.Group.Finset.Piecewise
import Mathlib.Data.List.Forall2

/-! What is used of lists, of tables and of sums over a finite type beyond the library. -/
namespace IoWrapper.Core.Collections

section Lists

variable {α β : Type}

theorem filterMap_cons_toList (f : α → Option β) (a : α) (rest : List α) :
    (a :: rest).filterMap f = (f a).toList ++ rest.filterMap f := by
  rw [List.filterMap_cons]
  cases f a <;> rfl

theorem mapM_eq_some_iff {f : α → Option β} {l : List α} {out : List β} :
    l.mapM f = some out ↔ l.map f = out.map some := by
  induction l generalizing out with
  | nil =>
    cases out with
    | nil => simp
    | cons b bs => simp
  | cons a l ih =>
    rw [List.mapM_cons, List.map_cons]
    constructor
    · intro h
      rcases Option.bind_eq_some_iff.mp h with ⟨b, hb, h⟩
      rcases Option.bind_eq_some_iff.mp h with ⟨bs, hbs, h⟩
      cases h
      rw [hb, ih.mp hbs, List.map_cons]
    · intro h
      cases out with
      | nil => simp at h
      | cons b bs =>
        rw [List.map_cons, List.cons.injEq] at h
        rw [h.1, ih.mpr h.2]
        rfl

theorem flatMap_eq_iff {f g : α → List β} {items : List α}
    (h : ∀ a, f a = g a ∨ (f a).length < (g a).length) :
    items.flatMap f = items.flatMap g ↔ ∀ a ∈ items, f a = g a := by
  have hle : ∀ items : List α, (items.flatMap f).length ≤ (items.flatMap g).length := by
    intro items
    induction items with
    | nil => exact Nat.le_refl _
    | cons a items ih =>
      rw [List.flatMap_cons, List.flatMap_cons, List.length_append, List.length_append]
      rcases h a with heq | hlt
      · rw [heq]
        omega
      · omega
  constructor
  · intro hall
    induction items with
    | nil => exact fun a => List.not_mem_nil.elim
    | cons a items ih =>
      rw [List.flatMap_cons, List.flatMap_cons] at hall
      rcases h a with heq | hlt
      · rw [heq, List.append_cancel_left_eq] at hall
        exact List.forall_mem_cons.mpr ⟨heq, ih hall⟩
      · have hlength := congrArg List.length hall
        have hrest := hle items
        rw [List.length_append, List.length_append] at hlength
        omega
  · intro hall
    exact List.flatMap_congr hall

variable {R : α → β → Prop}

theorem exists_of_forall₂ {l : List α} {u : List β} {a : α} (h : List.Forall₂ R l u)
    (ha : a ∈ l) : ∃ b ∈ u, R a b := by
  induction h with
  | nil => cases ha
  | cons hfirst _ ih =>
    rcases List.mem_cons.mp ha with rfl | hrest
    · exact ⟨_, List.mem_cons_self .., hfirst⟩
    · rcases ih hrest with ⟨b, hb, hrel⟩
      exact ⟨b, List.mem_cons_of_mem _ hb, hrel⟩

theorem forall₂_concat_right {xs : List α} {ys : List β} {y : β}
    (h : List.Forall₂ R xs (ys ++ [y])) :
    ∃ front x, xs = front ++ [x] ∧ List.Forall₂ R front ys ∧ R x y := by
  rcases List.forall₂_cons_right_iff.mp (List.forall₂_drop_append _ _ _ h) with
    ⟨x, rest, hx, hrest, hdrop⟩
  cases hrest
  exact ⟨_, x, by rw [← hdrop, List.take_append_drop], List.forall₂_take_append _ _ _ h, hx⟩

end Lists

section Updates

variable {ι β : Type} [DecidableEq ι] {f : ι → Option β} {i j : ι} {b c : β}

theorem eq_some_of_update {v : Option β} (h : Function.update f i v j = some c) :
    j = i ∧ v = some c ∨ j ≠ i ∧ f j = some c := by
  by_cases heq : j = i
  · rw [heq, Function.update_self] at h
    exact Or.inl ⟨heq, h⟩
  · rw [Function.update_of_ne heq] at h
    exact Or.inr ⟨heq, h⟩

theorem eq_some_of_update_none (h : Function.update f i none j = some c) : f j = some c := by
  rcases eq_some_of_update h with ⟨-, hnone⟩ | ⟨-, hold⟩
  · cases hnone
  · exact hold

theorem eq_some_of_update_some (h : Function.update f i (some b) j = some c) :
    f j = some c ∨ j = i ∧ c = b := by
  rcases eq_some_of_update h with ⟨heq, hsome⟩ | ⟨-, hold⟩
  · exact Or.inr ⟨heq, (Option.some.inj hsome).symm⟩
  · exact Or.inl hold

end Updates

theorem sum_update_add {ι β : Type} [Fintype ι] [DecidableEq ι] (weight : β → Nat) (f : ι → β)
    (i : ι) (b : β) :
    (∑ j, weight (Function.update f i b j)) + weight (f i) = (∑ j, weight (f j)) + weight b := by
  have hupdate : (fun j => weight (Function.update f i b j)) =
      Function.update (fun j => weight (f j)) i (weight b) :=
    Function.comp_update weight f i b
  rw [hupdate, Finset.sum_update_of_mem (Finset.mem_univ i),
    ← Finset.add_sum_erase Finset.univ (fun j => weight (f j)) (Finset.mem_univ i),
    Finset.sdiff_singleton_eq_erase]
  omega

end IoWrapper.Core.Collections
