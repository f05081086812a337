import Mathlib.Algebra.GroupWithZero.Nat
import Mathlib.Data.List.Perm.Basic
import Mathlib.Data.List.Nodup

/-! Pools: lists in which only the members count, not their order. A member is
taken out by its position, and the laws say what that does to the rest. At the
end, backlogs: lists worked off from the front, where what is still to come
must stay within a limit at every point. -/
namespace IoWrapper.Core.Pool

variable {α β : Type}

theorem perm_eraseIdx {pool : List α} {i : Nat} {a : α} (h : pool[i]? = some a) :
    pool.Perm (a :: pool.eraseIdx i) := by
  rcases List.getElem?_eq_some_iff.mp h with ⟨hlt, ha⟩
  rw [← ha]
  exact (List.getElem_cons_eraseIdx_perm hlt).symm

theorem eq_of_nodup_map {pool : List α} {f : α → β} (h : (pool.map f).Nodup) {a b : α}
    (ha : a ∈ pool) (hb : b ∈ pool) (hab : f a = f b) : a = b :=
  List.inj_on_of_nodup_map h ha hb hab

theorem eraseIdx_of_split {pool front back : List α} {a : α} (h : pool = front ++ a :: back) :
    pool[front.length]? = some a ∧ pool.eraseIdx front.length = front ++ back := by
  rw [h, List.eraseIdx_append_of_length_le (Nat.le_refl _), Nat.sub_self]
  exact ⟨by simp, rfl⟩

theorem ne_of_perm_cons {pool rest : List α} {f : α → β} {a : α} (h : (pool.map f).Nodup)
    (hperm : pool.Perm (a :: rest)) : ∀ b ∈ rest, f b ≠ f a := by
  intro b hb heq
  have hcons : (f a :: rest.map f).Nodup := (hperm.map f).nodup_iff.mp h
  apply (List.nodup_cons.mp hcons).1
  rw [← heq]
  exact List.mem_map_of_mem hb

def total (weight : α → Nat) (pool : List α) : Nat := (pool.map weight).sum

@[simp] theorem total_nil (weight : α → Nat) : total weight [] = 0 := rfl

@[simp] theorem total_cons (weight : α → Nat) (a : α) (pool : List α) :
    total weight (a :: pool) = weight a + total weight pool := by
  simp [total]

@[simp] theorem total_append (weight : α → Nat) (front back : List α) :
    total weight (front ++ back) = total weight front + total weight back := by
  simp [total]

theorem total_add (weight more : α → Nat) (pool : List α) :
    total (fun a => weight a + more a) pool = total weight pool + total more pool := by
  induction pool with
  | nil => rfl
  | cons a pool ih =>
    simp only [total_cons, ih]
    omega

theorem total_eraseIdx (weight : α → Nat) {pool : List α} {i : Nat} {a : α}
    (h : pool[i]? = some a) :
    total weight pool = weight a + total weight (pool.eraseIdx i) := by
  rw [← total_cons]
  exact ((perm_eraseIdx h).map weight).sum_nat

theorem total_set (weight : α → Nat) {pool : List α} {i : Nat} {a : α} (b : α)
    (h : pool[i]? = some a) :
    total weight (pool.set i b) + weight a = total weight pool + weight b := by
  induction pool generalizing i with
  | nil => simp at h
  | cons c pool ih =>
    cases i with
    | zero =>
      simp only [List.getElem?_cons_zero, Option.some.injEq] at h
      rw [List.set_cons_zero, total_cons, total_cons, h]
      omega
    | succ i =>
      simp only [List.getElem?_cons_succ] at h
      rw [List.set_cons_succ, total_cons, total_cons]
      have := ih h
      omega

theorem le_total_of_mem (weight : α → Nat) {pool : List α} {a : α} (h : a ∈ pool) :
    weight a ≤ total weight pool := by
  rcases List.getElem?_of_mem h with ⟨i, hi⟩
  rw [total_eraseIdx weight hi]
  exact Nat.le_add_right _ _

theorem total_eq_zero_iff (weight : α → Nat) (pool : List α) :
    total weight pool = 0 ↔ ∀ a ∈ pool, weight a = 0 := by
  induction pool with
  | nil => simp
  | cons a pool ih => simp [ih]

theorem total_eq_count [DecidableEq α] (a : α) (pool : List α) :
    total (fun b => if b = a then 1 else 0) pool = pool.count a := by
  induction pool with
  | nil => rfl
  | cons b pool ih =>
    rw [total_cons, ih, List.count_cons]
    simp only [beq_iff_eq]
    omega

theorem perm_of_total_eq [DecidableEq α] {pool pool' : List α}
    (h : ∀ weight, total weight pool = total weight pool') : pool.Perm pool' := by
  rw [List.perm_iff_count]
  intro a
  rw [← total_eq_count, ← total_eq_count, h]

theorem total_mono {weight heavier : α → Nat} (pool : List α)
    (h : ∀ a ∈ pool, weight a ≤ heavier a) : total weight pool ≤ total heavier pool := by
  induction pool with
  | nil => exact Nat.le_refl _
  | cons a pool ih =>
    rw [total_cons, total_cons]
    exact Nat.add_le_add (h a (by simp)) (ih fun b hb => h b (by simp [hb]))

section Backlog

variable {base base' limit : Nat} {gives takes : α → Nat}

/-- Whatever part of the backlog has been worked off, the base with all that the
rest gives is within the limit and all that the rest takes. -/
def Covered (base limit : Nat) (gives takes : α → Nat) (backlog : List α) : Prop :=
  ∀ post, post <:+ backlog → base + total gives post ≤ limit + total takes post

theorem Covered.base_le {backlog : List α} (h : Covered base limit gives takes backlog) :
    base ≤ limit :=
  h [] (List.nil_suffix)

theorem covered_nil (h : base ≤ limit) : Covered base limit gives takes [] := by
  intro post hpost
  rw [List.suffix_nil.mp hpost]
  exact h

theorem Covered.cons {a : α} {backlog : List α} (h : Covered base limit gives takes backlog)
    (hall : base + total gives (a :: backlog) ≤ limit + total takes (a :: backlog)) :
    Covered base limit gives takes (a :: backlog) := by
  intro post hpost
  rcases List.suffix_cons_iff.mp hpost with heq | hrest
  · rw [heq]
    exact hall
  · exact h post hrest

theorem Covered.of_cons {a : α} {backlog : List α}
    (h : Covered base limit gives takes (a :: backlog)) :
    Covered base limit gives takes backlog :=
  fun post hpost => h post (hpost.trans (List.suffix_cons a backlog))

theorem Covered.append {backlog more : List α} (h : Covered base limit gives takes backlog)
    (hbase : base' + total gives more ≤ base + total takes more)
    (hmore : Covered base' limit gives takes more) :
    Covered base' limit gives takes (backlog ++ more) := by
  intro post hpost
  rcases hpost with ⟨front, hfront⟩
  rcases List.append_eq_append_iff.mp hfront with ⟨part, hbacklog, hpart⟩ | ⟨part, -, hpart⟩
  · have hcovered := h part ⟨front, hbacklog.symm⟩
    rw [hpart, total_append, total_append]
    omega
  · exact hmore post ⟨part, hpart.symm⟩

end Backlog

end IoWrapper.Core.Pool
