import Mathlib.Algebra.Group.Int.Defs
import Mathlib.Data.Nat.Digits.Defs
import Mathlib.Tactic.IntervalCases

/-! Decimal text, as bytes: the value of a string of digits, integers with an optional sign,
and the digits that a number is printed with. -/
namespace IoWrapper.Core.Decimal

abbrev Text := List UInt8

def plus : UInt8 := 43
def minus : UInt8 := 45

def IsDigit (c : UInt8) : Prop := 48 ≤ c ∧ c ≤ 57

instance (c : UInt8) : Decidable (IsDigit c) := inferInstanceAs (Decidable (_ ∧ _))

def digit (c : UInt8) : Nat := c.toNat - 48

def valueFrom (n : Nat) (text : Text) : Nat := text.foldl (fun n c => n * 10 + digit c) n

def value (text : Text) : Nat := valueFrom 0 text

structure Digits (text : Text) : Prop where
  nonempty : text ≠ []
  digits : ∀ c ∈ text, IsDigit c

inductive Numeral : Text → Int → Prop where
  | unsigned {text : Text} (h : Digits text) : Numeral text (value text)
  | positive {text : Text} (h : Digits text) : Numeral (plus :: text) (value text)
  | negative {text : Text} (h : Digits text) : Numeral (minus :: text) (-value text)

def print (n : Nat) : Text :=
  if n = 0 then [48] else (Nat.digits 10 n).reverse.map fun d => UInt8.ofNat (48 + d)

theorem valueFrom_cons (n : Nat) (c : UInt8) (text : Text) :
    valueFrom n (c :: text) = valueFrom (n * 10 + digit c) text :=
  List.foldl_cons ..

theorem le_valueFrom (n : Nat) (text : Text) : n ≤ valueFrom n text := by
  induction text generalizing n with
  | nil => exact Nat.le_refl n
  | cons c text ih =>
    rw [valueFrom_cons]
    exact Nat.le_trans (by omega) (ih _)

theorem not_isDigit_plus : ¬ IsDigit plus := by decide

theorem not_isDigit_minus : ¬ IsDigit minus := by decide

theorem Numeral.notMem {text : Text} {v : Int} {c : UInt8} (h : Numeral text v)
    (hdigit : ¬ IsDigit c) (hplus : c ≠ plus) (hminus : c ≠ minus) : c ∉ text := by
  have hdigits : ∀ digits, Digits digits → c ∉ digits :=
    fun digits hall hmem => hdigit (hall.digits c hmem)
  cases h with
  | unsigned h => exact hdigits text h
  | positive h => exact List.not_mem_cons_of_ne_of_not_mem hplus (hdigits _ h)
  | negative h => exact List.not_mem_cons_of_ne_of_not_mem hminus (hdigits _ h)

theorem digit_ofNat {d : Nat} (h : d < 10) :
    IsDigit (UInt8.ofNat (48 + d)) ∧ digit (UInt8.ofNat (48 + d)) = d := by
  interval_cases d <;> decide

theorem valueFrom_append (n : Nat) (front back : Text) :
    valueFrom n (front ++ back) = valueFrom (valueFrom n front) back :=
  List.foldl_append

theorem value_reverse_digits (ds : List Nat) (h : ∀ d ∈ ds, d < 10) :
    value (ds.reverse.map fun d => UInt8.ofNat (48 + d)) = Nat.ofDigits 10 ds := by
  induction ds with
  | nil => rfl
  | cons d ds ih =>
    have hfirst := (digit_ofNat (h d (List.mem_cons_self ..))).2
    have hrest := ih fun e he => h e (List.mem_cons_of_mem _ he)
    unfold value at hrest ⊢
    rw [List.reverse_cons, List.map_append, valueFrom_append, hrest, List.map_singleton,
      valueFrom_cons, hfirst, Nat.ofDigits_cons]
    change Nat.ofDigits 10 ds * 10 + d = d + 10 * Nat.ofDigits 10 ds
    omega

theorem digits_print (n : Nat) : Digits (print n) := by
  unfold print
  split
  · exact ⟨List.cons_ne_nil _ _, List.forall_mem_singleton.mpr (by decide)⟩
  · rename_i hn
    constructor
    · simp [Nat.digits_ne_nil_iff_ne_zero, hn]
    · intro c hc
      rcases List.mem_map.mp hc with ⟨d, hd, rfl⟩
      exact (digit_ofNat (Nat.digits_lt_base (by decide) (List.mem_reverse.mp hd))).1

theorem value_print (n : Nat) : value (print n) = n := by
  unfold print
  split
  · rename_i hn
    rw [hn]
    rfl
  · rw [value_reverse_digits _ fun d hd => Nat.digits_lt_base (by decide) hd]
    exact Nat.ofDigits_digits 10 n

theorem numeral_print (n : Nat) : Numeral (print n) n := by
  have h := Numeral.unsigned (digits_print n)
  rw [value_print] at h
  exact h

end IoWrapper.Core.Decimal
