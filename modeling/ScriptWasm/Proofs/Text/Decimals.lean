import ScriptWasm.Text.Decimal

/-!
Decimal notation reads back. The digits of a number denote that number, and there is at least one.
-/

namespace ScriptWasm

set_option autoImplicit false

theorem read_decimal_of_chars (number : Nat) : readDecimal (decimalChars number) = number := by
  have fold := Nat.ofDigitChars_ten_toDigits (n := number)
  rw [Nat.ofDigitChars_eq_foldl] at fold
  exact fold

theorem decimal_chars_are_digits (number : Nat) (char : Char)
    (member : char ∈ decimalChars number) : isDigit char = true := by
  have digit := Nat.isDigit_of_mem_toDigits (by omega) (by omega) member
  rw [Char.isDigit, Bool.and_eq_true, decide_eq_true_eq, decide_eq_true_eq] at digit
  rw [isDigit, Bool.and_eq_true, decide_eq_true_eq, decide_eq_true_eq]
  exact digit

theorem decimal_chars_start (number : Nat) :
    ∃ first rest, decimalChars number = first :: rest ∧ isDigit first = true ∧
      ∀ char ∈ rest, isDigit char = true := by
  cases digits : decimalChars number with
  | nil => exact absurd digits Nat.toDigits_ne_nil
  | cons first rest =>
      have known := decimal_chars_are_digits number
      rw [digits] at known
      exact ⟨first, rest, rfl, known first (by simp), fun char member => known char (by simp [member])⟩

end ScriptWasm
