import Mathlib.Algebra.Ring.Int.Defs
import ScriptWasm.Code.Generate
import ScriptWasm.Machine.Host
import ScriptWasm.Proofs.Semantics.Evaluator

/-!
Programs on machine words. Words are read as integers in two's complement: sums, differences and
products wrap around, quotients and remainders round toward zero and trap where there is no answer,
and comparisons answer one or zero. Words do not know their type, so `is None` and printing go by
the annotations.
-/

namespace ScriptWasm

set_option autoImplicit false

namespace Word

def divide (left right : Word) : Except Halt Word :=
  if right.toInt = 0 then .error (.trap (.arithmetic .divideByZero))
  else if left.toInt = -2 ^ 31 ∧ right.toInt = -1 then .error (.trap (.arithmetic .overflow))
  else .ok (Int32.ofInt (left.toInt.tdiv right.toInt))

def remainder (left right : Word) : Except Halt Word :=
  if right.toInt = 0 then .error (.trap (.arithmetic .divideByZero))
  else .ok (Int32.ofInt (left.toInt.tmod right.toInt))

def operate : BinaryOp → Word → Word → Except Halt Word
  | .add, left, right => .ok (Int32.ofInt (left.toInt + right.toInt))
  | .sub, left, right => .ok (Int32.ofInt (left.toInt - right.toInt))
  | .mul, left, right => .ok (Int32.ofInt (left.toInt * right.toInt))
  | .floorDivide, left, right => left.divide right
  | .modulo, left, right => left.remainder right
  | .equal, left, right => .ok (ofBool (left.toInt = right.toInt))
  | .notEqual, left, right => .ok (ofBool (left.toInt ≠ right.toInt))
  | .lessEqual, left, right => .ok (ofBool (left.toInt ≤ right.toInt))
  | .greaterEqual, left, right => .ok (ofBool (right.toInt ≤ left.toInt))
  | .less, left, right => .ok (ofBool (left.toInt < right.toInt))
  | .greater, left, right => .ok (ofBool (right.toInt < left.toInt))
  | .is, _, _ => .error (.stuck .notEvaluated)

end Word

/-- The answer of a builtin and the event that it leaves. What is printed for a word depends on the
type of the argument. -/
def HostImport.answer (primitive : HostImport) (values : List Word) :
    Except Halt (Word × List Event) :=
  match primitive.eval values with
  | .ok value => .ok (value, (primitive.event? values).toList)
  | .error error => .error (.trap error)

def wordModel : ValueModel Word Event where
  literal := Literal.word
  binary := Word.operate
  isNone ty _ := Word.ofBool (ty = some .none)
  negate value := .ok (Int32.ofInt (-value.toInt))
  complement value := .ok (Word.ofBool (value.toInt = 0))
  truth value := .ok (value.toInt ≠ 0)
  builtin builtin ty values :=
    match HostImport.ofBuiltin? builtin (ty.getD .none) with
    | some primitive => primitive.answer values
    | none => .error (.stuck .wrongOperand)

theorem word_is_zero_iff (word : Word) : word.toInt = 0 ↔ word = 0 := by
  constructor
  · intro zero
    exact Int32.toInt.inj (zero.trans (by decide))
  · intro zero
    rw [zero]
    decide

theorem word_is_least_iff (word : Word) : word.toInt = -2 ^ 31 ↔ word = Int32.minValue := by
  rw [← Int32.toInt_minValue, Int32.toInt_inj]

theorem word_is_minus_one_iff (word : Word) : word.toInt = -1 ↔ word = -1 := by
  rw [← Int32.toInt_inj]
  rfl

theorem word_compare (left right : Word) : left.toInt = right.toInt ↔ left = right :=
  Int32.toInt_inj

theorem word_add (left right : Word) : Int32.ofInt (left.toInt + right.toInt) = left + right := by
  rw [Int32.ofInt_add, Int32.ofInt_toInt, Int32.ofInt_toInt]

theorem word_sub (left right : Word) : Int32.ofInt (left.toInt - right.toInt) = left - right := by
  rw [Int32.ofInt_sub, Int32.ofInt_toInt, Int32.ofInt_toInt]

theorem word_mul (left right : Word) : Int32.ofInt (left.toInt * right.toInt) = left * right := by
  rw [Int32.ofInt_mul, Int32.ofInt_toInt, Int32.ofInt_toInt]

theorem word_div (left right : Word) :
    Int32.ofInt (left.toInt.tdiv right.toInt) = left / right := by
  apply Int32.toInt.inj
  rw [Int32.toInt_ofInt, Int32.toInt_div]

theorem word_mod (left right : Word) :
    Int32.ofInt (left.toInt.tmod right.toInt) = left % right := by
  rw [← Int32.toInt_mod, Int32.ofInt_toInt]

theorem word_neg (word : Word) : Int32.ofInt (-word.toInt) = 0 - word := by
  rw [← Int.zero_sub, Int32.ofInt_sub, Int32.ofInt_toInt]
  rfl

theorem operate_eq_apply (op : BinaryOp) (wordOp : WordOp) (lowered : op.wordOp? = some wordOp)
    (left right : Word) :
    Word.operate op left right =
      (wordOp.apply left right).mapError fun trap => .trap (.arithmetic trap) := by
  cases op with
  | add =>
      cases lowered
      rw [Word.operate, word_add]
      rfl
  | sub =>
      cases lowered
      rw [Word.operate, word_sub]
      rfl
  | mul =>
      cases lowered
      rw [Word.operate, word_mul]
      rfl
  | floorDivide =>
      cases lowered
      simp only [Word.operate, Word.divide, WordOp.apply, word_is_zero_iff, word_is_least_iff,
        word_is_minus_one_iff, word_div]
      split
      · rfl
      · split <;> rfl
  | modulo =>
      cases lowered
      simp only [Word.operate, Word.remainder, WordOp.apply, word_is_zero_iff, word_mod]
      split <;> rfl
  | equal =>
      cases lowered
      simp only [Word.operate, word_compare]
      rfl
  | notEqual =>
      cases lowered
      simp only [Word.operate, ne_eq, word_compare, WordOp.apply, Except.mapError, bne,
        decide_not]
      rfl
  | lessEqual =>
      cases lowered
      simp only [Word.operate, ← Int32.le_iff_toInt_le]
      rfl
  | greaterEqual =>
      cases lowered
      simp only [Word.operate, ← Int32.le_iff_toInt_le]
      rfl
  | less =>
      cases lowered
      simp only [Word.operate, ← Int32.lt_iff_toInt_lt]
      rfl
  | greater =>
      cases lowered
      simp only [Word.operate, ← Int32.lt_iff_toInt_lt]
      rfl
  | is => cases lowered

end ScriptWasm
