import ScriptWasm.Program.Basic

/-!
Equality of expressions, statements and programs is decidable. Expressions and statements are
compared part by part, and two of them are the same exactly when they are equal.
-/

namespace ScriptWasm

set_option autoImplicit false

namespace Expr

mutual

def same : Expr → Expr → Bool
  | lit note value, lit note' value' => note = note' && value = value'
  | name note word, name note' word' => note = note' && word = word'
  | call note func args, call note' func' args' =>
      note = note' && func = func' && sameAll args args'
  | binary note op left right, binary note' op' left' right' =>
      note = note' && op = op' && same left left' && same right right'
  | unary note op operand, unary note' op' operand' =>
      note = note' && op = op' && same operand operand'
  | paren note inner, paren note' inner' => note = note' && same inner inner'
  | attr note value member, attr note' value' member' =>
      note = note' && same value value' && member = member'
  | construct note className, construct note' className' =>
      note = note' && className = className'
  | _, _ => false

def sameAll : List Expr → List Expr → Bool
  | [], [] => true
  | first :: rest, first' :: rest' => same first first' && sameAll rest rest'
  | _, _ => false

end

mutual

theorem same_iff : (first second : Expr) → (same first second = true ↔ first = second)
  | lit _ _, second => by cases second <;> simp [same]
  | name _ _, second => by cases second <;> simp [same]
  | call _ _ args, second => by
      cases second <;> simp [same, and_assoc]
      case call _ _ args' => simp [same_all_iff args args']
  | binary _ _ left right, second => by
      cases second <;> simp [same, and_assoc]
      case binary _ _ left' right' => simp [same_iff left left', same_iff right right']
  | unary _ _ operand, second => by
      cases second <;> simp [same, and_assoc]
      case unary _ _ operand' => simp [same_iff operand operand']
  | paren _ inner, second => by
      cases second <;> simp [same]
      case paren _ inner' => simp [same_iff inner inner']
  | attr _ value _, second => by
      cases second <;> simp [same, and_assoc]
      case attr _ value' _ => simp [same_iff value value']
  | construct _ _, second => by cases second <;> simp [same]

theorem same_all_iff : (first second : List Expr) → (sameAll first second = true ↔ first = second)
  | [], second => by cases second <;> simp [sameAll]
  | head :: tail, second => by
      cases second <;> simp [sameAll]
      case cons head' tail' => simp [same_iff head head', same_all_iff tail tail']

end

instance : DecidableEq Expr :=
  fun first second => decidable_of_iff _ (same_iff first second)

end Expr

namespace Stmt

mutual

def same : Stmt → Stmt → Bool
  | assign span target value, assign span' target' value' =>
      span = span' && target = target' && value = value'
  | expr span value, expr span' value' => span = span' && value = value'
  | pass span, pass span' => span = span'
  | fieldAssign span object field value, fieldAssign span' object' field' value' =>
      span = span' && object = object' && field = field' && value = value'
  | ret span value, ret span' value' => span = span' && value = value'
  | cond span test body orelse, cond span' test' body' orelse' =>
      span = span' && test = test' && sameAll body body' && sameAll orelse orelse'
  | loop span test body, loop span' test' body' =>
      span = span' && test = test' && sameAll body body'
  | _, _ => false

def sameAll : List Stmt → List Stmt → Bool
  | [], [] => true
  | first :: rest, first' :: rest' => same first first' && sameAll rest rest'
  | _, _ => false

end

mutual

theorem same_iff : (first second : Stmt) → (same first second = true ↔ first = second)
  | assign _ _ _, second => by cases second <;> simp [same, and_assoc]
  | expr _ _, second => by cases second <;> simp [same]
  | pass _, second => by cases second <;> simp [same]
  | fieldAssign _ _ _ _, second => by cases second <;> simp [same, and_assoc]
  | ret _ _, second => by cases second <;> simp [same]
  | cond _ _ body orelse, second => by
      cases second <;> simp [same, and_assoc]
      case cond _ _ body' orelse' => simp [same_all_iff body body', same_all_iff orelse orelse']
  | loop _ _ body, second => by
      cases second <;> simp [same, and_assoc]
      case loop _ _ body' => simp [same_all_iff body body']

theorem same_all_iff : (first second : List Stmt) → (sameAll first second = true ↔ first = second)
  | [], second => by cases second <;> simp [sameAll]
  | head :: tail, second => by
      cases second <;> simp [sameAll]
      case cons head' tail' => simp [same_iff head head', same_all_iff tail tail']

end

instance : DecidableEq Stmt :=
  fun first second => decidable_of_iff _ (same_iff first second)

end Stmt

deriving instance DecidableEq for FuncDef, Def, Program

end ScriptWasm
