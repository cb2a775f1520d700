import ScriptWasm.Proofs.Semantics.Words

/-!
Programs on values that know their type. Operators and builtins look at the tags of their operands
and refuse those they have no meaning for, printing goes by the tag, and so does the question whether
something is `None`. What words do with a word for each value is then compared with what the values
do, operator by operator.
-/

namespace ScriptWasm

set_option autoImplicit false

namespace Literal

/-- How two values with the same tag compare. `False` comes before `True`. -/
def order? : Literal → Literal → Option Ordering
  | int left, int right => some (compare left.toInt right.toInt)
  | bool left, bool right => some (compare left.toNat right.toNat)
  | none, none => some .eq
  | _, _ => Option.none

end Literal

/-- Whether a comparison holds for operands in the given order. -/
def BinaryOp.holds : BinaryOp → Ordering → Bool
  | equal, order => order = .eq
  | notEqual, order => order ≠ .eq
  | lessEqual, order => order ≠ .gt
  | greaterEqual, order => order ≠ .lt
  | less, order => order = .lt
  | greater, order => order = .gt
  | _, _ => false

def taggedBinary (op : BinaryOp) (left right : Literal) : Except Halt Literal :=
  if op.isArithmetic then
    match left, right with
    | .int first, .int second => (Word.operate op first second).map Literal.int
    | _, _ => .error (.stuck .wrongOperand)
  else
    match left.order? right with
    | some order => .ok (.bool (op.holds order))
    | none => .error (.stuck .wrongOperand)

def taggedBuiltin (builtin : Builtin) (values : List Literal) :
    Except Halt (Literal × List String) :=
  if values.length = builtin.arity then
    match builtin, values with
    | .print, [value] => .ok (.none, [value.render])
    | .abs, [.int value] => .ok (.int value.magnitude, [])
    | .max, [.int first, .int second] => .ok (.int (if first < second then second else first), [])
    | .min, [.int first, .int second] => .ok (.int (if first < second then first else second), [])
    | .pow, [.int base, .int exponent] =>
        .ok (.int (if exponent < 0 then 0 else Word.power base exponent.toInt.toNat), [])
    | _, _ => .error (.stuck .wrongOperand)
  else .error (.stuck (.wrongArity builtin.name))

/-- Values with tags. Annotations are not looked at. -/
def taggedModel : ValueModel Literal String where
  literal := id
  binary := taggedBinary
  isNone _ value := .bool (value = .none)
  negate
    | .int value => .ok (.int (Int32.ofInt (-value.toInt)))
    | _ => .error (.stuck .wrongOperand)
  complement
    | .bool truth => .ok (.bool !truth)
    | _ => .error (.stuck .wrongOperand)
  truth
    | .bool truth => .ok truth
    | _ => .error (.stuck .wrongOperand)
  builtin builtin _ values := taggedBuiltin builtin values

namespace Table

variable {Value Image : Type}

def map (change : Value → Image) (table : Table Value) : Table Image where
  entries := table.entries.map fun (name, value) => (name, change value)
  distinct := by
    rw [List.map_map]
    exact table.distinct

theorem value_in_map (change : Value → Image) (name : String) (entries : List (String × Value)) :
    valueIn? name (entries.map fun (name, value) => (name, change value)) =
      (valueIn? name entries).map change := by
  induction entries with
  | nil => rfl
  | cons entry rest induction =>
      obtain ⟨other, value⟩ := entry
      rw [List.map_cons, valueIn?, valueIn?, induction]
      by_cases same : other = name
      · rw [if_pos same, if_pos same]
        rfl
      · rw [if_neg same, if_neg same]

theorem get_map (change : Value → Image) (table : Table Value) (name : String) :
    (table.map change).get? name = (table.get? name).map change :=
  value_in_map change name table.entries

theorem put_map (change : Value → Image) (name : String) (value : Value)
    (entries : List (String × Value)) :
    put name (change value) (entries.map fun (name, value) => (name, change value)) =
      (put name value entries).map fun (name, value) => (name, change value) := by
  induction entries with
  | nil => rfl
  | cons entry rest induction =>
      obtain ⟨other, old⟩ := entry
      rw [List.map_cons, put, put, induction]
      by_cases same : other = name
      · rw [if_pos same, if_pos same]
        rfl
      · rw [if_neg same, if_neg same]
        rfl

theorem insert_map (change : Value → Image) (table : Table Value) (name : String)
    (value : Value) : (table.map change).insert name (change value) =
      (table.insert name value).map change := by
  unfold insert map
  simp only [put_map]

theorem of_list_map (change : Value → Image) (entries : List (String × Value)) :
    (ofList entries).map change =
      ofList (entries.map fun (name, value) => (name, change value)) := by
  suffices rest : ∀ table : Table Value,
      (entries.foldl (fun table (name, value) => table.insert name value) table).map change =
        (entries.map fun (name, value) => (name, change value)).foldl
          (fun table (name, value) => table.insert name value) (table.map change) from
    rest .empty
  induction entries with
  | nil => exact fun _ => rfl
  | cons entry rest induction =>
      obtain ⟨name, value⟩ := entry
      intro table
      rw [List.foldl_cons, List.map_cons, List.foldl_cons, induction]
      simp only [insert_map]

end Table

def Observation.words : Observation Literal → Observation Word
  | .value expr yielded => .value expr yielded.word
  | .variables func globals locals =>
      .variables func (globals.map Literal.word) (locals.map Literal.word)

theorem order_exists (left right : Literal) (same : left.ty = right.ty) :
    ∃ order, left.order? right = some order := by
  cases left <;> cases right <;> first | exact ⟨_, rfl⟩ | cases same

theorem order_words (left right : Literal) (order : Ordering)
    (compared : left.order? right = some order) :
    compare left.word.toInt right.word.toInt = order := by
  cases left with
  | int first =>
      cases right with
      | int second => exact Option.some.inj compared
      | bool second => cases compared
      | none => cases compared
  | bool first =>
      cases right with
      | int second => cases compared
      | bool second =>
          rw [← Option.some.inj compared]
          cases first <;> cases second <;> decide
      | none => cases compared
  | none =>
      cases right with
      | int second => cases compared
      | bool second => cases compared
      | none =>
          cases compared
          decide

theorem operate_compares (op : BinaryOp) (comparison : op.isArithmetic = false)
    (distinct : op ≠ .is) (left right : Word) :
    Word.operate op left right =
      .ok (Word.ofBool (op.holds (compare left.toInt right.toInt))) := by
  have less : compare left.toInt right.toInt = .lt ↔ left.toInt < right.toInt := compare_lt_iff_lt
  have equal : compare left.toInt right.toInt = .eq ↔ left.toInt = right.toInt := compare_eq_iff_eq
  have greater : compare left.toInt right.toInt = .gt ↔ right.toInt < left.toInt :=
    compare_gt_iff_gt
  cases op with
  | equal => simp only [Word.operate, BinaryOp.holds, equal]
  | notEqual => simp only [Word.operate, BinaryOp.holds, ne_eq, equal]
  | lessEqual => simp only [Word.operate, BinaryOp.holds, ne_eq, greater, Int.not_lt]
  | greaterEqual => simp only [Word.operate, BinaryOp.holds, ne_eq, less, Int.not_lt]
  | less => simp only [Word.operate, BinaryOp.holds, less]
  | greater => simp only [Word.operate, BinaryOp.holds, greater]
  | is => exact absurd rfl distinct
  | _ => cases comparison

theorem operate_outcome (op : BinaryOp) (distinct : op ≠ .is) (left right : Word) :
    (∃ word, Word.operate op left right = .ok word) ∨
      ∃ trap, Word.operate op left right = .error (.trap trap) := by
  have lowered : ∃ wordOp, op.wordOp? = some wordOp := by
    cases op <;> first | exact ⟨_, rfl⟩ | exact absurd rfl distinct
  obtain ⟨wordOp, lowered⟩ := lowered
  rw [operate_eq_apply op wordOp lowered]
  cases wordOp.apply left right with
  | ok word => exact Or.inl ⟨word, rfl⟩
  | error trap => exact Or.inr ⟨_, rfl⟩

/-- Operands of one type, both integers where the operator is arithmetic, are never refused. -/
theorem binary_words (op : BinaryOp) (distinct : op ≠ .is) (left right : Literal)
    (same : left.ty = right.ty) (kind : op.isArithmetic = true → left.ty = .int) :
    (∃ value, taggedBinary op left right = .ok value ∧
        Word.operate op left.word right.word = .ok value.word ∧
        value.ty = if op.isArithmetic then .int else .bool) ∨
      ∃ trap, taggedBinary op left right = .error (.trap trap) ∧
        Word.operate op left.word right.word = .error (.trap trap) := by
  unfold taggedBinary
  by_cases arithmetic : op.isArithmetic = true
  · have first := kind arithmetic
    have second := same ▸ first
    cases left with
    | bool truth => cases first
    | none => cases first
    | int left =>
        cases right with
        | bool truth => cases second
        | none => cases second
        | int right =>
            simp only [if_pos arithmetic, Literal.word]
            rcases operate_outcome op distinct left right with ⟨word, answer⟩ | ⟨trap, answer⟩
            · exact Or.inl ⟨.int word, by rw [answer]; rfl, answer, rfl⟩
            · exact Or.inr ⟨trap, by rw [answer]; rfl, answer⟩
  · obtain ⟨order, compared⟩ := order_exists left right same
    have words := operate_compares op (by simpa using arithmetic) distinct left.word right.word
    rw [order_words left right order compared] at words
    simp only [if_neg arithmetic, compared]
    exact Or.inl ⟨_, rfl, words, rfl⟩

theorem numbers_of_types (values : List Literal) (types : ∀ ty ∈ values.map Literal.ty, ty = .int) :
    ∃ words : List Word, values = words.map Literal.int := by
  induction values with
  | nil => exact ⟨[], rfl⟩
  | cons first rest induction =>
      obtain ⟨words, same⟩ := induction fun ty member => types ty (List.mem_cons_of_mem _ member)
      cases first with
      | int word => exact ⟨word :: words, by rw [same]; rfl⟩
      | bool truth => cases types .bool List.mem_cons_self
      | none => cases types .none List.mem_cons_self

/-- Arguments of the types that a builtin takes are never refused. The words of the arguments give
the word of the answer, and the primitive that is chosen by the type of the first argument leaves an
event with the same line. -/
theorem builtin_words (builtin : Builtin) (values : List Literal)
    (arity : values.length = builtin.arity)
    (types : ∀ ty ∈ values.map Literal.ty, builtin ≠ .print → ty = .int)
    (ty : Option Ty) (first : ty = (values.head?.map Literal.ty)) :
    ∃ value lines events, taggedBuiltin builtin values = .ok (value, lines) ∧
      wordModel.builtin builtin ty (values.map Literal.word) = .ok (value.word, events) ∧
      events.map Event.line = lines ∧ value.ty = builtin.result := by
  unfold taggedBuiltin
  rw [if_pos arity, first]
  cases builtin with
  | print =>
      match values, arity with
      | [value], _ =>
          cases value with
          | int value => exact ⟨_, _, _, rfl, rfl, rfl, rfl⟩
          | bool truth => cases truth <;> exact ⟨_, _, _, rfl, rfl, rfl, rfl⟩
          | none => exact ⟨_, _, _, rfl, rfl, rfl, rfl⟩
  | abs =>
      obtain ⟨words, rfl⟩ := numbers_of_types values fun ty member => types ty member (by decide)
      match words, arity with
      | [word], _ => exact ⟨_, _, _, rfl, rfl, rfl, rfl⟩
  | max =>
      obtain ⟨words, rfl⟩ := numbers_of_types values fun ty member => types ty member (by decide)
      match words, arity with
      | [first, second], _ => exact ⟨_, _, _, rfl, rfl, rfl, rfl⟩
  | min =>
      obtain ⟨words, rfl⟩ := numbers_of_types values fun ty member => types ty member (by decide)
      match words, arity with
      | [first, second], _ => exact ⟨_, _, _, rfl, rfl, rfl, rfl⟩
  | pow =>
      obtain ⟨words, rfl⟩ := numbers_of_types values fun ty member => types ty member (by decide)
      match words, arity with
      | [base, exponent], _ => exact ⟨_, _, _, rfl, rfl, rfl, rfl⟩

end ScriptWasm
