import ScriptWasm.Proofs.Semantics.Tagged

/-!
A run on tagged values and a run on words side by side. They take the same steps, every word stands
for its value, and what is observed on the way has the tags that the annotations and declarations
promise.
-/

namespace ScriptWasm

set_option autoImplicit false

def Table.Has (table : Table Literal) (name : String) (ty : Ty) : Prop :=
  ∃ value, table.get? name = some value ∧ value.ty = ty

def FuncDef.Declares (func : FuncDef) (name : String) (ty : Ty) : Prop :=
  (∃ param ∈ func.params, param.name = name ∧ param.ty = ty) ∨
    ∃ var ∈ func.locals, var.name = name ∧ var.ty = ty

def Program.Tagged (program : Program) (globals : Table Literal) : Prop :=
  ∀ var ∈ program.vars, globals.Has var.name var.ty

def FuncDef.Tagged (func : FuncDef) (locals : Table Literal) : Prop :=
  ∀ name ty, func.Declares name ty → locals.Has name ty

/-- What an expression may yield: a value of its annotated type, for a call of a function one of the
declared result type, and for the question about `None` the answer that the annotation gives. -/
def Expr.Yields (program : Program) (expr : Expr) (value : Literal) : Prop :=
  expr.ty? = some value.ty ∧
    match expr with
    | call _ callee _ => Builtin.ofName? callee = none →
        ∀ func, program.function? callee = some func → value.ty = func.result
    | binary _ .is left _ => value = .bool (left.ty? = some .none)
    | _ => True

def Observation.Sound (program : Program) : Observation Literal → Prop
  | .value expr yielded => expr.Yields program yielded
  | .variables func globals locals =>
      program.Tagged globals ∧ ∀ running, func = some running → running.Tagged locals

/-- Two states of the same run, on values with tags and on words. -/
structure Alike (program : Program) (tagged : RunState Literal String)
    (words : RunState Word Event) : Prop where
  globals : words.globals = tagged.globals.map Literal.word
  locals : words.locals = tagged.locals.map Literal.word
  result : words.result = tagged.result.word
  lines : words.output.map Event.line = tagged.output
  trace : words.trace = tagged.trace.map Observation.words
  declared : program.Tagged tagged.globals
  sound : ∀ observation ∈ tagged.trace, observation.Sound program

/-- Two evaluations in step: both give results that are related as said, or both meet the same
trap, or both run out of fuel. Neither gets stuck. -/
def InStep {Result Image : Type} (program : Program)
    (related : Result → Image → RunState Literal String → Prop)
    (tagged : Except Halt Result × RunState Literal String)
    (words : Except Halt Image × RunState Word Event) : Prop :=
  Alike program tagged.2 words.2 ∧
    match tagged.1, words.1 with
    | .ok value, .ok image => related value image tagged.2
    | .error halt, .error same => same = halt ∧ ∀ fault, halt ≠ .stuck fault
    | _, _ => False

section Steps

variable {program : Program} {Result Image Next NextImage : Type}

theorem in_step_bind (first : Evaluation Literal String Result)
    (image : Evaluation Word Event Image) (next : Result → Evaluation Literal String Next)
    (nextImage : Image → Evaluation Word Event NextImage)
    (middle : Result → Image → RunState Literal String → Prop)
    (related : Next → NextImage → RunState Literal String → Prop)
    (tagged : RunState Literal String) (words : RunState Word Event)
    (head : InStep program middle (first tagged) (image words))
    (tail : ∀ value word after afterWords, Alike program after afterWords →
      middle value word after →
      InStep program related (next value after) (nextImage word afterWords)) :
    InStep program related ((first >>= next) tagged) ((image >>= nextImage) words) := by
  rw [Evaluation.bind_apply, Evaluation.bind_apply]
  cases ran : first tagged with
  | mk result after =>
  cases ranWords : image words with
  | mk resultWords afterWords =>
  rw [ran, ranWords] at head
  obtain ⟨alike, ends⟩ := head
  cases result with
  | ok value =>
      cases resultWords with
      | ok word => exact tail value word after afterWords alike ends
      | error halt => exact ends.elim
  | error halt =>
      cases resultWords with
      | ok word => exact ends.elim
      | error same => exact ⟨alike, ends⟩

/-- The relation between the value of an expression and its word. The parameters and locals of the
caller are what they were. -/
def Evaluated (ty : Ty) (before : RunState Literal String) (value : Literal) (word : Word)
    (after : RunState Literal String) : Prop :=
  word = value.word ∧ value.ty = ty ∧ after.locals = before.locals

variable {tagged : RunState Literal String} {words : RunState Word Event}

theorem in_step_yield (expr : Expr) (value : Literal) (ty : Ty) (base : RunState Literal String)
    (alike : Alike program tagged words) (sound : expr.Yields program value) (same : value.ty = ty)
    (locals : tagged.locals = base.locals) :
    InStep program (Evaluated ty base) (Evaluation.yield expr value tagged)
      (Evaluation.yield expr value.word words) := by
  refine ⟨⟨alike.globals, alike.locals, alike.result, alike.lines, ?_, alike.declared, ?_⟩, rfl,
    same, locals⟩
  · change words.trace ++ [_] = (tagged.trace ++ [_]).map Observation.words
    rw [List.map_append, alike.trace]
    rfl
  · intro observation member
    rcases List.mem_append.mp member with earlier | new
    · exact alike.sound observation earlier
    · rw [List.mem_singleton.mp new]
      exact sound

theorem Alike.record (alike : Alike program tagged words) (func : Option FuncDef)
    (locals : ∀ running, func = some running → running.Tagged tagged.locals) :
    Alike program
      { tagged with trace := tagged.trace ++ [.variables func tagged.globals tagged.locals] }
      { words with trace := words.trace ++ [.variables func words.globals words.locals] } where
  globals := alike.globals
  locals := alike.locals
  result := alike.result
  lines := alike.lines
  trace := by
    rw [List.map_append, alike.trace, alike.globals, alike.locals]
    rfl
  declared := alike.declared
  sound := by
    intro observation member
    rcases List.mem_append.mp member with earlier | new
    · exact alike.sound observation earlier
    · rw [List.mem_singleton.mp new]
      exact ⟨alike.declared, locals⟩

/-- Operations that give a value and its word, or trap together. -/
theorem in_step_lift (operation : Except Halt Literal) (image : Except Halt Word) (ty : Ty)
    (alike : Alike program tagged words)
    (answers : (∃ value, operation = .ok value ∧ image = .ok value.word ∧ value.ty = ty) ∨
      ∃ trap, operation = .error (.trap trap) ∧ image = .error (.trap trap)) :
    InStep program (Evaluated ty tagged)
      ((liftM operation : Evaluation Literal String Literal) tagged)
      ((liftM image : Evaluation Word Event Word) words) := by
  rw [Evaluation.lift_apply, Evaluation.lift_apply]
  rcases answers with ⟨value, rfl, rfl, same⟩ | ⟨trap, rfl, rfl⟩
  · exact ⟨alike, rfl, same, rfl⟩
  · exact ⟨alike, rfl, fun fault stuck => by cases stuck⟩

theorem yields_operation (note : Note) (op : BinaryOp) (left right : Expr) (value : Literal)
    (distinct : op ≠ .is) (annotated : note.ty = some value.ty) :
    (Expr.binary note op left right).Yields program value := by
  refine ⟨annotated, ?_⟩
  cases op <;> trivial

/-- Operands of one type from left to right, and then the operator. -/
theorem in_step_operation (note : Note) (op : BinaryOp) (leftExpr rightExpr : Expr)
    (distinct : op ≠ .is) (operandTy ty : Ty)
    (kind : op.isArithmetic = true → operandTy = .int)
    (result : ty = if op.isArithmetic then .int else .bool) (annotated : note.ty = some ty)
    (left right : Evaluation Literal String Literal)
    (leftWords rightWords : Evaluation Word Event Word)
    (head : InStep program (Evaluated operandTy tagged) (left tagged) (leftWords words))
    (tail : ∀ after afterWords, Alike program after afterWords → after.locals = tagged.locals →
      InStep program (Evaluated operandTy after) (right after) (rightWords afterWords)) :
    InStep program (Evaluated ty tagged)
      ((do
        let first ← left
        let second ← right
        let value ←
          (liftM (taggedModel.binary op first second) : Evaluation Literal String Literal)
        Evaluation.yield (.binary note op leftExpr rightExpr) value) tagged)
      ((do
        let first ← leftWords
        let second ← rightWords
        let value ← (liftM (wordModel.binary op first second) : Evaluation Word Event Word)
        Evaluation.yield (.binary note op leftExpr rightExpr) value) words) := by
  apply in_step_bind _ _ _ _ _ _ _ _ head
  rintro value _ after afterWords alikeAfter ⟨rfl, same, locals⟩
  apply in_step_bind _ _ _ _ _ _ _ _ (tail after afterWords alikeAfter locals)
  rintro other _ later laterWords alikeLater ⟨rfl, sameToo, kept⟩
  -- The operands have one type, so that the operation on words is the operation on values.
  have answers := binary_words op distinct value other (same.trans sameToo.symm)
    fun arithmetic => same.trans (kind arithmetic)
  rw [← result] at answers
  apply in_step_bind _ _ _ _ _ _ _ _ (in_step_lift _ _ ty alikeLater answers)
  rintro answer _ last lastWords alikeLast ⟨rfl, answerTy, unchanged⟩
  have yields : (Expr.binary note op leftExpr rightExpr).Yields program answer :=
    yields_operation note op leftExpr rightExpr answer distinct (by rw [annotated, answerTy])
  exact in_step_yield _ answer _ _ alikeLast yields answerTy (unchanged.trans (kept.trans locals))

theorem in_step_read (name : String) (ty : Ty) (alike : Alike program tagged words)
    (found : tagged.locals.Has name ty ∨
      tagged.locals.get? name = none ∧ tagged.globals.Has name ty) :
    InStep program (Evaluated ty tagged) (Evaluation.read name tagged)
      (Evaluation.read name words) := by
  simp only [Evaluation.read, Evaluation.bind_apply, Evaluation.get_apply, alike.globals,
    alike.locals, Table.get_map]
  rcases found with ⟨value, inLocals, same⟩ | ⟨notLocal, value, inGlobals, same⟩
  · rw [inLocals]
    exact ⟨alike, rfl, same, rfl⟩
  · rw [notLocal, inGlobals]
    exact ⟨alike, rfl, same, rfl⟩

/-- What the names in a body stand for: globals of the program with their types, and at least the
parameters and locals of the function around it with theirs. -/
structure VarTable.Fits (vars : VarTable) (program : Program) (running : Option FuncDef) :
    Prop where
  globals : ∀ name binding, vars.get? name = some binding → binding.storage = .global →
    (∃ var ∈ program.vars, var.name = name) ∧
      ∀ var ∈ program.vars, var.name = name → var.ty = binding.ty
  declared : ∀ func, running = some func → ∀ name ty, func.Declares name ty →
    ∃ binding, vars.get? name = some binding ∧ binding.ty = ty ∧ binding.storage ≠ .global

/-- Parameters and locals of the types that a body sees. They hide no global. -/
structure FrameTagged (vars : VarTable) (locals : Table Literal) : Prop where
  globals : ∀ name binding, vars.get? name = some binding → binding.storage = .global →
    locals.get? name = none
  own : ∀ name binding, vars.get? name = some binding → binding.storage ≠ .global →
    locals.Has name binding.ty

theorem tagged_of_frame {vars : VarTable} {running : Option FuncDef} {locals : Table Literal}
    (fits : vars.Fits program running) (frame : FrameTagged vars locals) (func : FuncDef)
    (inside : running = some func) : func.Tagged locals := by
  intro name ty declares
  obtain ⟨binding, found, same, isOwn⟩ := fits.declared func inside name ty declares
  exact same ▸ frame.own name binding found isOwn

theorem Table.Has.insert {table : Table Literal} {name : String} {ty : Ty}
    (has : table.Has name ty) (other : String) (value : Literal)
    (same : other = name → value.ty = ty) : (table.insert other value).Has name ty := by
  by_cases here : other = name
  · exact ⟨value, by rw [Table.get_insert, if_pos here], same here⟩
  · obtain ⟨old, found, oldTy⟩ := has
    exact ⟨old, by rw [Table.get_insert, if_neg here, found], oldTy⟩

theorem has_of_frame {vars : VarTable} {running : Option FuncDef}
    (fits : vars.Fits program running) (alike : Alike program tagged words)
    (frame : FrameTagged vars tagged.locals) (name : String) (binding : Binding)
    (found : vars.get? name = some binding) :
    tagged.locals.Has name binding.ty ∨
      tagged.locals.get? name = none ∧ tagged.globals.Has name binding.ty := by
  by_cases isGlobal : binding.storage = .global
  · obtain ⟨⟨var, member, named⟩, same⟩ := fits.globals name binding found isGlobal
    have has := alike.declared var member
    rw [same var member named, named] at has
    exact Or.inr ⟨frame.globals name binding found isGlobal, has⟩
  · exact Or.inl (frame.own name binding found isGlobal)

theorem contains_map (table : Table Literal) (name : String) :
    (table.map Literal.word).contains name = table.contains name := by
  rw [Table.contains, Table.contains, Table.get_map, Option.isSome_map]

/-- A value of the declared type can be written, and everything keeps its type. -/
theorem in_step_write {vars : VarTable} {running : Option FuncDef}
    (fits : vars.Fits program running) (alike : Alike program tagged words)
    (frame : FrameTagged vars tagged.locals) (name : String) (binding : Binding)
    (found : vars.get? name = some binding) (value : Literal) (same : value.ty = binding.ty) :
    InStep program (fun _ _ after => FrameTagged vars after.locals)
      (Evaluation.write running name value tagged)
      (Evaluation.write running name value.word words) := by
  have sameLocals : words.locals.contains name = tagged.locals.contains name := by
    rw [alike.locals, contains_map]
  have sameGlobals : words.globals.contains name = tagged.globals.contains name := by
    rw [alike.globals, contains_map]
  -- A name with a global binding is not among the locals, so both runs write the table of the
  -- binding.
  by_cases isGlobal : binding.storage = .global
  · have absent := frame.globals name binding found isGlobal
    obtain ⟨⟨var, member, named⟩, types⟩ := fits.globals name binding found isGlobal
    obtain ⟨old, present, _⟩ := alike.declared var member
    rw [named] at present
    have notLocal : tagged.locals.contains name = false := by
      rw [Table.contains, absent]
      rfl
    have isThere : tagged.globals.contains name = true := by
      rw [Table.contains, present]
      rfl
    have after : Alike program
        { tagged with globals := tagged.globals.insert name value }
        { words with globals := words.globals.insert name value.word } :=
      { alike with
        globals := by rw [alike.globals, Table.insert_map]
        declared := fun other memberOther => (alike.declared other memberOther).insert name value
          fun here => same.trans (types other memberOther here.symm).symm }
    have recorded := after.record running (tagged_of_frame fits frame)
    rw [Evaluation.write_global _ _ _ _ notLocal isThere,
      Evaluation.write_global _ _ _ _ (sameLocals.trans notLocal) (sameGlobals.trans isThere)]
    exact ⟨recorded, frame⟩
  · obtain ⟨old, present, _⟩ := frame.own name binding found isGlobal
    have isThere : tagged.locals.contains name = true := by
      rw [Table.contains, present]
      rfl
    have written : FrameTagged vars (tagged.locals.insert name value) := by
      constructor
      · intro other otherBinding foundOther otherGlobal
        have different : name ≠ other := by
          intro here
          rw [← here, found] at foundOther
          cases foundOther
          exact isGlobal otherGlobal
        rw [Table.get_insert, if_neg different]
        exact frame.globals other otherBinding foundOther otherGlobal
      · intro other otherBinding foundOther otherOwn
        apply (frame.own other otherBinding foundOther otherOwn).insert name value
        intro here
        rw [← here, found] at foundOther
        cases foundOther
        exact same
    have after : Alike program
        { tagged with locals := tagged.locals.insert name value }
        { words with locals := words.locals.insert name value.word } :=
      { alike with locals := by rw [alike.locals, Table.insert_map] }
    have recorded := after.record running (tagged_of_frame fits written)
    rw [Evaluation.write_local _ _ _ _ isThere,
      Evaluation.write_local _ _ _ _ (sameLocals.trans isThere)]
    exact ⟨recorded, written⟩

/-- How a statement ends: with the word of the value that it returns, of the declared type where one
is declared, or without one. -/
def Finished (result : Option Ty) (vars : VarTable) (returned : Option Literal)
    (image : Option Word) (after : RunState Literal String) : Prop :=
  image = returned.map Literal.word ∧
    (∀ value ty, returned = some value → result = some ty → value.ty = ty) ∧
    FrameTagged vars after.locals

theorem in_step_goes_on {result : Option Ty} {vars : VarTable} (alike : Alike program tagged words)
    (frame : FrameTagged vars tagged.locals) :
    InStep program (Finished result vars)
      ((pure none : Evaluation Literal String (Option Literal)) tagged)
      ((pure none : Evaluation Word Event (Option Word)) words) :=
  ⟨alike, rfl, fun _ _ impossible => (by cases impossible), frame⟩

theorem in_step_sequence {result : Option Ty} {vars : VarTable}
    (first rest : Evaluation Literal String (Option Literal))
    (firstWords restWords : Evaluation Word Event (Option Word))
    (head : InStep program (Finished result vars) (first tagged) (firstWords words))
    (tail : ∀ after afterWords, Alike program after afterWords → FrameTagged vars after.locals →
      InStep program (Finished result vars) (rest after) (restWords afterWords)) :
    InStep program (Finished result vars) (Evaluation.unlessReturned first rest tagged)
      (Evaluation.unlessReturned firstWords restWords words) := by
  apply in_step_bind _ _ _ _ (Finished result vars) _ _ _ head
  intro returned image after afterWords alike ends
  obtain ⟨same, types, frame⟩ := ends
  subst same
  cases returned with
  | none => exact tail after afterWords alike frame
  | some value => exact ⟨alike, rfl, types, frame⟩

theorem in_step_loop {result : Option Ty} {vars : VarTable}
    (test : Evaluation Literal String Bool) (testWords : Evaluation Word Event Bool)
    (body : Evaluation Literal String (Option Literal))
    (bodyWords : Evaluation Word Event (Option Word))
    (testInStep : ∀ tagged words, Alike program tagged words → FrameTagged vars tagged.locals →
      InStep program (fun truth same after => same = truth ∧ FrameTagged vars after.locals)
        (test tagged) (testWords words))
    (bodyInStep : ∀ tagged words, Alike program tagged words → FrameTagged vars tagged.locals →
      InStep program (Finished result vars) (body tagged) (bodyWords words))
    (count : Nat) (tagged : RunState Literal String) (words : RunState Word Event)
    (alike : Alike program tagged words) (frame : FrameTagged vars tagged.locals) :
    InStep program (Finished result vars) (Evaluation.repeatWhile test body count tagged)
      (Evaluation.repeatWhile testWords bodyWords count words) := by
  induction count generalizing tagged words with
  | zero => exact ⟨alike, rfl, fun fault stuck => by cases stuck⟩
  | succ count induction =>
      apply in_step_bind _ _ _ _ _ _ _ _ (testInStep tagged words alike frame)
      intro truth same after afterWords alikeAfter ends
      obtain ⟨rfl, frameAfter⟩ := ends
      cases same with
      | false => exact in_step_goes_on alikeAfter frameAfter
      | true =>
          exact in_step_sequence _ _ _ _ (bodyInStep after afterWords alikeAfter frameAfter)
            induction

theorem in_step_keep (value : Literal) (alike : Alike program tagged words) :
    InStep program (fun _ _ after => after.locals = tagged.locals)
      (Evaluation.keep value tagged) (Evaluation.keep value.word words) :=
  ⟨{ alike with result := rfl }, rfl⟩

theorem in_step_print (lines : List String) (events : List Event)
    (same : events.map Event.line = lines) (alike : Alike program tagged words) :
    InStep program (fun _ _ after => after.locals = tagged.locals)
      (Evaluation.print lines tagged) (Evaluation.print events words) := by
  refine ⟨{ alike with lines := ?_ }, rfl⟩
  change (words.output ++ events).map Event.line = tagged.output ++ lines
  rw [List.map_append, alike.lines, same]

end Steps

end ScriptWasm
