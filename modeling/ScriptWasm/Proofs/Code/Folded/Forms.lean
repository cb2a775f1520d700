import ScriptWasm.Proofs.Code.Folded.Reader
import ScriptWasm.Proofs.Text.Decimals

/-!
A module as one phrase. Its parts are the imports, the globals and the functions, and the bodies of
an instruction are groups inside the group of the instruction, so the reader takes every phrase apart
into what it was made of.
-/

namespace ScriptWasm

set_option autoImplicit false

open Folded

def Phrase.reference (name : String) : Phrase :=
  .word ("$" ++ name)

def Phrase.declaration (keyword name : String) : Phrase :=
  .group [.word keyword, .reference name, .word "i32"]

def Phrase.exported (name : String) : Phrase :=
  .group [.word "export", .quoted name]

namespace Instr

mutual

def phrase : Instr → Phrase
  | const value => .group [.word "i32.const", .word value.render]
  | localGet name => .group [.word "local.get", .reference name]
  | localSet name => .group [.word "local.set", .reference name]
  | globalGet name => .group [.word "global.get", .reference name]
  | globalSet name => .group [.word "global.set", .reference name]
  | call name => .group [.word "call", .reference name]
  | binary op => .group [.word op.mnemonic]
  | drop => .group [.word "drop"]
  | ret => .group [.word "return"]
  | unreachable => .group [.word "unreachable"]
  | cond body orelse =>
      .group [.word "if", .group (.word "then" :: phrases body),
        .group (.word "else" :: phrases orelse)]
  | block body => .group (.word "block" :: phrases body)
  | loop body => .group (.word "loop" :: phrases body)
  | branch target => .group [.word "br", .word (decimal target)]
  | branchIf target => .group [.word "br_if", .word (decimal target)]

def phrases : List Instr → List Phrase
  | [] => []
  | first :: rest => phrase first :: phrases rest

end

mutual

def names : Instr → List String
  | localGet name | localSet name | globalGet name | globalSet name | call name => [name]
  | cond body orelse => namesOfAll body ++ namesOfAll orelse
  | block body | loop body => namesOfAll body
  | _ => []

def namesOfAll : List Instr → List String
  | [] => []
  | first :: rest => names first ++ namesOfAll rest

end

end Instr

def Global.phrase (cell : Global) : Phrase :=
  .group [.word "global", .reference cell.name, .group [.word "mut", .word "i32"],
    .group [.word "i32.const", .word cell.init.render]]

def HostImport.phrase (primitive : HostImport) : Phrase :=
  .group [.word "func", .reference primitive.name,
    .group [.word "import", .quoted moduleName, .quoted primitive.name],
    .group (.word "param" :: List.replicate primitive.arity (.word "i32")),
    .group [.word "result", .word "i32"]]

namespace Func

def heading (func : Func) : List Phrase :=
  func.id.toList.map Phrase.reference ++
    func.exportName.toList.map Phrase.exported ++
    func.params.map (Phrase.declaration "param") ++ [.group [.word "result", .word "i32"]]

def parts (func : Func) : List Phrase :=
  func.heading ++ func.locals.map (Phrase.declaration "local") ++ Instr.phrases func.body

def phrase (func : Func) : Phrase :=
  .group (.word "func" :: func.parts)

def names (func : Func) : List String :=
  func.id.toList ++ func.exportName.toList ++ func.params ++ func.locals ++
    Instr.namesOfAll func.body

end Func

namespace Module

def parts (module : Module) : List Phrase :=
  HostImport.all.map HostImport.phrase ++ module.globals.map Global.phrase ++
    module.allFunctions.map Func.phrase

def phrase (module : Module) : Phrase :=
  .group (.word "module" :: module.parts)

/-- All names in a module: those of its globals, and in its functions their own ones, those of their
exports, parameters and locals, and those inside instructions. -/
def names (module : Module) : List String :=
  module.globals.map Global.name ++ module.allFunctions.flatMap Func.names

end Module

section Reading

theorem name_of_reference (name : String) : nameOf? ("$" ++ name) = some name := by
  simp [nameOf?]

theorem natural_of_decimal (number : Nat) :
    naturalOf? (decimalChars number) = some number := by
  have digits : (decimalChars number).all isDigit = true :=
    List.all_eq_true.mpr (decimal_chars_are_digits number)
  rw [naturalOf?, if_pos ⟨Nat.toDigits_ne_nil, digits⟩, read_decimal_of_chars]

theorem integer_of_signed_decimal (number : Int) :
    integerOf? (signedDecimal number).toList = some number := by
  cases number with
  | ofNat magnitude =>
      -- The first digit is no sign.
      obtain ⟨first, rest, digits, isFirst, _⟩ := decimal_chars_start magnitude
      have read := natural_of_decimal magnitude
      rw [signedDecimal, decimal, String.toList_ofList]
      rw [digits] at read ⊢
      rw [integerOf?, read]
      · rfl
      · rintro others same
        rw [(List.cons.inj same).1] at isFirst
        exact absurd isFirst (by decide)
  | negSucc predecessor =>
      have start : (signedDecimal (.negSucc predecessor)).toList =
          '-' :: decimalChars (predecessor + 1) := by
        simp [signedDecimal, decimal]
      rw [start, integerOf?, natural_of_decimal]
      rfl

theorem word_of_render (value : Word) : wordOf? value.render = some value := by
  rw [wordOf?, Word.render, integer_of_signed_decimal, Option.map_some, Int32.ofInt_toInt]

section Parts

variable {Source Value : Type} (value? : Phrase → Option Value) (write : Source → Phrase)

def Declines (parts : List Phrase) : Prop :=
  ∀ phrase ∈ parts.head?, value? phrase = none

theorem declines_map_append (sources : List Source) (rest : List Phrase)
    (none : ∀ source, value? (write source) = none) (declines : Declines value? rest) :
    Declines value? (sources.map write ++ rest) := by
  cases sources with
  | nil => exact declines
  | cons first others =>
      intro phrase head
      cases head
      exact none first

variable (value : Source → Value) (read : ∀ source, value? (write source) = some (value source))

include read

theorem leading_of_map (sources : List Source) (rest : List Phrase)
    (declines : Declines value? rest) :
    leading value? (sources.map write ++ rest) = (sources.map value, rest) := by
  induction sources with
  | nil =>
      cases rest with
      | nil => rfl
      | cons first others => simp [leading, declines first rfl]
  | cons first others induction => simp [leading, read, induction]

theorem leading_of_option (source : Option Source) (rest : List Phrase)
    (declines : Declines value? rest) :
    leadingOption value? (source.toList.map write ++ rest) = (source.map value, rest) := by
  cases source with
  | none =>
      cases rest with
      | nil => rfl
      | cons first others => simp [leadingOption, declines first rfl]
  | some source => simp [leadingOption, read]

end Parts

mutual

theorem instr_of_phrase (instr : Instr) : Instr.ofPhrase? instr.phrase = some instr := by
  cases instr with
  | const value => simp [Instr.phrase, Instr.ofPhrase?, Instr.ofMnemonic?, word_of_render]
  | localGet name | localSet name | globalGet name | globalSet name | call name =>
      simp [Instr.phrase, Instr.ofPhrase?, Instr.ofMnemonic?, Phrase.reference, name_of_reference]
  | binary op => cases op <;> rfl
  | drop | ret | unreachable => rfl
  | cond body orelse =>
      simp [Instr.phrase, Instr.ofPhrase?, instrs_of_phrases body, instrs_of_phrases orelse]
  | block body => simp [Instr.phrase, Instr.ofPhrase?, instrs_of_phrases body]
  | loop body => simp [Instr.phrase, Instr.ofPhrase?, instrs_of_phrases body]
  | branch target | branchIf target =>
      simp [Instr.phrase, Instr.ofPhrase?, Instr.ofMnemonic?, decimal, natural_of_decimal]
termination_by structural instr

theorem instrs_of_phrases (instrs : List Instr) :
    Instr.allOfPhrases? (Instr.phrases instrs) = some instrs := by
  cases instrs with
  | nil => rfl
  | cons first rest =>
      simp [Instr.phrases, Instr.allOfPhrases?, instr_of_phrase first, instrs_of_phrases rest]
termination_by structural instrs

end

theorem instr_declares_nothing (instr : Instr) :
    Phrase.variableName? "local" instr.phrase = none := by
  cases instr with
  | block body | loop body =>
      cases body with
      | nil => rfl
      | cons first rest =>
          cases rest with
          | nil => cases first <;> rfl
          | cons second others =>
              cases first <;> rfl
  | _ => rfl

theorem variable_of_declaration (keyword name : String) :
    Phrase.variableName? keyword (.declaration keyword name) = some name := by
  simp [Phrase.declaration, Phrase.variableName?, Phrase.reference, name_of_reference]

theorem func_of_phrase (func : Func) : Func.ofPhrase? func.phrase = some func := by
  have body : Declines (Phrase.variableName? "local") (Instr.phrases func.body) := by
    cases func.body with
    | nil => nofun
    | cons first rest =>
        intro phrase head
        cases head
        exact instr_declares_nothing first
  let afterParams := Phrase.group [.word "result", .word "i32"] ::
    (func.locals.map (Phrase.declaration "local") ++ Instr.phrases func.body)
  have locals := leading_of_map _ (Phrase.declaration "local") id
    (variable_of_declaration "local") func.locals _ body
  have params := leading_of_map _ (Phrase.declaration "param") id
    (variable_of_declaration "param") func.params afterParams (by rintro _ ⟨⟩; rfl)
  have exported := leading_of_option Phrase.export? Phrase.exported id (fun _ => rfl)
    func.exportName (func.params.map (Phrase.declaration "param") ++ afterParams)
    (declines_map_append _ _ _ _ (fun _ => rfl) (by rintro _ ⟨⟩; rfl))
  have named := leading_of_option Phrase.name? Phrase.reference id name_of_reference func.id
    (func.exportName.toList.map Phrase.exported ++
      (func.params.map (Phrase.declaration "param") ++ afterParams))
    (declines_map_append _ _ _ _ (fun _ => rfl)
      (declines_map_append _ _ _ _ (fun _ => rfl) (by rintro _ ⟨⟩; rfl)))
  have parts : func.parts = func.id.toList.map Phrase.reference ++
      (func.exportName.toList.map Phrase.exported ++
        (func.params.map (Phrase.declaration "param") ++ afterParams)) := by
    simp [Func.parts, Func.heading, afterParams]
  simp only [Func.phrase, Func.ofPhrase?, parts, named, exported, params, afterParams, locals,
    instrs_of_phrases, Option.map_id, List.map_id]
  rfl

theorem global_of_phrase (cell : Global) : cell.phrase.global? = some cell := by
  simp [Global.phrase, Phrase.global?, Phrase.reference, name_of_reference, word_of_render]

theorem import_of_phrase (primitive : HostImport) : primitive.phrase.import? = some primitive := by
  cases primitive <;> decide +kernel

/-- No function of a module reads as an imported one: an import stands right behind its name. -/
theorem func_imports_nothing (func : Func) : func.phrase.import? = none := by
  obtain ⟨id, exportName, params, locals, body⟩ := func
  cases id with
  | none => cases exportName <;> cases params <;> rfl
  | some id => cases exportName <;> cases params <;> rfl

theorem module_of_phrase (module : Module) : Module.ofPhrase? module.phrase = some module := by
  have functions : (module.allFunctions.map Func.phrase).mapM Func.ofPhrase? =
      some module.allFunctions := by
    rw [List.mapM_map, show Func.ofPhrase? ∘ Func.phrase = fun func => pure (id func) from
      funext func_of_phrase, List.mapM_pure, List.map_id]
    rfl
  have declines := declines_map_append Phrase.global? Func.phrase module.allFunctions []
    (fun _ => rfl) nofun
  rw [List.append_nil] at declines
  have globals := leading_of_map Phrase.global? Global.phrase id global_of_phrase module.globals
    (module.allFunctions.map Func.phrase) declines
  have declinesImport := declines_map_append Phrase.import? Func.phrase module.allFunctions []
    func_imports_nothing nofun
  rw [List.append_nil] at declinesImport
  have imports := leading_of_map Phrase.import? HostImport.phrase id import_of_phrase
    HostImport.all (module.globals.map Global.phrase ++ module.allFunctions.map Func.phrase)
    (declines_map_append _ _ _ _ (fun _ => rfl) declinesImport)
  simp only [Module.phrase, Module.ofPhrase?, Module.parts, List.append_assoc, imports, globals,
    functions, List.map_id]
  simp [Module.allFunctions]

end Reading

end ScriptWasm
