/-!
The commands: build a file and write one of four products, run it, or check it. Options may stand
before or after the input, a short option may carry its value in the same word, and a long one after
an equals sign.
-/

namespace ScriptWasm

set_option autoImplicit false

inductive Product where
  | moduleText
  | moduleBinary
  | program
  | typedProgram
deriving DecidableEq, Repr

def Product.ofName? (name : String) : Option Product :=
  match name with
  | "wat" => some .moduleText
  | "wasm" => some .moduleBinary
  | "ast" => some .program
  | "typed" => some .typedProgram
  | _ => none

/-- An input or output is named by its path. The input `-` is the standard input. -/
inductive Command where
  | build (input : String) (output : Option String) (product : Product)
  | run (input : String)
  | check (input : String)
deriving DecidableEq, Repr

namespace Command

inductive Verb where
  | build | run | check

def Verb.ofName? (name : String) : Option Verb :=
  match name with
  | "build" => some .build
  | "run" => some .run
  | "check" => some .check
  | _ => none

structure Arguments where
  verb : Option Verb
  input : Option String
  output : Option String
  product : Option Product
  /-- Whether everything that follows is an input. -/
  inputsOnly : Bool

def Arguments.empty : Arguments :=
  ⟨none, none, none, none, false⟩

inductive Request where
  | nothing
  | output (path : String)
  | outputNext
  | product (name : String)
  | productNext
  | unknown

def valueOf? (option : String) (arg : List Char) : Option String :=
  let start := option.toList ++ ['=']
  if start.isPrefixOf arg then some (String.ofList (arg.drop start.length)) else none

/-- Short options in one word. Being verbose changes nothing that a command writes. -/
def shortRequest : List Char → Request
  | [] => .nothing
  | 'v' :: rest => shortRequest rest
  | ['o'] => .outputNext
  | 'o' :: '=' :: path => .output (String.ofList path)
  | 'o' :: path => .output (String.ofList path)
  | _ => .unknown

def request (arg : String) : Request :=
  if arg = "--verbose" then .nothing
  else if arg = "--output" then .outputNext
  else if arg = "--emit" then .productNext
  else
    match valueOf? "--output" arg.toList, valueOf? "--emit" arg.toList with
    | some path, _ => .output path
    | _, some name => .product name
    | none, none =>
        match arg.toList with
        | '-' :: '-' :: _ => .unknown
        | '-' :: options => shortRequest options
        | _ => .unknown

namespace Arguments

def isBuild (arguments : Arguments) : Bool :=
  match arguments.verb with
  | some .build => true
  | _ => false

def setOutput? (arguments : Arguments) (path : String) : Option Arguments :=
  if arguments.isBuild && arguments.output.isNone && !path.isEmpty then
    some { arguments with output := path }
  else none

def setProduct? (arguments : Arguments) (name : String) : Option Arguments :=
  if arguments.isBuild && arguments.product.isNone then
    (Product.ofName? name).map fun product => { arguments with product }
  else none

/-- The first word that is no option is the verb, and the second the input. -/
def setWord? (arguments : Arguments) (word : String) : Option Arguments :=
  match arguments.verb, arguments.input with
  | none, _ => (Verb.ofName? word).map fun verb => { arguments with verb }
  | some _, none => some { arguments with input := word }
  | some _, some _ => none

def finish? (arguments : Arguments) : Option Command :=
  match arguments.verb, arguments.input with
  | some .build, some input =>
      some (.build input arguments.output (arguments.product.getD .moduleText))
  | some .run, some input => some (.run input)
  | some .check, some input => some (.check input)
  | _, _ => none

def isValue (word : String) : Bool :=
  word = "-" || word.toList.head? ≠ some '-'

def readArgs (arguments : Arguments) : List String → Option Command
  | [] => arguments.finish?
  | arg :: rest =>
      if arguments.inputsOnly || arg = "-" || arg.toList.head? ≠ some '-' then do
        (← arguments.setWord? arg).readArgs rest
      else if arg = "--" then { arguments with inputsOnly := true }.readArgs rest
      else
        match request arg with
        | .nothing => arguments.readArgs rest
        | .output path => do (← arguments.setOutput? path).readArgs rest
        | .product name => do (← arguments.setProduct? name).readArgs rest
        | .outputNext =>
            match rest with
            | [] => none
            | value :: rest =>
                if isValue value then do (← arguments.setOutput? value).readArgs rest else none
        | .productNext =>
            match rest with
            | [] => none
            | value :: rest =>
                if isValue value then do (← arguments.setProduct? value).readArgs rest else none
        | .unknown => none

end Arguments

def ofArgs? (args : List String) : Option Command :=
  Arguments.empty.readArgs args

end Command

end ScriptWasm
