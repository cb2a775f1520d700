import ScriptWasm.Text.Decimal

/-!
Spans are half-open ranges of byte offsets into a source text. A span reads back the characters it
covers only when both of its ends stand between characters of that text.
-/

namespace ScriptWasm

set_option autoImplicit false

structure Span where
  start : Nat
  stop : Nat
deriving DecidableEq, Repr, Inhabited

def byteLength : List Char → Nat
  | [] => 0
  | char :: rest => char.utf8Size + byteLength rest

/-- Splits a text after exactly `count` bytes. There is no such place inside a character or beyond
the end of the text. -/
def splitBytes? : Nat → List Char → Option (List Char × List Char)
  | 0, text => some ([], text)
  | _ + 1, [] => none
  | count + 1, char :: rest =>
      if char.utf8Size ≤ count + 1 then
        (splitBytes? (count + 1 - char.utf8Size) rest).map fun (before, after) =>
          (char :: before, after)
      else none

namespace Span

def through (first last : Span) : Span :=
  ⟨first.start, last.stop⟩

def slice? (span : Span) (source : List Char) : Option (List Char) :=
  if span.start ≤ span.stop then do
    let (_, after) ← splitBytes? span.start source
    let (inside, _) ← splitBytes? (span.stop - span.start) after
    return inside
  else none

/-- The text under a span. A span that cuts a character or leaves the source covers no text. -/
def textIn (span : Span) (source : List Char) : String :=
  String.ofList ((span.slice? source).getD [])

def render (span : Span) : String :=
  decimal span.start ++ ".." ++ decimal span.stop

end Span

end ScriptWasm
