/-!
Blank characters are those with the Unicode property `White_Space`. Words are the maximal runs of
characters that are not blank.
-/

namespace ScriptWasm

set_option autoImplicit false

/-- The code points with the property `White_Space`, as closed ranges. -/
def blankRanges : List (Nat × Nat) :=
  [(0x9, 0xD), (0x20, 0x20), (0x85, 0x85), (0xA0, 0xA0), (0x1680, 0x1680), (0x2000, 0x200A),
   (0x2028, 0x2029), (0x202F, 0x202F), (0x205F, 0x205F), (0x3000, 0x3000)]

def isBlank (char : Char) : Bool :=
  blankRanges.any fun (low, high) => low ≤ char.toNat && char.toNat ≤ high

/-- The words of a text. The pending word holds the characters read since the last blank. -/
def wordsFrom (pending : List Char) : List Char → List (List Char)
  | [] => if pending.isEmpty then [] else [pending]
  | char :: rest =>
      if isBlank char then
        if pending.isEmpty then wordsFrom [] rest else pending :: wordsFrom [] rest
      else wordsFrom (pending ++ [char]) rest

def words (text : List Char) : List (List Char) :=
  wordsFrom [] text

def joinWords (text : String) : String :=
  String.intercalate " " ((words text.toList).map String.ofList)

end ScriptWasm
