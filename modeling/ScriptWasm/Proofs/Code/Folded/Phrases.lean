import Mathlib.Data.List.TakeWhile

/-!
Folded text consists of words, quoted texts, and groups of these in parentheses. A reader first cuts
a text into marks, where blanks only keep words apart, and then puts the marks between two matching
parentheses together. Phrases that are written on one line, with one space between two parts of a
group, are read back.
-/

namespace ScriptWasm

set_option autoImplicit false

inductive Phrase where
  | word (text : String)
  | quoted (text : String)
  | group (parts : List Phrase)

inductive FoldedMark where
  | opening
  | closing
  | word (text : String)
  | quoted (text : String)

namespace Folded

def isPlain (char : Char) : Bool :=
  char ∉ [' ', '\n', '(', ')', '\x22']

def isPlace (char : Char) : Bool :=
  char = ' ' || char = '\n'

/-- The marks of a text. A word is as long as it can be, and a quoted text ends at the next quote. -/
def marks : List Char → List FoldedMark
  | [] => []
  | first :: rest =>
      if isPlace first then marks rest
      else if first = '(' then .opening :: marks rest
      else if first = ')' then .closing :: marks rest
      else if first = '\x22' then
        .quoted (String.ofList (rest.takeWhile (· ≠ '\x22'))) ::
          marks ((rest.dropWhile (· ≠ '\x22')).drop 1)
      else
        .word (String.ofList (first :: rest.takeWhile isPlain)) :: marks (rest.dropWhile isPlain)
termination_by text => text.length
decreasing_by
  all_goals simp only [List.length_cons, List.length_drop]
  · omega
  · omega
  · omega
  · have short := (List.dropWhile_suffix (l := rest) (· ≠ '\x22')).length_le
    omega
  · have short := (List.dropWhile_suffix (l := rest) isPlain).length_le
    omega

/-- The phrases of a list of marks, after those that stand in the current group. The groups around it
are not closed yet. Every parenthesis has its partner. -/
def phrasesFrom (around : List (List Phrase)) (current : List Phrase) :
    List FoldedMark → Option (List Phrase)
  | [] => if around.isEmpty then some current else none
  | .opening :: rest => phrasesFrom (current :: around) [] rest
  | .closing :: rest =>
      match around with
      | [] => none
      | before :: outer => phrasesFrom outer (before ++ [.group current]) rest
  | .word text :: rest => phrasesFrom around (current ++ [.word text]) rest
  | .quoted text :: rest => phrasesFrom around (current ++ [.quoted text]) rest

def phrases (text : List Char) : Option (List Phrase) :=
  phrasesFrom [] [] (marks text)

end Folded

/-- A name that folded text can hold: none of its characters ends a word. -/
def IsPlainName (name : String) : Prop :=
  ∀ char ∈ name.toList, Folded.isPlain char = true

instance (name : String) : Decidable (IsPlainName name) :=
  decidable_of_iff (name.toList.all Folded.isPlain = true) List.all_eq_true

namespace Phrase

mutual

def chars : Phrase → List Char
  | word text => text.toList
  | quoted text => '\x22' :: text.toList ++ ['\x22']
  | group [] => ['(', ')']
  | group (first :: rest) => '(' :: first.chars ++ charsOfAll rest ++ [')']

def charsOfAll : List Phrase → List Char
  | [] => []
  | first :: rest => ' ' :: first.chars ++ charsOfAll rest

end

mutual

def marks : Phrase → List FoldedMark
  | word text => [.word text]
  | quoted text => [.quoted text]
  | group parts => .opening :: marksOfAll parts ++ [.closing]

def marksOfAll : List Phrase → List FoldedMark
  | [] => []
  | first :: rest => first.marks ++ marksOfAll rest

end

mutual

def Plain : Phrase → Prop
  | word text => text ≠ "" ∧ IsPlainName text
  | quoted text => IsPlainName text
  | group parts => AllPlain parts

def AllPlain : List Phrase → Prop
  | [] => True
  | first :: rest => first.Plain ∧ AllPlain rest

end

theorem marks_of_append (first second : List Phrase) :
    marksOfAll (first ++ second) = marksOfAll first ++ marksOfAll second := by
  induction first with
  | nil => rfl
  | cons phrase rest induction =>
      rw [List.cons_append, marksOfAll, marksOfAll, induction, List.append_assoc]

theorem chars_of_append (first second : List Phrase) :
    charsOfAll (first ++ second) = charsOfAll first ++ charsOfAll second := by
  induction first with
  | nil => rfl
  | cons phrase rest induction => simp [charsOfAll, induction]

theorem chars_of_map {Source : Type} (write : Source → Phrase) (sources : List Source) :
    charsOfAll (sources.map write) = sources.flatMap fun source => ' ' :: (write source).chars := by
  induction sources with
  | nil => rfl
  | cons first rest induction => simp [charsOfAll, induction]

theorem all_plain_of_forall (phrases : List Phrase) (plain : ∀ phrase ∈ phrases, phrase.Plain) :
    AllPlain phrases := by
  induction phrases with
  | nil => trivial
  | cons phrase rest induction =>
      exact ⟨plain phrase (by simp), induction fun other member => plain other (by simp [member])⟩

end Phrase

namespace Folded

section Marks

variable (rest : List Char)

@[simp] theorem marks_place (first : Char) (place : isPlace first = true) :
    marks (first :: rest) = marks rest := by
  rw [marks, if_pos place]

@[simp] theorem marks_opening : marks ('(' :: rest) = .opening :: marks rest := by
  rw [marks, if_neg (by decide), if_pos rfl]

@[simp] theorem marks_closing : marks (')' :: rest) = .closing :: marks rest := by
  rw [marks, if_neg (by decide), if_neg (by decide), if_pos rfl]

theorem marks_places (count : Nat) : marks (List.replicate count ' ' ++ rest) = marks rest := by
  induction count with
  | zero => rfl
  | succ count induction =>
      rw [List.replicate_succ, List.cons_append, marks_place _ _ (by decide), induction]

def StopsWord (text : List Char) : Prop :=
  ∀ char ∈ text.head?, isPlain char = false

theorem marks_word (text : String) (filled : text ≠ "") (plain : IsPlainName text)
    (ends : StopsWord rest) : marks (text.toList ++ rest) = .word text :: marks rest := by
  obtain ⟨first, others, parts⟩ : ∃ first others, text.toList = first :: others :=
    List.exists_cons_of_ne_nil fun none => filled (String.toList_eq_nil_iff.mp none)
  have plainFirst : isPlain first = true := plain first (by simp [parts])
  have plainOthers : ∀ char ∈ others, isPlain char = true :=
    fun char member => plain char (by simp [parts, member])
  have stops : rest.takeWhile isPlain = [] ∧ rest.dropWhile isPlain = rest := by
    cases rest with
    | nil => exact ⟨rfl, rfl⟩
    | cons next more =>
        have ended : ¬isPlain next = true := by simp [ends next rfl]
        exact ⟨List.takeWhile_cons_of_neg ended, List.dropWhile_cons_of_neg ended⟩
  have others_taken : (others ++ rest).takeWhile isPlain = others := by
    rw [List.takeWhile_append_of_pos plainOthers, stops.1, List.append_nil]
  have others_dropped : (others ++ rest).dropWhile isPlain = rest := by
    rw [List.dropWhile_append_of_pos plainOthers, stops.2]
  have solid : isPlace first = false ∧ first ≠ '(' ∧ first ≠ ')' ∧ first ≠ '\x22' := by
    simp only [isPlain, List.mem_cons, List.not_mem_nil, or_false, not_or, decide_eq_true_eq]
      at plainFirst
    simp [isPlace, plainFirst]
  rw [parts, List.cons_append, marks, if_neg (by simp [solid.1]), if_neg solid.2.1,
    if_neg solid.2.2.1, if_neg solid.2.2.2, others_taken, others_dropped, ← parts,
    String.ofList_toList]

theorem marks_quoted (text : String) (plain : IsPlainName text) :
    marks ('\x22' :: text.toList ++ '\x22' :: rest) = .quoted text :: marks rest := by
  have inside : ∀ char ∈ text.toList, decide (char ≠ '\x22') = true := by
    intro char member
    refine decide_eq_true ?_
    rintro rfl
    exact absurd (plain _ member) (by decide)
  have taken : (text.toList ++ '\x22' :: rest).takeWhile (· ≠ '\x22') = text.toList := by
    rw [List.takeWhile_append_of_pos inside, List.takeWhile_cons_of_neg (by decide),
      List.append_nil]
  have dropped : (text.toList ++ '\x22' :: rest).dropWhile (· ≠ '\x22') = '\x22' :: rest := by
    rw [List.dropWhile_append_of_pos inside, List.dropWhile_cons_of_neg (by decide)]
  rw [List.cons_append, marks, if_neg (by decide), if_neg (by decide), if_neg (by decide),
    if_pos rfl, taken, dropped, String.ofList_toList]
  rfl

end Marks

mutual

/-- A phrase is cut into its marks. -/
theorem marks_of_chars (phrase : Phrase) (plain : phrase.Plain) (rest : List Char)
    (ends : StopsWord rest) : marks (phrase.chars ++ rest) = phrase.marks ++ marks rest := by
  cases phrase with
  | word text => exact marks_word rest text plain.1 plain.2 ends
  | quoted text =>
      rw [Phrase.chars, Phrase.marks, List.append_assoc]
      exact marks_quoted rest text plain
  | group parts =>
      cases parts with
      | nil => simp [Phrase.chars, Phrase.marks, Phrase.marksOfAll]
      | cons first others =>
          have later := marks_of_all_chars others plain.2 (')' :: rest) (by simp [StopsWord, isPlain])
          have begins : StopsWord (Phrase.charsOfAll others ++ ')' :: rest) := by
            cases others <;> simp [StopsWord, isPlain, Phrase.charsOfAll]
          have head := marks_of_chars first plain.1 _ begins
          simp only [Phrase.chars, Phrase.marks, Phrase.marksOfAll, List.cons_append,
            List.append_assoc, List.nil_append, marks_opening, head, later, marks_closing]
termination_by structural phrase

theorem marks_of_all_chars (phrases : List Phrase) (plain : Phrase.AllPlain phrases)
    (rest : List Char) (ends : StopsWord rest) :
    marks (Phrase.charsOfAll phrases ++ rest) = Phrase.marksOfAll phrases ++ marks rest := by
  cases phrases with
  | nil => rfl
  | cons first others =>
      have later := marks_of_all_chars others plain.2 rest ends
      have begins : StopsWord (Phrase.charsOfAll others ++ rest) := by
        cases others with
        | nil => exact ends
        | cons second more => simp [StopsWord, isPlain, Phrase.charsOfAll]
      have head := marks_of_chars first plain.1 _ begins
      simp only [Phrase.charsOfAll, Phrase.marksOfAll, List.cons_append, List.append_assoc,
        marks_place _ ' ' (by decide), head, later]
termination_by structural phrases

end

mutual

theorem phrase_put_together (phrase : Phrase) (around : List (List Phrase)) (current : List Phrase)
    (rest : List FoldedMark) :
    phrasesFrom around current (phrase.marks ++ rest) =
      phrasesFrom around (current ++ [phrase]) rest := by
  cases phrase with
  | word text => rfl
  | quoted text => rfl
  | group parts =>
      have inside := phrases_put_together parts (current :: around) [] (.closing :: rest)
      rw [Phrase.marks, List.cons_append, List.cons_append, List.append_assoc, phrasesFrom,
        List.singleton_append, inside, List.nil_append, phrasesFrom]
termination_by structural phrase

theorem phrases_put_together (phrases : List Phrase) (around : List (List Phrase))
    (current : List Phrase) (rest : List FoldedMark) :
    phrasesFrom around current (Phrase.marksOfAll phrases ++ rest) =
      phrasesFrom around (current ++ phrases) rest := by
  cases phrases with
  | nil => rw [Phrase.marksOfAll, List.nil_append, List.append_nil]
  | cons first others =>
      rw [Phrase.marksOfAll, List.append_assoc, phrase_put_together first,
        phrases_put_together others, List.append_assoc, List.singleton_append]
termination_by structural phrases

end

/-- A text with the marks of a phrase is read as that phrase. -/
theorem phrases_of_marks (text : List Char) (phrase : Phrase) (cut : marks text = phrase.marks) :
    phrases text = some [phrase] := by
  have whole := phrase_put_together phrase [] [] []
  rw [List.append_nil] at whole
  rw [phrases, cut, whole]
  rfl

end Folded

end ScriptWasm
