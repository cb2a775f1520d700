import ScriptWasm.Proofs.Token.LongestMatch
import ScriptWasm.Proofs.Token.Rows

/-!
The raw tokens of a source tile it. Every token stands on whole characters and is a longest match or
an error where nothing matches, the tokens follow each other, and between them stand spaces, tabs and
form feeds only. A line can be measured from the start of every token.
-/

namespace ScriptWasm

set_option autoImplicit false

/-- A token that stands on a stretch of a text, as a longest match or as an error where nothing
matches. -/
structure Token.Covers (token : Token) (before taken after : List Char) : Prop where
  filled : taken ≠ []
  span : token.span = ⟨byteLength before, byteLength (before ++ taken)⟩
  matched : token.kind ≠ .error → LongestMatch (taken ++ after) token.kind taken
  unmatched : token.kind = .error → NoMatch (taken ++ after) taken

/-- Tokens that tile a text that stands behind another one: what is before, between and after them
is skipped. -/
def Tiles (before : List Char) : List Token → List Char → Prop
  | [], text => ∀ char ∈ text, char ∈ [' ', '\t', '\x0c']
  | token :: rest, text =>
      ∃ gap taken after, text = gap ++ (taken ++ after) ∧ (∀ char ∈ gap, char ∈ [' ', '\t', '\x0c']) ∧
        token.Covers (before ++ gap) taken after ∧ Tiles (before ++ gap ++ taken) rest after

def SkippedAt (source : List Char) (byte : Nat) : Prop :=
  ∃ before char after, source = before ++ char :: after ∧ byteLength before = byte ∧
    char ∈ [' ', '\t', '\x0c']

/-- The line that holds a byte of a source: the source is cut there and at the start of the line, and
the indentation of the line is measured from that start. -/
structure OnLine (source : List Char) (byte : Nat) (earlier line after : List Char) : Prop where
  cut : splitBytes? byte source = some (earlier ++ line, after)
  starts : LineStart earlier
  oneLine : '\n' ∉ line
  lineCut : splitBytes? (byteLength earlier) source = some (earlier, line ++ after)
  measured : Layout.columnOf source byte = Layout.columnFrom 0 (line ++ after)

theorem skipped_iff (char : Char) :
    Lexer.isSkipped char = true ↔ char ∈ [' ', '\t', '\x0c'] := by
  simp [Lexer.isSkipped, or_assoc]

section Tokens

theorem tiles_after_skipped (before : List Char) (first : Char) (tokens : List Token)
    (text : List Char) (skipped : first ∈ [' ', '\t', '\x0c'])
    (tiles : Tiles (before ++ [first]) tokens text) : Tiles before tokens (first :: text) := by
  cases tokens with
  | nil => exact List.forall_mem_cons.mpr ⟨skipped, tiles⟩
  | cons token rest =>
      obtain ⟨gap, taken, after, rfl, blank, covers, later⟩ := tiles
      rw [List.append_assoc before, List.singleton_append] at covers later
      exact ⟨first :: gap, taken, after, rfl, List.forall_mem_cons.mpr ⟨skipped, blank⟩, covers, later⟩

theorem token_covers (before : List Char) (first : Char) (rest : List Char)
    (solid : Lexer.isSkipped first = false) :
    Token.Covers
      ⟨(Lexer.tokenAt first rest).1, byteLength before,
        byteLength (before ++ first :: rest.take (Lexer.tokenAt first rest).2)⟩
      before (first :: rest.take (Lexer.tokenAt first rest).2)
      (rest.drop (Lexer.tokenAt first rest).2) where
  filled := List.cons_ne_nil _ _
  span := rfl
  matched found := by
    rw [List.cons_append, List.take_append_drop]
    exact token_is_longest_match first rest solid found
  unmatched failed := by
    rw [List.cons_append, List.take_append_drop]
    exact error_is_no_match first rest solid failed

theorem tokens_from_tile (before text : List Char) :
    Tiles before (Lexer.tokensFrom (byteLength before) text) text := by
  generalize start : byteLength before = offset
  fun_induction Lexer.tokensFrom offset text generalizing before with
  | case1 offset => exact List.forall_mem_nil _
  | case2 offset first rest skipped induction =>
      apply tiles_after_skipped before first _ rest ((skipped_iff first).mp skipped)
      apply induction
      rw [byte_length_append, start, byteLength, byteLength, Nat.add_zero]
  | case3 offset first rest solid kind more found stop induction =>
      have covers := token_covers before first rest (Bool.eq_false_iff.mpr solid)
      have stopAt : byteLength (before ++ (first :: rest.take more)) = stop := by
        rw [byte_length_append, start]
      rw [found] at covers
      simp only [stopAt, start] at covers
      refine ⟨[], first :: rest.take more, rest.drop more, ?_, List.forall_mem_nil _, ?_, ?_⟩
      · rw [List.nil_append, List.cons_append, List.take_append_drop]
      · rwa [List.append_nil]
      · rw [List.append_nil]
        exact induction (before ++ (first :: rest.take more)) stopAt

end Tokens

section Tilings

variable {before text : List Char} {tokens : List Token}

/-- Every token of a tiling covers its stretch of the text. -/
theorem tile_covers (tiles : Tiles before tokens text) (token : Token) (member : token ∈ tokens) :
    ∃ gap taken after, text = gap ++ taken ++ after ∧ token.Covers (before ++ gap) taken after := by
  induction tokens generalizing before text with
  | nil => cases member
  | cons first rest induction =>
      obtain ⟨gap, taken, after, rfl, _, covers, later⟩ := tiles
      rcases List.mem_cons.mp member with rfl | inside
      · exact ⟨gap, taken, after, (List.append_assoc ..).symm, covers⟩
      · obtain ⟨more, inner, others, rfl, found⟩ := induction later inside
        refine ⟨gap ++ taken ++ more, inner, others, by simp only [List.append_assoc], ?_⟩
        rwa [List.append_assoc before, List.append_assoc before] at found

theorem skipped_in_gap (before gap after : List Char) (byte : Nat)
    (blank : ∀ char ∈ gap, char ∈ [' ', '\t', '\x0c']) (reached : byteLength before ≤ byte)
    (bound : byte < byteLength (before ++ gap)) : SkippedAt (before ++ gap ++ after) byte := by
  induction gap generalizing before with
  | nil =>
      rw [List.append_nil] at bound
      omega
  | cons char more induction =>
      obtain ⟨skipped, others⟩ := List.forall_mem_cons.mp blank
      have size : char.utf8Size = 1 := by
        simp only [List.mem_cons, List.not_mem_nil, or_false] at skipped
        rcases skipped with rfl | rfl | rfl <;> rfl
      by_cases here : byte = byteLength before
      · exact ⟨before, char, more ++ after, by simp, here.symm, skipped⟩
      · have inner := induction (before ++ [char]) others
          (by rw [byte_length_append, byteLength, byteLength]; omega)
          (by rwa [List.append_assoc, List.singleton_append])
        rwa [List.append_assoc before, List.singleton_append] at inner

theorem tiles_leave_blanks (tiles : Tiles before tokens text) (byte : Nat)
    (inside : byteLength before ≤ byte) (bound : byte < byteLength (before ++ text)) :
    (∃ token ∈ tokens, token.span.start ≤ byte ∧ byte < token.span.stop) ∨
      SkippedAt (before ++ text) byte := by
  induction tokens generalizing before text with
  | nil =>
      have skipped := skipped_in_gap before text [] byte tiles inside bound
      rw [List.append_nil] at skipped
      exact .inr skipped
  | cons first rest induction =>
      obtain ⟨gap, taken, after, rfl, blank, covers, later⟩ := tiles
      by_cases inGap : byte < byteLength (before ++ gap)
      · rw [← List.append_assoc]
        exact .inr (skipped_in_gap before gap _ byte blank inside inGap)
      by_cases inToken : byte < byteLength (before ++ gap ++ taken)
      · refine .inl ⟨first, List.mem_cons_self, ?_, ?_⟩
        · rw [covers.span]
          exact Nat.le_of_not_lt inGap
        · rwa [covers.span]
      · have whole : before ++ (gap ++ (taken ++ after)) = before ++ gap ++ taken ++ after := by
          simp only [List.append_assoc]
        rw [whole] at bound ⊢
        refine (induction later (Nat.le_of_not_lt inToken) bound).imp_left ?_
        rintro ⟨token, member, covered⟩
        exact ⟨token, List.mem_cons_of_mem _ member, covered⟩

end Tilings

theorem last_line (text : List Char) :
    ∃ earlier line, text = earlier ++ line ∧ LineStart earlier ∧ '\n' ∉ line := by
  induction text using List.reverseRecOn with
  | nil => exact ⟨[], [], rfl, .inl rfl, List.not_mem_nil⟩
  | append_singleton text char induction =>
      by_cases newline : char = '\n'
      · exact ⟨text ++ [char], [], (List.append_nil _).symm, .inr ⟨text, by rw [newline]⟩,
          List.not_mem_nil⟩
      · obtain ⟨earlier, line, rfl, starts, oneLine⟩ := induction
        refine ⟨earlier, line ++ [char], List.append_assoc .., starts, ?_⟩
        simpa [oneLine] using Ne.symm newline

theorem on_line (earlier line after : List Char) (starts : LineStart earlier) (oneLine : '\n' ∉ line) :
    OnLine (earlier ++ line ++ after) (byteLength (earlier ++ line)) earlier line after where
  cut := split_after_beginning _ _
  starts := starts
  oneLine := oneLine
  lineCut := by
    rw [List.append_assoc]
    exact split_after_beginning _ _
  measured := by
    have inside := line_from_same_line (line ++ after) line after 0 oneLine
    rw [Nat.add_zero] at inside
    rw [Layout.columnOf, List.append_assoc, byte_length_append]
    rcases starts with rfl | ⟨previous, rfl⟩
    · rw [byteLength, Nat.zero_add, List.nil_append, inside, Layout.lineFrom]
    · rw [List.append_assoc previous, List.singleton_append, line_from_next_line, inside,
        Layout.lineFrom]

/-- The raw tokens of a source tile it by longest matches. They cover whole characters, at least one
each, in strict order; what they leave out is skipped; and the line of every one of them can be cut
out and measured. -/
theorem raw_tokens_tile_source (source : List Char) :
    (∀ token ∈ rawTokens source, ∃ before taken after, source = before ++ taken ++ after ∧
      token.Covers before taken after) ∧
    (rawTokens source).Pairwise (fun left right =>
      left.span.start < left.span.stop ∧ left.span.stop ≤ right.span.start ∧
        right.span.start < right.span.stop) ∧
    (∀ byte < byteLength source,
      (∃ token ∈ rawTokens source, token.span.start ≤ byte ∧ byte < token.span.stop) ∨
        SkippedAt source byte) ∧
    ∀ token ∈ rawTokens source, ∃ earlier line after,
      OnLine source token.span.start earlier line after := by
  have tiles : Tiles [] (rawTokens source) source := tokens_from_tile [] source
  have covered : ∀ token ∈ rawTokens source, ∃ before taken after,
      source = before ++ taken ++ after ∧ token.Covers before taken after :=
    fun token member => tile_covers tiles token member
  have filled : ∀ token ∈ rawTokens source, token.span.start < token.span.stop :=
    tokens_from_filled 0 source
  refine ⟨covered, ?_, ?_, ?_⟩
  · refine (List.pairwise_map.mp (raw_tokens_in_order source)).imp_of_mem ?_
    intro left right member later ordered
    exact ⟨filled left member, ordered, filled right later⟩
  · intro byte bound
    exact tiles_leave_blanks tiles byte (Nat.zero_le _) bound
  · intro token member
    obtain ⟨before, taken, after, whole, covers⟩ := covered token member
    obtain ⟨earlier, line, rfl, starts, oneLine⟩ := last_line before
    refine ⟨earlier, line, taken ++ after, ?_⟩
    rw [covers.span, whole, List.append_assoc (earlier ++ line)]
    exact on_line earlier line (taken ++ after) starts oneLine

-- A number goes back to its longest complete form where its exponent has no digits.
example : rawTokens "1.5e+".toList = [⟨.number, 0, 3⟩, ⟨.name, 3, 4⟩, ⟨.plus, 4, 5⟩] := by
  decide +kernel

end ScriptWasm
