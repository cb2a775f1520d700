import ScriptWasm.Proofs.Outcome
import ScriptWasm.Tree.Statement

/-!
What single steps of a parser do. Each step answers at once from the next lexeme of its stream, and
goes on with the lexemes after it.
-/

namespace ScriptWasm

set_option autoImplicit false

namespace TokenStream

/-- The next lexeme, which is an end of file where the stream ran out. -/
def next (stream : TokenStream) : Lexeme :=
  match stream.rest with
  | [] => ⟨.endOfFile, stream.last, ""⟩
  | lexeme :: _ => lexeme

def past (stream : TokenStream) : TokenStream :=
  match stream.rest with
  | [] => stream
  | lexeme :: rest => ⟨rest, lexeme.span⟩

@[simp] theorem next_cons (lexeme : Lexeme) (rest : List Lexeme) (last : Span) :
    (TokenStream.mk (lexeme :: rest) last).next = lexeme :=
  rfl

@[simp] theorem past_cons (lexeme : Lexeme) (rest : List Lexeme) (last : Span) :
    (TokenStream.mk (lexeme :: rest) last).past = ⟨rest, lexeme.span⟩ :=
  rfl

@[simp] theorem past_rest (stream : TokenStream) : stream.past.rest = stream.rest.tail := by
  unfold past
  cases parts : stream.rest with
  | nil => rw [parts, List.tail_nil]
  | cons lexeme rest => rw [List.tail_cons]

theorem rest_of_next (stream : TokenStream) (going : stream.next.kind ≠ .endOfFile) :
    stream.rest = stream.next :: stream.past.rest := by
  rw [past_rest]
  unfold next at going ⊢
  cases parts : stream.rest with
  | nil =>
      rw [parts] at going
      exact absurd rfl going
  | cons lexeme rest => rfl

end TokenStream

namespace Parser

@[simp] theorem peek_run (stream : TokenStream) : peek.run stream = .ok (stream.next, stream) := by
  rcases stream with ⟨rest, last⟩
  cases rest <;> rfl

@[simp] theorem advance_run (stream : TokenStream) : advance.run stream = .ok ((), stream.past) := by
  rcases stream with ⟨rest, last⟩
  cases rest <;> rfl

@[simp] theorem remaining_run (stream : TokenStream) :
    remaining.run stream = .ok (stream.rest.length, stream) :=
  rfl

@[simp] theorem take_run (kind : NodeKind) (stream : TokenStream) :
    (take kind).run stream = .ok (.leaf kind stream.next.span, stream.past) := by
  rw [take, StateT.run_bind, peek_run, ok_bind, StateT.run_bind, advance_run, ok_bind]
  rfl

theorem unexpected_fails {Result : Type} (what : Expected) (stream after : TokenStream)
    (result : Result) : (unexpected what).run stream ≠ .ok (result, after) := by
  intro impossible
  simp only [unexpected, StateT.run_bind, peek_run, ok_bind] at impossible
  split at impossible
  · split at impossible <;> cases impossible
  · cases impossible

theorem expect_succeeds_iff (token : TokenKind) (kind : NodeKind) (stream after : TokenStream)
    (tree : Tree) :
    (expect token kind).run stream = .ok (tree, after) ↔
      stream.next.kind = token ∧ tree = .leaf kind stream.next.span ∧ after = stream.past := by
  rw [expect, StateT.run_bind, peek_run, ok_bind]
  by_cases same : stream.next.kind = token
  · rw [if_pos same, take_run]
    simp [same, eq_comm]
  · rw [if_neg same]
    simp [same, unexpected_fails]

theorem expect_run (token : TokenKind) (kind : NodeKind) (lexeme : Lexeme) (rest : List Lexeme)
    (last : Span) (same : lexeme.kind = token) :
    (expect token kind).run ⟨lexeme :: rest, last⟩ =
      .ok (.leaf kind lexeme.span, ⟨rest, lexeme.span⟩) :=
  (expect_succeeds_iff token kind ⟨lexeme :: rest, last⟩ _ _).mpr ⟨same, rfl, rfl⟩

theorem expect_name_succeeds_iff (stream after : TokenStream) (tree : Tree) :
    expectName.run stream = .ok (tree, after) ↔
      stream.next.kind = .name ∧ tree = .leaf .variableName stream.next.span ∧
        after = stream.past := by
  rw [expectName, StateT.run_bind, peek_run, ok_bind]
  by_cases same : stream.next.kind = .name
  · rw [if_pos same, take_run]
    simp [same, eq_comm]
  · rw [if_neg same]
    simp [same, unexpected_fails]

theorem expect_name_run (lexeme : Lexeme) (rest : List Lexeme) (last : Span)
    (isName : lexeme.kind = .name) :
    expectName.run ⟨lexeme :: rest, last⟩ =
      .ok (.leaf .variableName lexeme.span, ⟨rest, lexeme.span⟩) :=
  (expect_name_succeeds_iff ⟨lexeme :: rest, last⟩ _ _).mpr ⟨isName, rfl, rfl⟩

theorem take_if_run (token : TokenKind) (kind : NodeKind) (stream : TokenStream) :
    (takeIf token kind).run stream =
      if stream.next.kind = token then .ok (some (.leaf kind stream.next.span), stream.past)
      else .ok (none, stream) := by
  rw [takeIf, StateT.run_bind, peek_run, ok_bind]
  split
  · rw [StateT.run_bind, take_run, ok_bind]
    rfl
  · rfl

theorem at_word_run (word : String) (stream : TokenStream) :
    (atWord word).run stream =
      .ok (decide (stream.next.kind = .name ∧ stream.next.text = word), stream) := by
  rw [atWord, StateT.run_bind, peek_run, ok_bind]
  simp only [Bool.decide_and]
  rfl

theorem operator_among_run (kinds : List TokenKind) (stream : TokenStream) :
    (operatorAmong kinds).run stream =
      if stream.next.kind ∈ kinds then .ok (some (.leaf .operator stream.next.span), stream.past)
      else .ok (none, stream) := by
  rw [operatorAmong, StateT.run_bind, peek_run, ok_bind]
  by_cases member : stream.next.kind ∈ kinds
  · rw [if_pos (List.contains_iff_mem.mpr member), if_pos member, StateT.run_bind, take_run,
      ok_bind]
    rfl
  · rw [if_neg (by simpa using member), if_neg member]
    rfl

theorem operator_word_run (word : String) (stream : TokenStream) :
    (operatorWord word).run stream =
      if stream.next.kind = .name ∧ stream.next.text = word then
        .ok (some (.leaf .operator stream.next.span), stream.past)
      else .ok (none, stream) := by
  rw [operatorWord, StateT.run_bind, at_word_run, ok_bind]
  by_cases same : stream.next.kind = .name ∧ stream.next.text = word
  · rw [if_pos (decide_eq_true same), if_pos same, StateT.run_bind, take_run, ok_bind]
    rfl
  · rw [if_neg (by simpa using same), if_neg same]
    rfl

theorem skip_newlines_rest (stream : TokenStream) :
    ∃ last, skipNewlines.run stream =
      .ok ((), ⟨stream.rest.dropWhile (·.kind = .newline), last⟩) :=
  ⟨_, rfl⟩

end Parser

end ScriptWasm
