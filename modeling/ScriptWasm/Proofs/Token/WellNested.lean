import Mathlib.Data.List.Chain
import ScriptWasm.Proofs.Token.Stack

/-!
Indentation tokens are well nested, and they are all that a layout changes. Without them, what is left
are the raw tokens of the source. Lines do not end inside parentheses, a line ends once, and the open
blocks follow the columns of the lines.
-/

namespace ScriptWasm

set_option autoImplicit false

section Spans

theorem tokens_from_filled (offset : Nat) (text : List Char) :
    ∀ token ∈ Lexer.tokensFrom offset text, token.span.start < token.span.stop := by
  fun_induction Lexer.tokensFrom offset text with
  | case1 offset => exact List.forall_mem_nil _
  | case2 offset first rest skipped induction => exact induction
  | case3 offset first rest solid kind more found stop induction =>
      intro token member
      rcases List.mem_cons.mp member with rfl | later
      · have size := first.utf8Size_pos
        change offset < offset + byteLength (first :: rest.take more)
        rw [byteLength]
        omega
      · exact induction token later

theorem raw_token_of_span (source : List Char) (first second : Token)
    (member : first ∈ rawTokens source) (other : second ∈ rawTokens source)
    (same : first.span = second.span) : first = second := by
  have filled := tokens_from_filled 0 source
  have apart : ((rawTokens source).map Token.span).Nodup := by
    refine List.Pairwise.imp_of_mem ?_ (raw_tokens_in_order source)
    intro left right inLeft _ ordered same
    obtain ⟨token, there, rfl⟩ := List.mem_map.mp inLeft
    have := filled token there
    rw [← same] at ordered
    omega
  exact List.inj_on_of_nodup_map apart member other same

end Spans

namespace Layout

section Stream

variable (source : List Char)

def parensAfterAll (parens : Nat) (tokens : List Token) : Nat :=
  tokens.foldl parensAfter parens

/-- Whether a token of a layout stands for the end of a line, for a change of blocks or for the end
of the file. A change that fits no block is an error on the newline before it. -/
def isIndentation (stream : List Token) (token : Token) : Bool :=
  token.kind ∈ [.newline, .indent, .dedent, .endOfFile] ||
    (token.kind = .error &&
      stream.any fun other => other.kind = .newline && other.span = token.span)

theorem closing_kinds (blocks : List Nat) :
    ∀ token ∈ closing source blocks, token.kind ∈ [TokenKind.dedent, .endOfFile] := by
  intro token member
  rcases List.mem_append.mp member with dedent | last
  · obtain ⟨_, _, rfl⟩ := List.mem_map.mp dedent
    exact List.mem_cons_self
  · rw [List.mem_singleton.mp last]
    exact List.mem_cons_of_mem _ List.mem_cons_self

theorem change_kinds (blocks : List Nat) (column : Nat) (span : Span) :
    ∀ token ∈ (shift blocks column).2.map (Token.mk · span),
      token.kind ∈ [TokenKind.indent, .dedent, .error] ∧ token.span = span := by
  intro token member
  obtain ⟨kind, there, rfl⟩ := List.mem_map.mp member
  exact ⟨shift_kinds blocks column kind there, rfl⟩

theorem newline_of_layout (state : State) (tokens : List Token) (token : Token)
    (member : token ∈ tokensFrom source state tokens) (newline : token.kind = .newline) :
    token ∈ tokens := by
  induction tokens generalizing state with
  | nil =>
      have kinds := closing_kinds source state.blocks token member
      rw [newline] at kinds
      exact absurd kinds (by decide)
  | cons first rest induction =>
      rw [tokens_from_step, List.mem_append] at member
      rcases member with given | later
      · obtain ⟨_, _, same⟩ | ⟨_, _, _, same⟩ | ⟨_, same⟩ := step_cases source state first rest
        · rw [same] at given
          cases given
        · rw [same] at given
          rcases List.mem_cons.mp given with rfl | change
          · exact List.mem_cons_self
          · have kinds := (change_kinds _ _ _ token change).1
            rw [newline] at kinds
            exact absurd kinds (by decide)
        · rw [same] at given
          rw [List.mem_singleton.mp given]
          exact List.mem_cons_self
      · exact List.mem_cons_of_mem _ (induction _ later)

theorem indentation_of_kind (stream : List Token) (token : Token)
    (kind : token.kind ∈ [TokenKind.newline, .indent, .dedent, .endOfFile]) :
    isIndentation stream token = true := by
  rw [isIndentation, decide_eq_true kind, Bool.true_or]

theorem indentation_of_change (stream : List Token) (newline token : Token)
    (there : newline ∈ stream) (isNewline : newline.kind = .newline)
    (kind : token.kind ∈ [TokenKind.indent, .dedent, .error]) (stands : token.span = newline.span) :
    isIndentation stream token = true := by
  by_cases error : token.kind = .error
  · have found : stream.any (fun other => other.kind = .newline && other.span = token.span) = true :=
      List.any_eq_true.mpr ⟨newline, there, by simp [isNewline, stands]⟩
    rw [isIndentation, found, decide_eq_true error]
    exact Bool.or_true _
  · refine indentation_of_kind stream token ?_
    simp only [List.mem_cons, List.not_mem_nil, or_false] at kind ⊢
    rcases kind with indent | dedent | isError
    · exact .inr (.inl indent)
    · exact .inr (.inr (.inl dedent))
    · exact absurd isError error

/-- Without its indentation tokens, a layout consists of the tokens that are no newlines. -/
theorem layout_keeps_contents (stream : List Token) (state : State) (tokens : List Token)
    (own : ∀ token ∈ tokens, token.kind ≠ .newline → isIndentation stream token = false)
    (known : ∀ token ∈ tokensFrom source state tokens, token.kind = .newline → token ∈ stream) :
    (tokensFrom source state tokens).filter (!isIndentation stream ·) =
      tokens.filter (·.kind ≠ .newline) := by
  -- All that the layout adds counts as indentation, the errors of a column included.
  have nothing : ∀ added : List Token, (∀ token ∈ added, isIndentation stream token = true) →
      added.filter (!isIndentation stream ·) = [] := by
    intro added all
    rw [List.filter_eq_nil_iff]
    intro token member
    rw [all token member]
    decide
  induction tokens generalizing state with
  | nil =>
      refine nothing _ fun token member => indentation_of_kind stream token ?_
      have kinds := closing_kinds source state.blocks token member
      simp only [List.mem_cons, List.not_mem_nil, or_false] at kinds ⊢
      exact .inr (.inr kinds)
  | cons first rest induction =>
      rw [tokens_from_step] at known ⊢
      have later := induction (step source state first rest).1
        (fun token member => own token (by simp [member]))
        (fun token member => known token (by simp [member]))
      rw [List.filter_append, later]
      obtain ⟨newline, _, same⟩ | ⟨newline, _, _, same⟩ | ⟨solid, same⟩ :=
        step_cases source state first rest
      · rw [same, List.filter_nil, List.nil_append, List.filter_cons_of_neg (by simpa using newline)]
      · rw [same] at known ⊢
        have there : first ∈ stream := known first (by simp) newline
        have left : (first :: rest).filter (·.kind ≠ .newline) = rest.filter (·.kind ≠ .newline) :=
          List.filter_cons_of_neg (by simpa using newline)
        rw [left, nothing, List.nil_append]
        intro token member
        rcases List.mem_cons.mp member with rfl | change
        · exact indentation_of_kind stream token (by rw [newline]; decide)
        · have facts := change_kinds _ _ _ token change
          exact indentation_of_change stream first token there newline facts.1 facts.2
      · have here : (!isIndentation stream first) = true := by
          rw [own first (by simp) solid]
          rfl
        have given : [first].filter (!isIndentation stream ·) = [first] :=
          List.filter_cons_of_pos here
        have kept : (first :: rest).filter (·.kind ≠ .newline) =
            first :: rest.filter (·.kind ≠ .newline) := List.filter_cons_of_pos (by simpa using solid)
        rw [same, kept, given]
        rfl

theorem parens_after_plain (parens : Nat) (tokens : List Token)
    (plain : ∀ token ∈ tokens, token.kind ≠ .leftParen ∧ token.kind ≠ .rightParen) :
    parensAfterAll parens tokens = parens := by
  induction tokens with
  | nil => rfl
  | cons token rest induction =>
      have here := plain token (by simp)
      have same : parensAfter parens token = parens := by
        rw [parensAfter, if_neg here.1, if_neg here.2]
      rw [parensAfterAll, List.foldl_cons, same]
      exact induction fun token member => plain token (by simp [member])

theorem closing_rest (blocks : List Nat) (before after : List Token) (token : Token)
    (split : closing source blocks = before ++ token :: after) :
    ∃ left, token :: after = closing source left := by
  induction blocks generalizing before with
  | nil =>
      cases before with
      | nil => exact ⟨[], split.symm⟩
      | cons first more => simp [closing] at split
  | cons block others induction =>
      cases before with
      | nil => exact ⟨block :: others, split.symm⟩
      | cons first more => exact induction more (List.cons.inj split).2

/-- No line ends or changes blocks where a parenthesis is open. -/
theorem layout_quiet_in_parens (state : State) (tokens before after : List Token) (token : Token)
    (content : ∀ token ∈ tokens, token.kind ≠ .newline → token.kind.IsContent)
    (split : tokensFrom source state tokens = before ++ token :: after)
    (indentation : token.kind ∈ [TokenKind.newline, .indent, .dedent]) :
    parensAfterAll state.parens before = 0 ∨
      (token.kind = .dedent ∧ ∃ blocks, token :: after = closing source blocks) := by
  induction tokens generalizing state before with
  | nil =>
      obtain ⟨left, rest⟩ := closing_rest source state.blocks before after token split
      have kind := closing_kinds source left token (by rw [← rest]; exact List.mem_cons_self)
      refine .inr ⟨?_, left, rest⟩
      simp only [List.mem_cons, List.not_mem_nil, or_false] at kind indentation
      rcases kind with dedent | isEnd
      · exact dedent
      · rw [isEnd] at indentation
        simp at indentation
  | cons first rest induction =>
      have later : ∀ next before, tokensFrom source next rest = before ++ token :: after → _ :=
        fun next before => induction next before fun token member => content token (by simp [member])
      rw [tokens_from_step] at split
      obtain ⟨newline, _, same⟩ | ⟨newline, closed, _, same⟩ | ⟨solid, same⟩ :=
        step_cases source state first rest
      · rw [same] at split
        exact later state before split
      · rw [same] at split
        -- The newline and the changes leave no parenthesis open, so what matters is what comes later.
        have plain : ∀ token ∈ first :: (shift state.blocks (nextColumn source rest)).2.map
            (Token.mk · first.span), token.kind ≠ .leftParen ∧ token.kind ≠ .rightParen := by
          have kinds : ∀ kind ∈ [TokenKind.newline, .indent, .dedent, .error],
              kind ≠ .leftParen ∧ kind ≠ .rightParen := by decide
          intro token member
          rcases List.mem_cons.mp member with rfl | change
          · exact kinds _ (by rw [newline]; decide)
          · exact kinds _ (List.mem_cons_of_mem _ (change_kinds _ _ _ token change).1)
        obtain ⟨between, stretch, rest'⟩ | ⟨between, stretch, rest'⟩ :=
          List.append_eq_append_iff.mp split
        · have none := parens_after_plain 0 _ plain
          rw [parensAfterAll] at none
          rw [stretch, parensAfterAll, List.foldl_append, closed, none]
          exact later _ between rest'
        · refine .inl ?_
          rw [closed]
          refine parens_after_plain 0 before fun token member => plain token ?_
          change first :: _ = before ++ between at stretch
          rw [stretch]
          exact List.mem_append_left _ member
      · rw [same] at split
        cases before with
        | nil =>
            have known := content first (by simp) solid
            rw [List.singleton_append, List.nil_append] at split
            rw [← (List.cons.inj split).1] at indentation
            simp only [List.mem_cons, List.not_mem_nil, or_false] at indentation
            rcases indentation with newline | indent | dedent
            · exact absurd newline solid
            · exact absurd indent known.notIndent
            · exact absurd dedent known.notDedent
        | cons head more =>
            obtain ⟨rfl, rest'⟩ := List.cons.inj split
            exact later ⟨_, _, false⟩ more rest'

def Apart (tokens : List Token) : Prop :=
  tokens.IsChain fun first second => ¬(first.kind = .newline ∧ second.kind = .newline)

theorem apart_append (added rest : List Token) (plain : ∀ token ∈ added, token.kind ≠ .newline)
    (apart : Apart rest) : Apart (added ++ rest) := by
  induction added with
  | nil => exact apart
  | cons token others induction =>
      refine List.isChain_cons.mpr ⟨fun next _ both => ?_,
        induction fun token member => plain token (by simp [member])⟩
      exact plain token (by simp) both.1

/-- After the end of a line no newline comes next. -/
theorem line_ends_once (state : State) (tokens : List Token) (ended : state.lineEnded = true) :
    ∀ token ∈ (tokensFrom source state tokens).head?, token.kind ≠ .newline := by
  induction tokens with
  | nil =>
      intro token head newline
      have kind := closing_kinds source state.blocks token (List.mem_of_mem_head? head)
      rw [newline] at kind
      exact absurd kind (by decide)
  | cons first rest induction =>
      rw [tokens_from_step]
      obtain ⟨_, _, same⟩ | ⟨_, _, inside, _⟩ | ⟨solid, same⟩ := step_cases source state first rest
      · rw [same]
        exact induction
      · rw [ended] at inside
        cases inside
      · rw [same]
        rintro token ⟨⟩
        exact solid

/-- A newline never follows another one. -/
theorem layout_newlines_apart (state : State) (tokens : List Token) :
    Apart (tokensFrom source state tokens) := by
  induction tokens generalizing state with
  | nil =>
      rw [tokens_from_end, ← List.append_nil (closing _ _)]
      refine apart_append _ [] (fun token member newline => ?_) .nil
      have kind := closing_kinds source state.blocks token member
      rw [newline] at kind
      exact absurd kind (by decide)
  | cons first rest induction =>
      rw [tokens_from_step]
      obtain ⟨_, _, same⟩ | ⟨newline, _, _, same⟩ | ⟨solid, same⟩ :=
        step_cases source state first rest
      · rw [same]
        exact induction state
      · rw [same]
        have plain : ∀ token ∈ (shift state.blocks (nextColumn source rest)).2.map
            (Token.mk · first.span), token.kind ≠ .newline := by
          intro token member newline
          have kinds := (change_kinds _ _ _ token member).1
          rw [newline] at kinds
          exact absurd kinds (by decide)
        refine List.isChain_cons.mpr ⟨fun next head both => ?_, apart_append _ _ plain (induction _)⟩
        cases changes :
            (shift state.blocks (nextColumn source rest)).2.map (Token.mk · first.span) with
        | nil =>
            rw [changes] at head
            exact line_ends_once source _ rest rfl next head both.2
        | cons change others =>
            rw [changes] at head
            cases head
            exact plain next (by rw [changes]; exact List.mem_cons_self) both.2
      · rw [same]
        exact apart_append [first] _ (fun token member => by rwa [List.mem_singleton.mp member])
          (induction _)

end Stream

/-- Tokens of a source that say where its blocks begin and end, and are the raw tokens otherwise. -/
structure WellNested (source : List Char) (stream : List Token) : Prop where
  /-- The end of the file comes last, and only there. -/
  ends : ∃ before final, stream = before ++ [final] ∧ final.kind = .endOfFile ∧
    ∀ token ∈ before, token.kind ≠ .endOfFile
  /-- No block is closed before it is opened. -/
  opened : ∀ taken, taken <+: stream → countOf .dedent taken ≤ countOf .indent taken
  /-- All blocks are closed. -/
  closed : countOf .dedent stream = countOf .indent stream
  /-- Nothing else is added, dropped or moved. -/
  faithful : stream.filter (!isIndentation stream ·) =
    (rawTokens source).filter fun token => token.kind ≠ .comment ∧ token.kind ≠ .newline
  /-- Inside parentheses there is no indentation but what closes all blocks at the end. -/
  quiet : ∀ before token after, stream = before ++ token :: after →
    token.kind ∈ [TokenKind.newline, .indent, .dedent] →
    parensAfterAll 0 before = 0 ∨
      (token.kind = .dedent ∧ ∃ blocks, token :: after = closing source blocks)
  /-- A line ends once. -/
  apart : Apart stream

/-- Tokens at the end of a line: its newline, and the change of blocks that stands on it. -/
def LineEnded (given : List Token) : Prop :=
  ∃ before newline changes, given = before ++ newline :: changes ∧ newline.kind = .newline ∧
    ∀ change ∈ changes, change.span = newline.span

structure Stacked (source : List Char) (given : List Token) (state : State)
    (left : Option (List Token)) : Prop where
  /-- The point lies on the way through the tokens. -/
  onTheWay : given <+: layoutTokens source
  /-- The columns of the open blocks climb from zero. -/
  climbs : (0 :: state.blocks.reverse).Pairwise (· < ·)
  /-- There is one of them for each indent without a dedent. -/
  height : state.blocks.length + countOf .dedent given = countOf .indent given
  /-- The innermost block has the column of a line that begins, unless that was reported. -/
  column : ∀ next rest, left = some (next :: rest) → next.kind ≠ .newline → LineEnded given →
    innermost state.blocks = columnOf source next.span.start ∨
      ∃ error, given.getLast? = some error ∧ error.kind = .error
  /-- Where no line begins any more, all blocks are closed. -/
  margin : left = some [] → LineEnded given → state.blocks = []
  finished : left = none → given = layoutTokens source ∧ state.blocks = []

section Points

variable {source : List Char} {given : List Token} {state : State}

theorem Reached.is_line_ended {left : List Token} (reached : Reached source given state (some left))
    (lineEnded : LineEnded given) : state.lineEnded = true := by
  by_contra inside
  obtain ⟨before, newline, changes, stream, isNewline, stand⟩ := lineEnded
  have there : newline ∈ contents source := by
    refine newline_of_layout source .start _ newline ?_ isNewline
    have whole := reached.stream
    rw [layoutTokens] at whole
    rw [contents, whole, stream]
    simp
  obtain none | ⟨earlier, last, ends, inContents, solid⟩ :=
    reached.inside_line (Bool.not_eq_true _ ▸ inside)
  · rw [none] at stream
    simp at stream
  · -- The last token is no newline, so it is not among the newline and its changes.
    have lastOf : last ∈ newline :: changes := by
      have same := congrArg List.getLast? (stream.symm.trans ends)
      rw [List.getLast?_append_cons, List.getLast?_concat] at same
      exact List.mem_of_getLast? same
    rcases List.mem_cons.mp lastOf with rfl | change
    · exact solid isNewline
    · have same := raw_token_of_span source last newline (List.mem_of_mem_filter inContents)
        (List.mem_of_mem_filter there) (stand last change)
      rw [same] at solid
      exact solid isNewline

theorem Reached.stacked {left : Option (List Token)} (reached : Reached source given state left) :
    Stacked source given state left where
  onTheWay := by
    rw [reached.stream]
    exact List.prefix_append _ _
  climbs := reached.falling.climbs
  height := reached.height
  column := by
    rintro next rest rfl solid ended
    obtain ⟨before, newline, blocks, _, stream, now⟩ :=
      reached.line_ended (reached.is_line_ended ended)
    have column : nextColumn source (next :: rest) = columnOf source next.span.start := by
      rw [nextColumn, List.dropWhile_cons_of_neg (by simpa using solid)]
    rw [column] at stream now
    rcases shift_reaches_column blocks (columnOf source next.span.start) with same | ⟨changes, error⟩
    · exact .inl (by rw [now, same])
    · refine .inr ⟨⟨.error, newline.span⟩, ?_, rfl⟩
      rw [stream, error, List.map_append, ← List.cons_append, ← List.append_assoc, List.map_singleton,
        List.getLast?_concat]
  margin := by
    rintro rfl ended
    obtain ⟨before, newline, blocks, falling, stream, now⟩ :=
      reached.line_ended (reached.is_line_ended ended)
    rw [now]
    exact congrArg Prod.fst (shift_to_margin blocks falling.positive)
  finished := by
    rintro rfl
    have whole := reached.stream
    rw [Option.map_none, Option.getD_none, List.append_nil] at whole
    cases reached with
    | finish before => exact ⟨whole.symm, rfl⟩

end Points

theorem layout_well_nested (source : List Char) : WellNested source (layoutTokens source) := by
  have nested := nested_layout source .start (contents source) contents_are_content
  have own : ∀ token ∈ contents source, token.kind ≠ .newline →
      isIndentation (layoutTokens source) token = false := by
    intro token member solid
    have known := contents_are_content token member solid
    -- An error of the source stands on no newline, which has a span of its own.
    have apart : (layoutTokens source).any
        (fun other => other.kind = .newline && other.span = token.span) = false := by
      rw [List.any_eq_false]
      intro other there both
      simp only [Bool.and_eq_true, decide_eq_true_eq] at both
      have raw := newline_of_layout source .start (contents source) other there both.1
      have same := raw_token_of_span source other token (List.mem_of_mem_filter raw)
        (List.mem_of_mem_filter member) both.2
      exact solid (same ▸ both.1)
    rw [isIndentation, apart, Bool.and_false, Bool.or_false, decide_eq_false_iff_not]
    simp [known.notNewline, known.notIndent, known.notDedent, known.notEnd]
  exact {
    ends := layout_ends source .start (contents source) fun token member =>
      tokens_from_not_added 0 source .endOfFile (.inr (.inr rfl)) token
        (List.mem_of_mem_filter member)
    opened := fun taken start => (nested.taken taken start).trans_eq (Nat.zero_add _)
    closed := nested.whole.trans (Nat.zero_add _)
    faithful := by
      have kept := layout_keeps_contents source (layoutTokens source) .start (contents source) own
        fun _ member _ => member
      refine kept.trans ?_
      rw [contents, List.filter_filter]
      congr 1
      funext token
      rw [Bool.decide_and, Bool.and_comm]
    quiet := fun before token after split => layout_quiet_in_parens source .start (contents source)
      before after token contents_are_content split
    apart := layout_newlines_apart source .start (contents source) }

end Layout

/-- The layout of every source is well nested, and the open blocks follow the columns of its lines on
the whole way to its end. -/
theorem indentation_is_well_nested (source : List Char) :
    Layout.WellNested source (layoutTokens source) ∧
      (∃ state, Layout.Reached source (layoutTokens source) state none) ∧
      ∀ given state left, Layout.Reached source given state left →
        Layout.Stacked source given state left := by
  refine ⟨Layout.layout_well_nested source, ?_, fun _ _ _ reached => reached.stacked⟩
  have begun : Layout.Reached source [] .start (some (Layout.contents source)) := .start
  obtain ⟨given, state, reached⟩ := Layout.Reached.goes_on (Layout.contents source) begun
  have whole := (reached.stacked.finished rfl).1
  exact ⟨state, whole ▸ reached⟩

end ScriptWasm
