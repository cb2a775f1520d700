import Mathlib.Data.List.Nodup
import ScriptWasm.Proofs.Token.Padding

/-!
The open blocks along a layout. The layout goes through the raw tokens one by one, and at every point
the columns of the open blocks climb from zero, with one block for every indent that has no dedent
yet. Where a line begins, the innermost block has the column of that line, unless the line came back
to a column of no block, which the layout reports.
-/

namespace ScriptWasm

set_option autoImplicit false

namespace Layout

def contents (source : List Char) : List Token :=
  (rawTokens source).filter (·.kind ≠ .comment)

/-- How many parentheses are open after a token. A closing one without a partner changes nothing. -/
def parensAfter (parens : Nat) (token : Token) : Nat :=
  if token.kind = .leftParen then parens + 1
  else if token.kind = .rightParen then parens - 1
  else parens

def step (source : List Char) (state : State) (token : Token) (rest : List Token) :
    State × List Token :=
  if token.kind = .newline then
    if 0 < state.parens || state.lineEnded then (state, [])
    else
      (⟨(shift state.blocks (nextColumn source rest)).1, 0, true⟩,
        token :: (shift state.blocks (nextColumn source rest)).2.map (⟨·, token.span⟩))
  else (⟨state.blocks, parensAfter state.parens token, false⟩, [token])

def closing (source : List Char) (blocks : List Nat) : List Token :=
  blocks.map (fun _ => ⟨.dedent, ⟨byteLength source, byteLength source⟩⟩) ++
    [⟨.endOfFile, ⟨byteLength source, byteLength source⟩⟩]

/-- The points of the layout of a source: the tokens that were given, those that wait to be given
counted, the state, and the tokens that are left, or nothing when the end was passed. -/
inductive Reached (source : List Char) : List Token → State → Option (List Token) → Prop where
  | start : Reached source [] .start (some (contents source))
  | read {given : List Token} {state : State} {token : Token} {rest : List Token}
      (before : Reached source given state (some (token :: rest))) :
      Reached source (given ++ (step source state token rest).2) (step source state token rest).1
        (some rest)
  | finish {given : List Token} {state : State} (before : Reached source given state (some [])) :
      Reached source (given ++ closing source state.blocks) ⟨[], state.parens, state.lineEnded⟩ none

section Steps

variable (source : List Char)

theorem tokens_from_step (state : State) (token : Token) (rest : List Token) :
    tokensFrom source state (token :: rest) =
      (step source state token rest).2 ++ tokensFrom source (step source state token rest).1 rest := by
  rw [tokensFrom, step]
  split
  · split
    · rfl
    · rfl
  · rfl

theorem tokens_from_end (state : State) : tokensFrom source state [] = closing source state.blocks :=
  rfl

/-- A step passes over a newline, ends a line, or gives a token of a line. -/
theorem step_cases (state : State) (token : Token) (rest : List Token) :
    (token.kind = .newline ∧ (0 < state.parens ∨ state.lineEnded = true) ∧
      step source state token rest = (state, [])) ∨
    (token.kind = .newline ∧ state.parens = 0 ∧ state.lineEnded = false ∧
      step source state token rest =
        (⟨(shift state.blocks (nextColumn source rest)).1, 0, true⟩,
          token :: (shift state.blocks (nextColumn source rest)).2.map (⟨·, token.span⟩))) ∨
    (token.kind ≠ .newline ∧ step source state token rest =
      (⟨state.blocks, parensAfter state.parens token, false⟩, [token])) := by
  rw [step]
  by_cases newline : token.kind = .newline
  · rw [if_pos newline]
    by_cases quiet : 0 < state.parens ∨ state.lineEnded = true
    · exact .inl ⟨newline, quiet, by rw [if_pos (by simpa using quiet)]⟩
    · refine .inr (.inl ⟨newline, by omega, by simpa using fun ended => quiet (.inr ended), ?_⟩)
      rw [if_neg (by simpa using quiet)]
  · exact .inr (.inr ⟨newline, by rw [if_neg newline]⟩)

/-- From every point, what was given is followed by what the layout gives from there. -/
theorem Reached.stream {source : List Char} {given : List Token} {state : State}
    {left : Option (List Token)} (reached : Reached source given state left) :
    layoutTokens source = given ++ (left.map (tokensFrom source state)).getD [] := by
  induction reached with
  | start => rfl
  | read before induction =>
      rw [induction, Option.map_some, Option.getD_some, tokens_from_step, List.append_assoc]
      rfl
  | finish before induction =>
      rw [induction, Option.map_some, Option.getD_some, tokens_from_end, Option.map_none,
        Option.getD_none, List.append_nil]

/-- The layout comes to its end from every point. -/
theorem Reached.goes_on {source : List Char} (left : List Token) {given : List Token} {state : State}
    (reached : Reached source given state (some left)) :
    ∃ all final, Reached source all final none := by
  induction left generalizing given state with
  | nil => exact ⟨_, _, reached.finish⟩
  | cons token rest induction => exact induction reached.read

theorem Reached.left_suffix {source : List Char} {given : List Token} {state : State}
    {left : Option (List Token)} (reached : Reached source given state left) :
    left.getD [] <:+ contents source := by
  induction reached with
  | start => exact List.suffix_refl _
  | read before induction => exact (List.suffix_cons _ _).trans induction
  | finish before induction => exact List.nil_suffix

end Steps

section Changes

/-- Columns that fall strictly to zero at the top level, which is not listed. -/
def Falling (blocks : List Nat) : Prop :=
  (blocks ++ [0]).Pairwise (· > ·)

theorem Falling.positive {blocks : List Nat} (falling : Falling blocks) :
    ∀ block ∈ blocks, 0 < block := by
  intro block member
  exact (List.pairwise_append.mp falling).2.2 block member 0 (by simp)

theorem Falling.climbs {blocks : List Nat} (falling : Falling blocks) :
    (0 :: blocks.reverse).Pairwise (· < ·) := by
  have turned := List.pairwise_reverse.mpr falling
  rwa [List.reverse_append] at turned

theorem Falling.below_innermost {blocks : List Nat} (falling : Falling blocks) :
    ∀ block ∈ blocks ++ [0], block ≤ innermost blocks := by
  cases blocks with
  | nil => simp [innermost]
  | cons first others =>
      intro block member
      rcases List.mem_cons.mp member with rfl | inner
      · exact Nat.le_refl _
      · exact Nat.le_of_lt ((List.pairwise_cons.mp falling).1 block inner)

variable (blocks : List Nat) (column : Nat)

/-- A change of blocks opens one, or closes the inner ones and may find no block of the column. -/
theorem shift_cases :
    (innermost blocks < column ∧ shift blocks column = (column :: blocks, [.indent])) ∨
    ∃ closed outer, blocks = closed ++ outer ∧ shift blocks column =
      (outer, closed.map (fun _ => .dedent) ++
        if innermost outer = column then [] else [.error]) := by
  by_cases deeper : innermost blocks < column
  · exact .inl ⟨deeper, by rw [shift, if_pos deeper]⟩
  · exact .inr ⟨_, _, List.takeWhile_append_dropWhile.symm, by rw [shift, if_neg deeper]⟩

theorem shift_falling (falling : Falling blocks) : Falling (shift blocks column).1 := by
  obtain ⟨deeper, same⟩ | ⟨closed, outer, rfl, same⟩ := shift_cases blocks column
  · rw [same]
    refine List.pairwise_cons.mpr ⟨fun block member => ?_, falling⟩
    exact Nat.lt_of_le_of_lt (falling.below_innermost block member) deeper
  · rw [same]
    rw [Falling, List.append_assoc] at falling
    exact (List.pairwise_append.mp falling).2.1

/-- The innermost block has the column of the line, or the last change is an error. -/
theorem shift_reaches_column :
    innermost (shift blocks column).1 = column ∨
      ∃ changes, (shift blocks column).2 = changes ++ [.error] := by
  obtain ⟨_, same⟩ | ⟨closed, outer, _, same⟩ := shift_cases blocks column
  · exact .inl (by rw [same]; rfl)
  · rw [same]
    by_cases reached : innermost outer = column
    · exact .inl reached
    · exact .inr ⟨_, congrArg (_ ++ ·) (if_neg reached)⟩

end Changes

section Nesting

/-- Tokens whose dedents close the given number of blocks and those that the tokens open. -/
def Nested (depth : Nat) : List Token → Prop
  | [] => depth = 0
  | token :: rest =>
      if token.kind = .indent then Nested (depth + 1) rest
      else if token.kind = .dedent then 0 < depth ∧ Nested (depth - 1) rest
      else Nested depth rest

def countOf (kind : TokenKind) (tokens : List Token) : Nat :=
  tokens.countP (·.kind = kind)

theorem count_of_cons (kind : TokenKind) (token : Token) (rest : List Token) :
    countOf kind (token :: rest) = countOf kind rest + if token.kind = kind then 1 else 0 := by
  rw [countOf, List.countP_cons, ← countOf]
  simp

theorem Nested.rest {depth : Nat} {token : Token} {rest : List Token}
    (nested : Nested depth (token :: rest)) :
    ∃ next, Nested next rest ∧ depth + (if token.kind = .indent then 1 else 0) =
      next + if token.kind = .dedent then 1 else 0 := by
  rw [Nested] at nested
  split at nested
  · rename_i indent
    exact ⟨depth + 1, nested, by rw [if_pos indent, if_neg (by rw [indent]; decide)]⟩
  split at nested
  · rename_i other dedent
    have opened := nested.1
    exact ⟨depth - 1, nested.2, by rw [if_neg other, if_pos dedent]; omega⟩
  · rename_i notIndent notDedent
    exact ⟨depth, nested, by rw [if_neg notIndent, if_neg notDedent]⟩

theorem Nested.whole {depth : Nat} {tokens : List Token} (nested : Nested depth tokens) :
    countOf .dedent tokens = depth + countOf .indent tokens := by
  induction tokens generalizing depth with
  | nil => exact Eq.symm nested
  | cons token rest induction =>
      obtain ⟨next, later, change⟩ := nested.rest
      have counts := induction later
      rw [count_of_cons, count_of_cons]
      omega

theorem Nested.taken {depth : Nat} {tokens : List Token} (nested : Nested depth tokens)
    (taken : List Token) (start : taken <+: tokens) :
    countOf .dedent taken ≤ depth + countOf .indent taken := by
  induction taken generalizing depth tokens with
  | nil => exact Nat.zero_le _
  | cons token others induction =>
      obtain ⟨rest, rfl, shorter⟩ : ∃ rest, tokens = token :: rest ∧ others <+: rest := by
        obtain ⟨more, rfl⟩ := start
        exact ⟨others ++ more, rfl, List.prefix_append _ _⟩
      obtain ⟨next, later, change⟩ := nested.rest
      have counts := induction later shorter
      rw [count_of_cons, count_of_cons]
      omega

theorem nested_plain (depth : Nat) (token : Token) (rest : List Token)
    (notIndent : token.kind ≠ .indent) (notDedent : token.kind ≠ .dedent)
    (nested : Nested depth rest) : Nested depth (token :: rest) := by
  rwa [Nested, if_neg notIndent, if_neg notDedent]

theorem nested_dedents (closed : List Nat) (span : Span) (depth : Nat) (rest : List Token)
    (nested : Nested depth rest) :
    Nested (closed.length + depth) ((closed.map fun _ => ⟨.dedent, span⟩) ++ rest) := by
  induction closed with
  | nil => rwa [List.length_nil, Nat.zero_add]
  | cons block others induction =>
      have shorter : (block :: others).length + depth - 1 = others.length + depth := by
        rw [List.length_cons]
        omega
      have nonempty : 0 < (block :: others).length + depth := by
        rw [List.length_cons]
        omega
      exact ⟨nonempty, by rwa [shorter]⟩

theorem nested_shift (blocks : List Nat) (column : Nat) (span : Span) (rest : List Token)
    (nested : Nested (shift blocks column).1.length rest) :
    Nested blocks.length ((shift blocks column).2.map (⟨·, span⟩) ++ rest) := by
  obtain ⟨_, same⟩ | ⟨closed, outer, rfl, same⟩ := shift_cases blocks column
  · rw [same] at nested ⊢
    exact nested
  · rw [same] at nested ⊢
    rw [List.length_append, List.map_append, List.map_map, List.append_assoc]
    refine nested_dedents closed span _ _ ?_
    split
    · exact nested
    · exact nested_plain _ _ _ (by simp) (by simp) nested

theorem nested_layout (source : List Char) (state : State) (tokens : List Token)
    (content : ∀ token ∈ tokens, token.kind ≠ .newline → token.kind.IsContent) :
    Nested state.blocks.length (tokensFrom source state tokens) := by
  induction tokens generalizing state with
  | nil =>
      rw [tokens_from_end, closing]
      exact nested_dedents state.blocks _ 0 _ rfl
  | cons token rest induction =>
      have later := fun next => induction next fun token member => content token (by simp [member])
      rw [tokens_from_step]
      obtain ⟨newline, quiet, same⟩ | ⟨newline, _, _, same⟩ | ⟨solid, same⟩ :=
        step_cases source state token rest
      · rw [same]
        exact later _
      · rw [same, List.cons_append]
        refine nested_plain _ _ _ (by rw [newline]; decide) (by rw [newline]; decide) ?_
        exact nested_shift _ _ _ _ (later ⟨_, 0, true⟩)
      · rw [same, List.singleton_append]
        have known := content token (by simp) solid
        exact nested_plain _ _ _ known.notIndent known.notDedent (later ⟨_, _, false⟩)

end Nesting

section Points

variable {source : List Char} {given : List Token} {state : State}

theorem contents_are_content (token : Token) (member : token ∈ contents source)
    (solid : token.kind ≠ .newline) : token.kind.IsContent :=
  raw_token_is_content source token (List.mem_of_mem_filter member) solid

theorem Reached.falling {left : Option (List Token)} (reached : Reached source given state left) :
    Falling state.blocks := by
  induction reached with
  | start => exact List.pairwise_singleton _ _
  | @read given state token rest before induction =>
      obtain ⟨_, _, same⟩ | ⟨_, _, _, same⟩ | ⟨_, same⟩ := step_cases source state token rest
      · rw [same]
        exact induction
      · rw [same]
        exact shift_falling _ _ induction
      · rw [same]
        exact induction
  | finish before induction => exact List.pairwise_singleton _ _

/-- There is one open block for every indent that has no dedent yet. -/
theorem Reached.height {left : Option (List Token)} (reached : Reached source given state left) :
    state.blocks.length + countOf .dedent given = countOf .indent given := by
  have whole : countOf .dedent (layoutTokens source) = countOf .indent (layoutTokens source) := by
    have nested := nested_layout source .start (contents source) contents_are_content
    exact nested.whole.trans (Nat.zero_add _)
  cases left with
  | none =>
      have stream := reached.stream
      rw [Option.map_none, Option.getD_none, List.append_nil] at stream
      cases reached with
      | finish before => rwa [List.length_nil, Nat.zero_add, ← stream]
  | some left =>
      have later := (nested_layout source state left fun token member =>
        contents_are_content token (reached.left_suffix.subset member)).whole
      rw [reached.stream, Option.map_some, Option.getD_some, countOf, countOf, List.countP_append,
        List.countP_append, ← countOf, ← countOf, ← countOf, ← countOf] at whole
      omega

/-- After the end of a line, the last tokens are its newline and the change of blocks to the next
line. -/
theorem Reached.line_ended {left : List Token} (reached : Reached source given state (some left))
    (ended : state.lineEnded = true) :
    ∃ before newline blocks, Falling blocks ∧
      given = before ++ newline ::
        (shift blocks (nextColumn source left)).2.map (⟨·, newline.span⟩) ∧
      state.blocks = (shift blocks (nextColumn source left)).1 := by
  generalize kept : some left = remaining at reached
  induction reached generalizing left with
  | start => cases ended
  | @read given state token rest before induction =>
      cases kept
      obtain ⟨newline, quiet, same⟩ | ⟨newline, closedParens, inside, same⟩ | ⟨solid, same⟩ :=
        step_cases source state token rest
      · rw [same] at ended ⊢
        rw [List.append_nil]
        have passed : nextColumn source (token :: rest) = nextColumn source rest := by
          rw [nextColumn, nextColumn, List.dropWhile_cons_of_pos (by simpa using newline)]
        obtain ⟨earlier, last, blocks, falling, stream, now⟩ := induction ended rfl
        rw [passed] at stream now
        exact ⟨earlier, last, blocks, falling, stream, now⟩
      · rw [same]
        exact ⟨given, token, state.blocks, before.falling, rfl, rfl⟩
      · rw [same] at ended
        cases ended
  | finish before induction => cases kept

theorem Reached.inside_line {left : List Token} (reached : Reached source given state (some left))
    (inside : state.lineEnded = false) :
    given = [] ∨ ∃ before token, given = before ++ [token] ∧ token ∈ contents source ∧
      token.kind ≠ .newline := by
  generalize kept : some left = remaining at reached
  induction reached generalizing left with
  | start => exact .inl rfl
  | @read given state token rest before induction =>
      cases kept
      obtain ⟨newline, quiet, same⟩ | ⟨newline, closedParens, _, same⟩ | ⟨solid, same⟩ :=
        step_cases source state token rest
      · rw [same] at inside ⊢
        rw [List.append_nil]
        exact induction inside rfl
      · rw [same] at inside
        cases inside
      · rw [same]
        exact .inr ⟨given, token, rfl, before.left_suffix.subset (by simp), solid⟩
  | finish before induction => cases kept

end Points

end Layout

end ScriptWasm
