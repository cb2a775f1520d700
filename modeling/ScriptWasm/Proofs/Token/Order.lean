import ScriptWasm.Proofs.Token.Indentation

/-!
The order of tokens. The raw tokens of a source stand one after the other on its characters, and the
layout keeps all of them but newlines and comments, without changing their order.
-/

namespace ScriptWasm

set_option autoImplicit false

def InOrder (spans : List Span) : Prop :=
  spans.Pairwise fun left right => left.stop ≤ right.start

def Span.Within (source : List Char) (span : Span) : Prop :=
  ∃ inside, span.slice? source = some inside

def leaflessKinds : List TokenKind :=
  [.newline, .indent, .dedent, .comment, .endOfFile, .error]

theorem span_ordered (source : List Char) (span : Span) (within : span.Within source) :
    span.start ≤ span.stop := by
  obtain ⟨inside, sliced⟩ := within
  obtain ⟨before, after, _, start, stop⟩ := (slice_succeeds_iff _ _ _).mp sliced
  rw [start, stop, byte_length_append]
  omega

theorem span_through (source : List Char) (first last : Span) (within : first.Within source)
    (lastWithin : last.Within source) (ordered : first.start ≤ last.stop) :
    (first.through last).Within source := by
  obtain ⟨inside, sliced⟩ := within
  obtain ⟨other, slicedLast⟩ := lastWithin
  obtain ⟨before, after, whole, start, _⟩ := (slice_succeeds_iff _ _ _).mp sliced
  obtain ⟨before', after', whole', _, stop⟩ := (slice_succeeds_iff _ _ _).mp slicedLast
  have parts : before ++ (inside ++ after) = (before' ++ other) ++ after' := by
    rw [← List.append_assoc, ← whole, whole']
  obtain ⟨between, stretch, rest⟩ | ⟨between, stretch, rest⟩ := List.append_eq_append_iff.mp parts
  · refine ⟨between, (slice_succeeds_iff _ _ _).mpr ⟨before, after', ?_, start, ?_⟩⟩
    · rw [whole', stretch]
    · change last.stop = _
      rw [stop, stretch]
  · have nothing : between = [] := by
      have sizes := congrArg byteLength stretch
      rw [byte_length_append, ← stop, ← start] at sizes
      cases between with
      | nil => rfl
      | cons char more =>
          have := char.utf8Size_pos
          rw [byteLength] at sizes
          omega
    subst nothing
    refine ⟨[], (slice_succeeds_iff _ _ _).mpr ⟨before, after', ?_, start, ?_⟩⟩
    · rw [whole', stretch]
      simp
    · change last.stop = _
      rw [stop, stretch]
      simp

theorem tokens_from_placed (source before text : List Char) (whole : source = before ++ text) :
    (∀ token ∈ Lexer.tokensFrom (byteLength before) text,
      token.span.Within source ∧ byteLength before ≤ token.span.start) ∧
    InOrder ((Lexer.tokensFrom (byteLength before) text).map Token.span) := by
  generalize start : byteLength before = offset
  -- The induction is on the scan: what comes later starts where the token before it stops, or
  -- behind that.
  fun_induction Lexer.tokensFrom offset text generalizing before with
  | case1 offset => exact ⟨List.forall_mem_nil _, .nil⟩
  | case2 offset first rest skipped induction =>
      obtain ⟨placed, ordered⟩ := induction (before ++ [first])
        (by rw [whole, List.append_assoc]; rfl)
        (by rw [byte_length_append, start, byteLength, byteLength, Nat.add_zero])
      refine ⟨fun token member => ⟨(placed token member).1, ?_⟩, ordered⟩
      have := (placed token member).2
      omega
  | case3 offset first rest solid kind more found stop induction =>
      have cut : first :: rest = (first :: rest.take more) ++ rest.drop more := by
        rw [List.cons_append, List.take_append_drop]
      have stopAt : stop = byteLength (before ++ (first :: rest.take more)) := by
        rw [byte_length_append, start]
      obtain ⟨placed, ordered⟩ := induction (before ++ (first :: rest.take more))
        (by rw [whole, List.append_assoc, ← cut]) stopAt.symm
      have here : (Span.mk offset stop).Within source := by
        refine ⟨first :: rest.take more,
          (slice_succeeds_iff _ _ _).mpr ⟨before, rest.drop more, ?_, start.symm, stopAt⟩⟩
        rw [whole, List.append_assoc, ← cut]
      have forward := span_ordered source _ here
      refine ⟨?_, ?_⟩
      · intro token member
        rcases List.mem_cons.mp member with rfl | later
        · exact ⟨here, Nat.le_refl _⟩
        · exact ⟨(placed token later).1, Nat.le_trans forward (placed token later).2⟩
      · refine List.pairwise_cons.mpr ⟨?_, ordered⟩
        intro span member
        obtain ⟨token, there, rfl⟩ := List.mem_map.mp member
        exact (placed token there).2

theorem raw_tokens_within (source : List Char) (token : Token) (member : token ∈ rawTokens source) :
    token.span.Within source :=
  ((tokens_from_placed source [] source rfl).1 token member).1

theorem raw_tokens_in_order (source : List Char) : InOrder ((rawTokens source).map Token.span) :=
  (tokens_from_placed source [] source rfl).2

/-- What a change of indentation adds. -/
theorem shift_kinds (blocks : List Nat) (column : Nat) :
    ∀ kind ∈ (Layout.shift blocks column).2, kind ∈ [TokenKind.indent, .dedent, .error] := by
  intro kind member
  unfold Layout.shift at member
  split at member
  · rw [List.mem_singleton.mp member]
    decide
  · simp only [List.mem_append, List.mem_map] at member
    rcases member with ⟨_, _, rfl⟩ | added
    · decide
    · split at added
      · cases added
      · rw [List.mem_singleton.mp added]
        decide

/-- The layout neither adds nor drops nor moves what can be a leaf. -/
theorem layout_keeps_leaves (source : List Char) (state : Layout.State) (tokens : List Token) :
    (Layout.tokensFrom source state tokens).filter (·.kind ∉ leaflessKinds) =
      tokens.filter (·.kind ∉ leaflessKinds) := by
  have dropped : ∀ (added : List TokenKind) (span : Span), (∀ kind ∈ added, kind ∈ leaflessKinds) →
      (added.map (Token.mk · span)).filter (·.kind ∉ leaflessKinds) = [] := by
    intro added span leafless
    rw [List.filter_eq_nil_iff]
    intro token member
    obtain ⟨kind, there, rfl⟩ := List.mem_map.mp member
    simpa using leafless kind there
  have leafless : ∀ kind ∈ [TokenKind.indent, .dedent, .error], kind ∈ leaflessKinds := by decide
  induction tokens generalizing state with
  | nil =>
      have ends := dropped (state.blocks.map (fun _ => .dedent) ++ [.endOfFile])
        ⟨byteLength source, byteLength source⟩ (by
          intro kind member
          rcases List.mem_append.mp member with inner | last
          · obtain ⟨_, _, rfl⟩ := List.mem_map.mp inner
            decide
          · rw [List.mem_singleton.mp last]
            decide)
      rw [List.map_append, List.map_map] at ends
      rw [Layout.tokensFrom]
      exact ends
  | cons token rest induction =>
      rw [Layout.tokensFrom]
      split
      · rename_i newline
        have gone : (decide (token.kind ∉ leaflessKinds)) = false := by rw [newline]; decide
        rw [List.filter_cons_of_neg (by simp [gone])]
        split
        · exact induction _
        · simp only
          rw [List.cons_append, List.filter_cons_of_neg (by simp [gone]), List.filter_append,
            dropped _ _ (fun kind member => leafless kind (shift_kinds _ _ kind member)),
            List.nil_append]
          exact induction _
      · rw [List.filter_cons, List.filter_cons, induction]

/-- Every token that ends no line is kept. -/
theorem layout_keeps_tokens (source : List Char) (state : Layout.State) (tokens : List Token)
    (token : Token) (member : token ∈ tokens) (solid : token.kind ≠ .newline) :
    token ∈ Layout.tokensFrom source state tokens := by
  induction tokens generalizing state with
  | nil => cases member
  | cons first rest induction =>
      rw [Layout.tokensFrom]
      split
      · rename_i newline
        have later : token ∈ rest := by
          rcases List.mem_cons.mp member with rfl | later
          · exact absurd newline solid
          · exact later
        split
        · exact induction _ later
        · exact List.mem_append_right _ (induction _ later)
      · rcases List.mem_cons.mp member with rfl | later
        · exact List.mem_cons_self
        · exact List.mem_cons_of_mem _ (induction _ later)

/-- Whatever the layout adds stands at a newline or at the end of the source. -/
theorem layout_spans (source : List Char) (state : Layout.State) (tokens : List Token) :
    ∀ token ∈ Layout.tokensFrom source state tokens,
      token.span ∈ tokens.map Token.span ∨ token.span = ⟨byteLength source, byteLength source⟩ := by
  induction tokens generalizing state with
  | nil =>
      intro token member
      rw [Layout.tokensFrom] at member
      simp only [List.mem_append, List.mem_map, List.mem_singleton] at member
      rcases member with ⟨_, _, rfl⟩ | rfl
      · exact .inr rfl
      · exact .inr rfl
  | cons first rest induction =>
      have later (state : Layout.State) (token : Token)
          (member : token ∈ Layout.tokensFrom source state rest) :
          token.span ∈ (first :: rest).map Token.span ∨
            token.span = ⟨byteLength source, byteLength source⟩ :=
        (induction state token member).imp_left (List.mem_cons_of_mem _)
      intro token member
      rw [Layout.tokensFrom] at member
      split at member
      · split at member
        · exact later _ token member
        · simp only [List.cons_append, List.mem_cons, List.mem_append, List.mem_map] at member
          rcases member with rfl | ⟨_, _, rfl⟩ | member
          · exact .inl List.mem_cons_self
          · exact .inl List.mem_cons_self
          · exact later _ token member
      · rcases List.mem_cons.mp member with rfl | member
        · exact .inl List.mem_cons_self
        · exact later _ token member

theorem span_of_nothing (source : List Char) :
    (Span.mk (byteLength source) (byteLength source)).Within source :=
  ⟨[], (slice_succeeds_iff _ _ _).mpr ⟨source, [], by simp, rfl, by simp⟩⟩

theorem layout_tokens_within (source : List Char) (token : Token)
    (member : token ∈ layoutTokens source) : token.span.Within source := by
  rcases layout_spans source .start _ token member with raw | final
  · obtain ⟨other, there, same⟩ := List.mem_map.mp raw
    rw [← same]
    exact raw_tokens_within source other (List.mem_of_mem_filter there)
  · rw [final]
    exact span_of_nothing source

theorem layout_ends (source : List Char) (state : Layout.State) (tokens : List Token)
    (inner : ∀ token ∈ tokens, token.kind ≠ .endOfFile) :
    ∃ before final, Layout.tokensFrom source state tokens = before ++ [final] ∧
      final.kind = .endOfFile ∧ ∀ token ∈ before, token.kind ≠ .endOfFile := by
  induction tokens generalizing state with
  | nil =>
      rw [Layout.tokensFrom]
      refine ⟨_, _, rfl, rfl, ?_⟩
      intro token member isEnd
      obtain ⟨_, _, rfl⟩ := List.mem_map.mp member
      cases isEnd
  | cons first rest induction =>
      have kept : ∀ state, ∃ before final,
          Layout.tokensFrom source state rest = before ++ [final] ∧ final.kind = .endOfFile ∧
            ∀ token ∈ before, token.kind ≠ .endOfFile :=
        fun state => induction state fun token member => inner token (by simp [member])
      have going : ∀ kind ∈ [TokenKind.indent, .dedent, .error], kind ≠ .endOfFile := by decide
      rw [Layout.tokensFrom]
      split
      · split
        · exact kept _
        · simp only
          obtain ⟨before, final, split, ends, free⟩ := kept
            ⟨(Layout.shift state.blocks (Layout.nextColumn source rest)).1, 0, true⟩
          refine ⟨first :: (Layout.shift state.blocks (Layout.nextColumn source rest)).2.map
            (⟨·, first.span⟩) ++ before, final, by rw [split, List.append_assoc], ends, ?_⟩
          intro token member
          simp only [List.cons_append, List.mem_cons, List.mem_append, List.mem_map] at member
          rcases member with rfl | ⟨kind, there, rfl⟩ | later
          · exact inner _ (by simp)
          · exact going kind (shift_kinds _ _ kind there)
          · exact free token later
      · simp only
        obtain ⟨before, final, split, ends, free⟩ := kept ⟨state.blocks,
          if first.kind = .leftParen then state.parens + 1
          else if first.kind = .rightParen then state.parens - 1
          else state.parens, false⟩
        refine ⟨first :: before, final, by rw [split, List.cons_append], ends, ?_⟩
        intro token member
        rcases List.mem_cons.mp member with rfl | later
        · exact inner _ (by simp)
        · exact free token later

end ScriptWasm
