import ScriptWasm.Proofs.Token.Cuts
import ScriptWasm.Proofs.Token.Order

/-!
The layout of a source with an additional blank line. After a newline a further one leaves no trace.
At the end of a source it leaves one newline in front of the dedents that are there anyway.
-/

namespace ScriptWasm

set_option autoImplicit false

def Sight.Alike (first second : Sight) : Prop :=
  second = first ∨ (first.kind = .newline ∧ second.kind = .newline)

theorem Sight.Alike.kind {first second : Sight} (alike : first.Alike second) :
    second.kind = first.kind := by
  rcases alike with rfl | ⟨newline, other⟩
  · rfl
  · rw [newline, other]

theorem Sight.Alike.symm {first second : Sight} (alike : first.Alike second) : second.Alike first :=
  alike.imp Eq.symm And.symm

/-- Alike sights with additional newlines after others or at the end. In a quiet place a newline came
just before. -/
inductive Padded : Bool → List Sight → List Sight → Prop where
  | nil (quiet : Bool) : Padded quiet [] []
  | last (quiet : Bool) (extra : Sight) (isNewline : extra.kind = .newline) :
      Padded quiet [] [extra]
  | blank (extra : Sight) (first second : List Sight) (isNewline : extra.kind = .newline)
      (later : Padded true first second) : Padded true first (extra :: second)
  | cons (quiet : Bool) (head other : Sight) (first second : List Sight) (alike : head.Alike other)
      (later : Padded (head.kind = .newline) first second) :
      Padded quiet (head :: first) (other :: second)

namespace Padded

theorem of_alike (quiet : Bool) (first second : List Sight)
    (alike : List.Forall₂ Sight.Alike first second) : Padded quiet first second := by
  induction alike generalizing quiet with
  | nil => exact .nil quiet
  | cons same _ induction => exact .cons quiet _ _ _ _ same (induction _)

theorem refl (quiet : Bool) (all : List Sight) : Padded quiet all all :=
  of_alike quiet all all (List.forall₂_same.mpr fun _ _ => .inl rfl)

theorem at_end (quiet : Bool) (all : List Sight) (extra : Sight)
    (isNewline : extra.kind = .newline) :
    Padded quiet all (all ++ [extra]) := by
  induction all generalizing quiet with
  | nil => exact .last quiet extra isNewline
  | cons head rest induction => exact .cons quiet head head rest _ (.inl rfl) (induction _)

theorem after_newline (before after : List Sight) (last extra : Sight)
    (ends : last.kind = .newline) (isNewline : extra.kind = .newline) (quiet : Bool) :
    Padded quiet (before ++ [last] ++ after) (before ++ [last] ++ extra :: after) := by
  induction before generalizing quiet with
  | nil =>
      refine .cons quiet last last after _ (.inl rfl) ?_
      rw [decide_eq_true ends]
      exact .blank extra after after isNewline (refl true after)
  | cons head rest induction => exact .cons quiet head head _ _ (.inl rfl) (induction _)

theorem next_line {quiet : Bool} {first second : List Sight} (padded : Padded quiet first second) :
    (second.dropWhile (·.kind = .newline)).head? = (first.dropWhile (·.kind = .newline)).head? := by
  induction padded with
  | nil quiet => rfl
  | last quiet extra isNewline => simp [isNewline]
  | blank extra first second isNewline _ induction =>
      rw [List.dropWhile_cons_of_pos (by simpa using isNewline), induction]
  | cons quiet head other first second alike _ induction =>
      by_cases newline : head.kind = .newline
      · have newlineToo := alike.kind.trans newline
        rw [List.dropWhile_cons_of_pos (by simpa using newlineToo),
          List.dropWhile_cons_of_pos (by simpa using newline), induction]
      · rcases alike with rfl | impossible
        · rw [List.dropWhile_cons_of_neg (by simpa using newline),
            List.dropWhile_cons_of_neg (by simpa using newline)]
          rfl
        · exact absurd impossible.1 newline

end Padded

theorem next_column_of_sights (source : List Char) (tokens : List Token) :
    Layout.nextColumn source tokens =
      (((tokens.map (·.sight source)).dropWhile (·.kind = .newline)).head?.map
        (·.column)).getD 0 := by
  have dropped : (tokens.map (·.sight source)).dropWhile (·.kind = .newline) =
      (tokens.dropWhile (·.kind = .newline)).map (·.sight source) := List.dropWhile_map
  rw [dropped, Layout.nextColumn]
  split
  · rename_i none
    rw [none]
    rfl
  · rename_i next rest line
    rw [line]
    rfl

/-- Lexemes of two sources that a parser takes for the same. What the layout adds may stand on
different texts. -/
structure Lexeme.Twin (source edited : List Char) (first second : Lexeme) : Prop where
  kind : second.kind = first.kind
  text : first.kind ∉ leaflessKinds → second.text = first.text
  sound : first.Sound source
  copied : second.Sound edited

/-- Lexemes of two sources, where the second may have a newline more in front of the dedents and the
end of the file. -/
inductive Respaced (source edited : List Char) : List Lexeme → List Lexeme → Prop where
  | nil : Respaced source edited [] []
  | cons (head other : Lexeme) (first second : List Lexeme) (twin : head.Twin source edited other)
      (later : Respaced source edited first second) :
      Respaced source edited (head :: first) (other :: second)
  | newline (extra : Lexeme) (first second : List Lexeme) (isNewline : extra.kind = .newline)
      (closing : ∀ lexeme ∈ first, lexeme.kind = .dedent ∨ lexeme.kind = .endOfFile)
      (later : Respaced source edited first second) : Respaced source edited first (extra :: second)

section Layouts

variable (source edited : List Char)

theorem added_twin (kind : TokenKind) (span other : Span)
    (added : kind ∈ [TokenKind.indent, .dedent, .error, .endOfFile]) :
    ((Token.mk kind span).lexeme source).Twin source edited
      ((Token.mk kind other).lexeme edited) := by
  have free : ∀ kind ∈ [TokenKind.indent, .dedent, .error, .endOfFile],
      kind.spelling? = none ∧ kind ≠ .name ∧ kind ∈ leaflessKinds := by decide
  obtain ⟨unspelled, unnamed, leafless⟩ := free kind added
  exact ⟨rfl, fun leaf => absurd leafless leaf, added_is_sound source kind span unspelled unnamed,
    added_is_sound edited kind other unspelled unnamed⟩

theorem added_alike (kinds : List TokenKind) (span other : Span) (first second : List Lexeme)
    (added : ∀ kind ∈ kinds, kind ∈ [TokenKind.indent, .dedent, .error, .endOfFile])
    (later : Respaced source edited first second) :
    Respaced source edited ((kinds.map (Token.mk · span)).map (·.lexeme source) ++ first)
      ((kinds.map (Token.mk · other)).map (·.lexeme edited) ++ second) := by
  induction kinds with
  | nil => exact later
  | cons kind rest induction =>
      exact .cons _ _ _ _ (added_twin source edited kind span other (added kind (by simp)))
        (induction fun kind member => added kind (by simp [member]))

theorem shift_positive (blocks : List Nat) (column : Nat) (positive : ∀ block ∈ blocks, 0 < block) :
    ∀ block ∈ (Layout.shift blocks column).1, 0 < block := by
  unfold Layout.shift
  split
  · intro block member
    rcases List.mem_cons.mp member with rfl | member
    · omega
    · exact positive block member
  · exact fun block member => positive block ((List.dropWhile_sublist _).subset member)

/-- A line at column zero closes all blocks. -/
theorem shift_to_margin (blocks : List Nat) (positive : ∀ block ∈ blocks, 0 < block) :
    Layout.shift blocks 0 = ([], blocks.map fun _ => .dedent) := by
  have closed : blocks.takeWhile (0 < ·) = blocks :=
    List.takeWhile_eq_self_iff.mpr fun block member => decide_eq_true (positive block member)
  have left : blocks.dropWhile (0 < ·) = [] :=
    List.dropWhile_eq_nil_iff.mpr fun block member => decide_eq_true (positive block member)
  rw [Layout.shift, if_neg (Nat.not_lt_zero _)]
  simp only [closed, left]
  rw [if_pos (by rfl), List.append_nil]

def Layout.endKinds (blocks : List Nat) : List TokenKind :=
  blocks.map (fun _ => .dedent) ++ [.endOfFile]

theorem layout_of_nothing (state : Layout.State) :
    Layout.tokensFrom source state [] = (Layout.endKinds state.blocks).map
      (Token.mk · ⟨byteLength source, byteLength source⟩) := by
  rw [Layout.tokensFrom, Layout.endKinds, List.map_append, List.map_map]
  rfl

theorem end_kinds_close (blocks : List Nat) :
    ∀ kind ∈ Layout.endKinds blocks, kind = .dedent ∨ kind = .endOfFile := by
  intro kind member
  rcases List.mem_append.mp member with member | member
  · obtain ⟨_, _, rfl⟩ := List.mem_map.mp member
    exact Or.inl rfl
  · exact Or.inr (List.mem_singleton.mp member)

theorem ends_alike (kinds : List TokenKind) (span other : Span)
    (closing : ∀ kind ∈ kinds, kind = .dedent ∨ kind = .endOfFile) :
    Respaced source edited ((kinds.map (Token.mk · span)).map (·.lexeme source))
      ((kinds.map (Token.mk · other)).map (·.lexeme edited)) := by
  have known : ∀ kind ∈ kinds, kind ∈ [TokenKind.indent, .dedent, .error, .endOfFile] := by
    intro kind member
    rcases closing kind member with rfl | rfl <;> decide
  simpa using added_alike source edited kinds span other [] [] known .nil

/-- A newline after the last token changes nothing but that it may stand in front of what the layout
adds there. -/
theorem last_newline_alike (state : Layout.State) (newline : Token)
    (isNewline : newline.kind = .newline) (positive : ∀ block ∈ state.blocks, 0 < block) :
    Respaced source edited ((Layout.tokensFrom source state []).map (·.lexeme source))
      ((Layout.tokensFrom edited state [newline]).map (·.lexeme edited)) := by
  rw [layout_of_nothing, Layout.tokensFrom, if_pos isNewline]
  split
  · rw [layout_of_nothing]
    exact ends_alike source edited _ _ _ (end_kinds_close _)
  · -- The newline closes the blocks that the end of the file closes without it.
    have margin : Layout.nextColumn edited [] = 0 := rfl
    simp only [margin, shift_to_margin state.blocks positive, layout_of_nothing]
    refine .newline _ _ _ isNewline ?_ ?_
    · intro lexeme member
      obtain ⟨token, made, rfl⟩ := List.mem_map.mp member
      obtain ⟨kind, there, rfl⟩ := List.mem_map.mp made
      exact end_kinds_close _ kind there
    · have final := ends_alike source edited [.endOfFile] ⟨byteLength source, byteLength source⟩
        ⟨byteLength edited, byteLength edited⟩ (by simp)
      have dedents := added_alike source edited (state.blocks.map fun _ => .dedent)
        ⟨byteLength source, byteLength source⟩ newline.span _ _ (by simp) final
      simpa [Layout.endKinds] using dedents

/-- A change of indentation. -/
theorem changes_alike (blocks : List Nat) (column : Nat) (span other : Span)
    (first second : List Lexeme) (later : Respaced source edited first second) :
    Respaced source edited
      (((Layout.shift blocks column).2.map (Token.mk · span)).map (·.lexeme source) ++ first)
      (((Layout.shift blocks column).2.map (Token.mk · other)).map (·.lexeme edited) ++
        second) := by
  refine added_alike source edited _ span other first second (fun kind member => ?_) later
  have known := shift_kinds blocks column kind member
  simp only [List.mem_cons, List.not_mem_nil, or_false] at known ⊢
  rcases known with isKind | isKind | isKind <;> simp [isKind]

theorem layout_alike (quiet : Bool) (first second : List Sight) (padded : Padded quiet first second)
    (state : Layout.State) (tokens others : List Token)
    (sight : tokens.map (·.sight source) = first) (other : others.map (·.sight edited) = second)
    (dropped : quiet = true → 0 < state.parens ∨ state.lineEnded = true)
    (positive : ∀ block ∈ state.blocks, 0 < block)
    (sound : ∀ token ∈ tokens, (token.lexeme source).Sound source)
    (copied : ∀ token ∈ others, (token.lexeme edited).Sound edited) :
    Respaced source edited ((Layout.tokensFrom source state tokens).map (·.lexeme source))
      ((Layout.tokensFrom edited state others).map (·.lexeme edited)) := by
  -- In a quiet place the state is that after a newline or inside parentheses, where the layout
  -- drops a further newline.
  induction padded generalizing state tokens others with
  | nil quiet =>
      rw [List.map_eq_nil_iff] at sight other
      rw [sight, other, layout_of_nothing, layout_of_nothing]
      exact ends_alike source edited _ _ _ (end_kinds_close _)
  | last quiet extra isNewline =>
      rw [List.map_eq_nil_iff] at sight
      obtain ⟨newline, rfl, rfl⟩ := List.map_eq_singleton_iff.mp other
      rw [sight]
      exact last_newline_alike source edited state newline isNewline positive
  | blank extra first second isNewline _ induction =>
      obtain ⟨newline, rest, rfl, rfl, later⟩ := List.map_eq_cons_iff.mp other
      have isNewline : newline.kind = .newline := isNewline
      have passed : (decide (0 < state.parens) || state.lineEnded) = true := by
        simpa using dropped rfl
      rw [Layout.tokensFrom, if_pos isNewline, if_pos passed]
      exact induction state tokens rest sight later (fun _ => dropped rfl) positive sound
        fun token member => copied token (List.mem_cons_of_mem _ member)
  | cons quiet head shown first second alike padded induction =>
      obtain ⟨token, rest, rfl, rfl, later⟩ := List.map_eq_cons_iff.mp sight
      obtain ⟨copy, more, rfl, rfl, laterCopy⟩ := List.map_eq_cons_iff.mp other
      have goesOn := fun state dropped positive => induction state rest more later laterCopy dropped
        positive (fun other member => sound other (List.mem_cons_of_mem _ member))
        fun other member => copied other (List.mem_cons_of_mem _ member)
      have sameKind : copy.kind = token.kind := alike.kind
      have sameText (leaf : token.kind ∉ leaflessKinds) :
          copy.span.textIn edited = token.span.textIn source := by
        obtain same | newline := alike
        · exact congrArg Sight.text same
        · have newline : token.kind = .newline := newline.1
          exact absurd (by rw [newline]; decide) leaf
      have twin : (token.lexeme source).Twin source edited (copy.lexeme edited) :=
        ⟨sameKind, sameText, sound token List.mem_cons_self, copied copy List.mem_cons_self⟩
      have column : Layout.nextColumn edited more = Layout.nextColumn source rest := by
        rw [next_column_of_sights, next_column_of_sights, later, laterCopy, padded.next_line]
      rw [Layout.tokensFrom, Layout.tokensFrom, sameKind]
      by_cases newline : token.kind = .newline
      · rw [if_pos newline, if_pos newline]
        split
        · rename_i passed
          exact goesOn state (fun _ => by simpa using passed) positive
        · rw [column]
          have next := goesOn
            ⟨(Layout.shift state.blocks (Layout.nextColumn source rest)).1, 0, true⟩
            (fun _ => Or.inr rfl) (shift_positive _ _ positive)
          simp only [List.map_append, List.map_cons, List.cons_append]
          exact .cons _ _ _ _ twin (changes_alike source edited _ _ _ _ _ _ next)
      · rw [if_neg newline, if_neg newline]
        exact .cons _ _ _ _ twin (goesOn _
          (fun isNewline => absurd (of_decide_eq_true isNewline) newline) positive)

/-- A blank line in front of a source leaves a newline in front, if the first line that is not blank
stands at the margin. -/
theorem layout_from_margin (tokens : List Token) (margin : Layout.nextColumn source tokens = 0) :
    (Layout.tokensFrom source .start tokens).dropWhile (·.kind = .newline) =
      (Layout.tokensFrom source ⟨[], 0, true⟩ tokens).dropWhile (·.kind = .newline) := by
  cases tokens with
  | nil => rw [layout_of_nothing, layout_of_nothing]; rfl
  | cons first rest =>
      rw [Layout.tokensFrom, Layout.tokensFrom]
      by_cases newline : first.kind = .newline
      · have column : Layout.nextColumn source rest = 0 := by
          rw [← margin, Layout.nextColumn, Layout.nextColumn,
            List.dropWhile_cons_of_pos (by simpa using newline)]
        have unchanged : Layout.shift Layout.State.start.blocks 0 = ([], []) := rfl
        rw [if_pos newline, if_pos newline, if_neg (by decide), if_pos (by rfl)]
        simp only [column, unchanged]
        exact List.dropWhile_cons_of_pos (by simpa using newline)
      · rw [if_neg newline, if_neg newline]
        rfl

end Layouts

theorem Respaced.skip {source edited : List Char} {first second : List Lexeme}
    (alike : Respaced source edited first second) :
    Respaced source edited (first.dropWhile (·.kind = .newline))
      (second.dropWhile (·.kind = .newline)) := by
  induction alike with
  | nil => exact .nil
  | cons head other first second twin later induction =>
      by_cases newline : head.kind = .newline
      · rw [List.dropWhile_cons_of_pos (by simpa using newline),
          List.dropWhile_cons_of_pos (by simpa [twin.kind] using newline)]
        exact induction
      · rw [List.dropWhile_cons_of_neg (by simpa using newline),
          List.dropWhile_cons_of_neg (by simpa [twin.kind] using newline)]
        exact .cons head other first second twin later
  | newline extra first second isNewline closing later induction =>
      rw [List.dropWhile_cons_of_pos (by simpa using isNewline)]
      exact induction

/-- The column of the first token of a source but for newlines and comments, and zero if there is
none. -/
def firstColumn (source : List Char) : Nat :=
  Layout.nextColumn source ((rawTokens source).filter (·.kind ≠ .comment))

def StartsAtMargin (source : List Char) : Prop :=
  firstColumn source = 0

def firstLexemes (source : List Char) : List Lexeme :=
  ((layoutTokens source).map (·.lexeme source)).dropWhile (·.kind = .newline)

section Insertions

variable (source edited : List Char)

theorem shown_tokens_sound :
    ∀ token ∈ (rawTokens source).filter (·.kind ≠ .comment), (token.lexeme source).Sound source :=
  fun token member => raw_tokens_sound source token (List.mem_of_mem_filter member)

theorem layout_of_padded (padded : Padded false (sights source) (sights edited)) :
    Respaced source edited (firstLexemes source) (firstLexemes edited) :=
  (layout_alike source edited false _ _ padded .start _ _ rfl rfl nofun nofun
    (shown_tokens_sound source) (shown_tokens_sound edited)).skip

/-- A newline in front of a source is followed by the indentation of its first line. -/
theorem layout_after_newline (extra : Sight) (isNewline : extra.kind = .newline)
    (whole : sights edited = extra :: sights source) :
    ∃ newline rest, newline.kind = .newline ∧ rest.map (·.sight edited) = sights source ∧
      (∀ token ∈ rest, (token.lexeme edited).Sound edited) ∧
      layoutTokens edited = newline ::
        (Layout.shift [] (firstColumn source)).2.map (Token.mk · newline.span) ++
        Layout.tokensFrom edited ⟨(Layout.shift [] (firstColumn source)).1, 0, true⟩ rest := by
  obtain ⟨newline, rest, parts, rfl, later⟩ := List.map_eq_cons_iff.mp whole
  have isNewline : newline.kind = .newline := isNewline
  have column : Layout.nextColumn edited rest = firstColumn source := by
    rw [firstColumn, next_column_of_sights, next_column_of_sights, later]
    rfl
  refine ⟨newline, rest, isNewline, later, fun token member => ?_, ?_⟩
  · exact shown_tokens_sound edited token (by rw [parts]; exact List.mem_cons_of_mem _ member)
  · rw [layoutTokens, parts, Layout.tokensFrom, if_pos isNewline, if_neg (by decide), column]
    rfl

theorem first_lexemes_eq : firstLexemes source =
    ((layoutTokens source).dropWhile (·.kind = .newline)).map (·.lexeme source) :=
  List.dropWhile_map

theorem layout_of_first_line (extra : Sight) (isNewline : extra.kind = .newline)
    (whole : sights edited = extra :: sights source) (margin : StartsAtMargin source) :
    Respaced source edited (firstLexemes source) (firstLexemes edited) := by
  obtain ⟨newline, rest, isNewline, later, sound, layout⟩ :=
    layout_after_newline source edited extra isNewline whole
  have alike := layout_alike source edited true _ _ (Padded.refl true (sights source))
    ⟨[], 0, true⟩ _ rest rfl later (fun _ => Or.inr rfl) nofun (shown_tokens_sound source) sound
  have dropped : ∀ (text : List Char) (tokens : List Token),
      (tokens.map (·.lexeme text)).dropWhile (·.kind = .newline) =
        (tokens.dropWhile (·.kind = .newline)).map (·.lexeme text) :=
    fun text tokens => List.dropWhile_map
  have unchanged : Layout.shift [] 0 = ([], []) := rfl
  have skipped := alike.skip
  rw [dropped, dropped, ← layout_from_margin source _ margin] at skipped
  rw [StartsAtMargin] at margin
  rw [first_lexemes_eq, first_lexemes_eq, layout, margin, unchanged, List.map_nil,
    List.singleton_append, List.dropWhile_cons_of_pos (by exact decide_eq_true isNewline)]
  exact skipped

theorem indent_of_first_line (extra : Sight) (isNewline : extra.kind = .newline)
    (whole : sights edited = extra :: sights source) (indented : ¬StartsAtMargin source) :
    ∃ indent rest, indent.kind = .indent ∧ firstLexemes edited = indent :: rest := by
  obtain ⟨newline, rest, isNewline, later, sound, layout⟩ :=
    layout_after_newline source edited extra isNewline whole
  have deeper : Layout.shift [] (firstColumn source) = ([firstColumn source], [.indent]) :=
    if_pos (Nat.pos_of_ne_zero indented)
  rw [first_lexemes_eq, layout, deeper, List.cons_append,
    List.dropWhile_cons_of_pos (by exact decide_eq_true isNewline)]
  exact ⟨_, _, rfl, rfl⟩

end Insertions

/-- A blank line at the start of a line changes no lexeme but for its place, unless it moves an
indented first line away from the start. -/
theorem blank_line_leaves_lexemes (before line after : List Char) (starts : LineStart before)
    (blank : IsBlankLine line) (margin : before = [] → StartsAtMargin after) :
    Respaced (before ++ after) (before ++ (line ++ ['\n']) ++ after)
      (firstLexemes (before ++ after)) (firstLexemes (before ++ (line ++ ['\n']) ++ after)) := by
  obtain ⟨extra, single, isNewline⟩ := sights_of_blank_line line blank
  have whole : sights (before ++ (line ++ ['\n']) ++ after) =
      sights before ++ extra :: sights after := by
    rw [List.append_assoc, sights_append _ _ starts, sights_append _ _ (Or.inr ⟨line, rfl⟩), single,
      List.singleton_append]
  by_cases filled : before = []
  · subst filled
    have nothing : sights [] = [] := by
      rw [sights, rawTokens, Lexer.tokensFrom]
      rfl
    rw [nothing] at whole
    exact layout_of_first_line _ _ extra isNewline whole (margin rfl)
  · obtain ⟨others, last, lines, ends⟩ := sights_of_lines before starts filled
    apply layout_of_padded
    rw [whole, sights_append _ _ starts, lines]
    exact Padded.after_newline others _ last extra ends isNewline false

theorem line_end_leaves_lexemes (source : List Char)
    (sound : ∀ token ∈ rawTokens source, token.kind ≠ .error) :
    Respaced source (source ++ ['\n']) (firstLexemes source) (firstLexemes (source ++ ['\n'])) := by
  obtain ⟨extra, whole, isNewline⟩ := sights_with_line_end source sound
  apply layout_of_padded
  rw [whole]
  exact Padded.at_end false (sights source) extra isNewline

end ScriptWasm
