import ScriptWasm.Proofs.Token.Rows

/-!
The layout of texts that consist of indented lines. The open blocks are those of the depth of the
current line, so between two lines there is an indent, or one dedent for each level that ends.
-/

namespace ScriptWasm

set_option autoImplicit false

def blocksAt : Nat → List Nat
  | 0 => []
  | depth + 1 => 4 * (depth + 1) :: blocksAt depth

/-- The tokens between a line at one depth and a line at another. -/
def changes (depth next : Nat) : List TokenKind :=
  if depth < next then [.indent] else List.replicate (depth - next) .dedent

theorem changes_same (depth : Nat) : changes depth depth = [] := by
  rw [changes, if_neg (Nat.lt_irrefl depth), Nat.sub_self, List.replicate_zero]

theorem changes_deeper (depth : Nat) : changes depth (depth + 1) = [.indent] := by
  rw [changes, if_pos (Nat.lt_succ_self depth)]

theorem changes_back (depth next : Nat) (back : next ≤ depth) :
    changes (depth + 1) next = .dedent :: changes depth next := by
  rw [changes, changes, if_neg (by omega), if_neg (by omega), Nat.succ_sub back,
    List.replicate_succ]

theorem innermost_blocks_at (depth : Nat) : Layout.innermost (blocksAt depth) = 4 * depth := by
  cases depth with
  | zero => rfl
  | succ depth => rfl

theorem blocks_at_split (depth next : Nat) (back : next ≤ depth) :
    ((blocksAt depth).takeWhile (4 * next < ·)).map (fun _ => TokenKind.dedent) =
        List.replicate (depth - next) .dedent ∧
      (blocksAt depth).dropWhile (4 * next < ·) = blocksAt next := by
  induction depth with
  | zero =>
      rw [Nat.le_zero.mp back]
      exact ⟨rfl, rfl⟩
  | succ depth induction =>
      by_cases here : next = depth + 1
      · rw [here, Nat.sub_self, blocksAt, List.takeWhile_cons_of_neg (by simp),
          List.dropWhile_cons_of_neg (by simp)]
        exact ⟨rfl, rfl⟩
      · have earlier : next ≤ depth := by omega
        have deeper : 4 * next < 4 * (depth + 1) := by omega
        rw [blocksAt, List.takeWhile_cons_of_pos (by simpa using deeper),
          List.dropWhile_cons_of_pos (by simpa using deeper), List.map_cons,
          (induction earlier).1, Nat.succ_sub earlier, List.replicate_succ]
        exact ⟨rfl, (induction earlier).2⟩

theorem shift_between_depths (depth next : Nat) (climbs : next ≤ depth + 1) :
    Layout.shift (blocksAt depth) (4 * next) = (blocksAt next, changes depth next) := by
  rw [Layout.shift, changes, innermost_blocks_at]
  by_cases deeper : depth < next
  · have same : next = depth + 1 := by omega
    rw [if_pos (by omega), if_pos deeper, same]
    rfl
  · obtain ⟨closed, left⟩ := blocks_at_split depth next (by omega)
    rw [if_neg (by omega), if_neg deeper]
    simp only
    rw [closed, left, innermost_blocks_at, if_pos rfl, List.append_nil]

def headDepth : List Row → Nat
  | [] => 0
  | row :: _ => row.depth

/-- No row is more than one level deeper than the row before it. -/
def Climbs : Nat → List Row → Prop
  | _, [] => True
  | depth, row :: rows => row.depth ≤ depth + 1 ∧ Climbs row.depth rows

theorem climbs_head (depth : Nat) (rows : List Row) (climbs : Climbs depth rows) :
    headDepth rows ≤ depth + 1 := by
  cases rows with
  | nil => exact Nat.zero_le _
  | cons row rows => exact climbs.1

theorem climbs_from (depth other : Nat) (rows : List Row) (climbs : Climbs depth rows)
    (reaches : headDepth rows ≤ other + 1) : Climbs other rows := by
  cases rows with
  | nil => trivial
  | cons row rows => exact ⟨reaches, climbs.2⟩

def added (kinds : List TokenKind) : List Shape :=
  kinds.map fun kind => (kind, "\n")

/-- The tokens of some rows after a line at a depth. -/
def layoutFrom (depth : Nat) : List Row → List Shape
  | [] => added (changes depth 0) ++ [(.endOfFile, "")]
  | row :: rows =>
      added (changes depth row.depth) ++ row.shapes ++ lineEnd :: layoutFrom row.depth rows

theorem layout_from_head (depth : Nat) (rows : List Row) :
    layoutFrom depth rows = added (changes depth (headDepth rows)) ++
      layoutFrom (headDepth rows) rows := by
  cases rows with
  | nil =>
      rw [layoutFrom, headDepth, layoutFrom, changes_same]
      rfl
  | cons row rows =>
      rw [layoutFrom, headDepth, layoutFrom, changes_same, List.append_assoc]
      rfl

/-- Within a line, the layout only counts the parentheses. -/
theorem layout_within_line (source : List Char) (blocks : List Nat) (parens : Nat) (ended : Bool)
    (inside rest : List Token) (content : ∀ token ∈ inside, token.kind ≠ .newline) :
    Layout.tokensFrom source ⟨blocks, parens, ended⟩ (inside ++ rest) =
      inside ++ Layout.tokensFrom source
        ⟨blocks, openAfter parens (inside.map fun token => (token.lexeme source).shape),
          inside.isEmpty && ended⟩ rest := by
  induction inside generalizing parens ended with
  | nil => rw [List.nil_append, List.nil_append, List.map_nil, openAfter]; rfl
  | cons first others induction =>
      have contentLater : ∀ token ∈ others, token.kind ≠ .newline :=
        fun token member => content token (by simp [member])
      rw [List.cons_append, Layout.tokensFrom, if_neg (content first (by simp))]
      simp only [induction _ _ contentLater]
      rw [List.cons_append, List.map_cons, openAfter, Bool.and_false]
      rfl

theorem next_column_of_lined (source : List Char) (rows : List Row) (tokens : List Token)
    (lined : Lined source rows tokens) (fit : ∀ row ∈ rows, row.Fits) :
    Layout.nextColumn source tokens = 4 * headDepth rows := by
  cases rows with
  | nil =>
      rw [lined]
      rfl
  | cons row rows =>
      obtain ⟨first, inside, ending, later, rfl, looks, _, column, _⟩ := lined
      have solid : first.kind ≠ .newline := by
        have member : (first.lexeme source).shape ∈ row.shapes := by
          rw [← looks]
          exact List.mem_cons_self
        exact ((fit row (by simp)).inside.content _ member).1
      rw [Layout.nextColumn, List.cons_append, List.dropWhile_cons_of_neg (by simpa using solid)]
      exact column

theorem layout_of_lined (source : List Char) (rows : List Row) (tokens : List Token) (ended : Bool)
    (lined : Lined source rows tokens) (fit : ∀ row ∈ rows, row.Fits)
    (climbs : Climbs (headDepth rows) rows) :
    (Layout.tokensFrom source ⟨blocksAt (headDepth rows), 0, ended⟩ tokens).map
        (fun token => (token.lexeme source).shape) =
      layoutFrom (headDepth rows) rows := by
  -- Each row ends with a newline, behind which the blocks change from its depth to that of the next
  -- row.
  induction rows generalizing tokens ended with
  | nil =>
      have text := text_in_middle source [] []
      rw [List.append_nil, List.append_nil] at text
      rw [lined, headDepth, blocksAt, Layout.tokensFrom, layoutFrom, changes_same]
      simp only [List.map_nil, List.nil_append, List.map_cons, Token.lexeme, text]
      rfl
  | cons row rows induction =>
      obtain ⟨first, inside, ending, later, rfl, looks, ends, _, linedLater⟩ := lined
      have fits := fit row (by simp)
      have content : ∀ token ∈ first :: inside, token.kind ≠ .newline := by
        intro token member
        have shape := fits.inside.content _ (looks ▸ List.mem_map_of_mem member)
        exact shape.1
      have newline : ending.kind = .newline := congrArg Prod.fst ends
      have text : ending.span.textIn source = "\n" := congrArg Prod.snd ends
      have column := next_column_of_lined source rows later linedLater
        fun other member => fit other (by simp [member])
      have reaches := climbs_head row.depth rows climbs.2
      have following := induction later true linedLater
        (fun other member => fit other (by simp [member]))
        (climbs_from row.depth (headDepth rows) rows climbs.2 (by omega))
      rw [headDepth, layout_within_line source _ 0 ended (first :: inside) _ content, looks,
        fits.inside.balanced, Layout.tokensFrom, if_pos newline, if_neg (by simp), column]
      simp only [shift_between_depths row.depth (headDepth rows) reaches]
      have kinds : (fun token : Token => (token.lexeme source).shape) ∘
          (fun kind => Token.mk kind ending.span) = fun kind => (kind, "\n") := by
        funext kind
        rw [Function.comp_apply, Token.lexeme, Lexeme.shape, text]
      rw [layoutFrom, changes_same, layout_from_head, ← following, List.map_append, looks,
        List.map_append, List.map_cons, ends, List.map_map, kinds]
      rfl

/-- The tokens of a text that consists of indented lines. -/
theorem layout_of_rows (rows : List Row) (fit : ∀ row ∈ rows, row.Fits) (climbs : Climbs 0 rows)
    (flat : headDepth rows = 0) :
    ((layoutTokens (textOf rows)).map (·.lexeme (textOf rows))).map Lexeme.shape =
      layoutFrom 0 rows := by
  have lined := lined_of_rows rows fit (textOf rows) [] rfl (Or.inl rfl)
  have layout := layout_of_lined (textOf rows) rows _ false lined fit (by rw [flat]; exact climbs)
  rw [flat] at layout
  rw [List.map_map]
  exact layout

/-- Rows at a depth, or deeper, that have some tokens, whatever rows at most as deep follow. -/
structure Lays (depth : Nat) (rows : List Row) (shapes : List Shape) : Prop where
  shallow : ∀ more, headDepth more ≤ depth → headDepth (rows ++ more) ≤ depth
  climbs : ∀ more, headDepth more ≤ depth → Climbs depth more → Climbs depth (rows ++ more)
  layout : ∀ more, headDepth more ≤ depth →
    layoutFrom depth (rows ++ more) = shapes ++ layoutFrom depth more

section Laying

variable (depth : Nat)

theorem lays_nil : Lays depth [] [] where
  shallow _ reaches := reaches
  climbs _ _ climbs := climbs
  layout _ _ := rfl

theorem lays_append (first second : List Row) (shapes others : List Shape)
    (laysFirst : Lays depth first shapes) (laysSecond : Lays depth second others) :
    Lays depth (first ++ second) (shapes ++ others) where
  shallow more reaches := by
    rw [List.append_assoc]
    exact laysFirst.shallow _ (laysSecond.shallow more reaches)
  climbs more reaches climbs := by
    rw [List.append_assoc]
    exact laysFirst.climbs _ (laysSecond.shallow more reaches)
      (laysSecond.climbs more reaches climbs)
  layout more reaches := by
    rw [List.append_assoc, laysFirst.layout _ (laysSecond.shallow more reaches),
      laysSecond.layout more reaches, List.append_assoc]

theorem lays_row (text : String) (shapes : List Shape) :
    Lays depth [⟨depth, text, shapes⟩] (shapes ++ [lineEnd]) where
  shallow _ _ := Nat.le_refl depth
  climbs _ _ climbs := ⟨Nat.le_succ depth, climbs⟩
  layout more _ := by
    rw [List.singleton_append, layoutFrom, changes_same, List.append_assoc, List.append_assoc]
    rfl

theorem lays_block (text : String) (header : List Shape) (inner : List Row) (inside : List Shape)
    (lays : Lays (depth + 1) inner inside) (deeper : headDepth inner = depth + 1) :
    Lays depth (⟨depth, text, header ++ [TokenKind.colon.shape]⟩ :: inner)
      (header ++ blockShapes inside) where
  shallow _ _ := Nat.le_refl depth
  climbs more reaches climbs := by
    refine ⟨Nat.le_succ depth, ?_⟩
    have inside := lays.climbs more (by omega) (climbs_from depth _ more climbs (by omega))
    apply climbs_from (depth + 1) depth _ inside
    cases inner with
    | nil => cases deeper
    | cons row rows => exact Nat.le_of_eq deeper
  layout more reaches := by
    have opened : layoutFrom depth (inner ++ more) =
        (.indent, "\n") :: layoutFrom (depth + 1) (inner ++ more) := by
      rw [layout_from_head depth, layout_from_head (depth + 1)]
      cases inner with
      | nil => cases deeper
      | cons row rows =>
          rw [List.cons_append, headDepth, show row.depth = depth + 1 from deeper, changes_deeper,
            changes_same]
          rfl
    have closed : layoutFrom (depth + 1) more = (.dedent, "\n") :: layoutFrom depth more := by
      rw [layout_from_head depth, layout_from_head (depth + 1), changes_back depth _ reaches]
      rfl
    rw [List.cons_append, layoutFrom, changes_same, opened, lays.layout more (by omega), closed,
      blockShapes]
    simp only [added, List.map_nil, List.nil_append, List.append_assoc, List.cons_append]

end Laying

end ScriptWasm
