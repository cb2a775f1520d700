import ScriptWasm.Proofs.Program.Retelling
import ScriptWasm.Proofs.Tree.Nodes

/-!
Definitions and statements that are told again. Two readings go through the parts of two nodes side
by side, and take parts that are told again by each other.
-/

namespace ScriptWasm

set_option autoImplicit false

namespace Reading

/-- Readings that go through the given parts to their end, the second where the first does. -/
def Retold {First Second : Type} (related : First → Second → Prop) (first : Reading First)
    (second : Reading Second) (parts copies : List Tree) : Prop :=
  ∀ walk other, walk.left = parts → other.left = copies → ∀ value after,
    first.run walk = .ok (value, after) → after.left = [] →
      ∃ answer stop, second.run other = .ok (answer, stop) ∧ stop.left = [] ∧ related value answer

section Steps

variable {source edited : List Char} {First Second Value Answer : Type}
variable {related : First → Second → Prop} {fits : Value → Answer → Prop}
variable {parts copies : List Tree} {part copy : Tree}

theorem parts_retold (tree other : Tree) (first : Reading First) (second : Reading Second)
    (retold : Retold related first second tree.children other.children) :
    Echoes related (Reading.parts source tree first) (Reading.parts edited other second) := by
  intro value read
  obtain ⟨walk, run, ended⟩ := (parts_succeeds_iff source tree first value).mp read
  obtain ⟨answer, stop, answered, ends, holds⟩ :=
    retold (.start tree) (.start other) rfl rfl value walk run ended
  exact ⟨answer, (parts_succeeds_iff edited other second answer).mpr ⟨stop, answered, ends⟩, holds⟩

theorem retold_pure (value : First) (answer : Second) (same : parts = [] → copies = [])
    (holds : related value answer) : Retold related (pure value) (pure answer) parts copies := by
  rintro walk other rfl rfl _ _ ⟨⟩ ended
  exact ⟨answer, other, rfl, same ended, holds⟩

theorem retold_lift (first : Value → Reading First) (second : Answer → Reading Second)
    (check : Except SyntaxError Value) (recheck : Except SyntaxError Answer)
    (heads : Echoes fits check recheck)
    (tails : ∀ value answer, fits value answer →
      Retold related (first value) (second answer) parts copies) :
    Retold related (liftM check >>= first) (liftM recheck >>= second) parts copies := by
  intro walk other left right result after run ended
  simp only [run_bind_succeeds_iff, run_lift_succeeds_iff] at run ⊢
  obtain ⟨value, _, ⟨checked, rfl⟩, run⟩ := run
  obtain ⟨answer, rechecked, holds⟩ := heads value checked
  obtain ⟨found, stop, answered, ends, good⟩ :=
    tails value answer holds walk other left right result after run ended
  exact ⟨found, stop, ⟨answer, other, ⟨rechecked, rfl⟩, answered⟩, ends, good⟩

theorem retold_next (first : Tree → Reading First) (second : Tree → Reading Second)
    (tails : Retold related (first part) (second copy) parts copies) :
    Retold related (next source >>= first) (next edited >>= second) (part :: parts)
      (copy :: copies) := by
  intro walk other left right result after run ended
  simp only [run_bind_succeeds_iff, next_succeeds_iff] at run ⊢
  obtain ⟨taken, _, ⟨split, rfl⟩, run⟩ := run
  rw [left] at split
  cases split
  have rest : other.past.left = copies := by rw [Walk.left_past, right, List.tail_cons]
  obtain ⟨found, stop, answered, ends, good⟩ :=
    tails walk.past other.past (by rw [Walk.left_past, left, List.tail_cons]) rest result after run
      ended
  exact ⟨found, stop, ⟨copy, other.past, ⟨by rw [right, rest], rfl⟩, answered⟩, ends, good⟩

theorem retold_next_none (first : Tree → Reading First) (second : Reading Second) :
    Retold related (next source >>= first) second [] copies := by
  intro walk other left right result after run ended
  simp only [run_bind_succeeds_iff, next_succeeds_iff] at run
  obtain ⟨taken, _, ⟨split, _⟩, _⟩ := run
  rw [left] at split
  cases split

theorem retold_next_of (kind : NodeKind) (first : Tree → Reading First)
    (second : Tree → Reading Second) (same : copy.kind = part.kind)
    (tails : part.kind = kind → Retold related (first part) (second copy) parts copies) :
    Retold related (nextOf source kind >>= first) (nextOf edited kind >>= second) (part :: parts)
      (copy :: copies) := by
  have expects : Echoes (fun _ _ => part.kind = kind) (part.expectKind source kind)
      (copy.expectKind edited kind) := by
    intro nothing expected
    exact ⟨(), expects_kind part copy same kind expected,
      (expect_kind_succeeds_iff source kind part ()).mp expected⟩
  simp only [nextOf, bind_assoc, pure_bind]
  exact retold_next _ _ (retold_lift _ _ _ _ expects fun _ _ isKind => tails isKind)

theorem retold_next_text (text : String) (first : Tree → Reading First)
    (second : Tree → Reading Second) (same : part.SameWord source edited copy)
    (tails : Retold related (first part) (second copy) parts copies) :
    Retold related (nextText source text >>= first) (nextText edited text >>= second)
      (part :: parts) (copy :: copies) := by
  have expects : Echoes (fun _ _ => True) (part.expectText source text)
      (copy.expectText edited text) :=
    fun _ expected => ⟨(), same.expects text expected, trivial⟩
  simp only [nextText, bind_assoc, pure_bind]
  exact retold_next _ _ (retold_lift _ _ _ _ expects fun _ _ _ => tails)

theorem retold_next_of_none (kind : NodeKind) (first : Tree → Reading First)
    (second : Reading Second) :
    Retold related (nextOf source kind >>= first) second [] copies := by
  intro walk other left right result after run ended
  simp only [run_bind_succeeds_iff, next_of_succeeds_iff] at run
  obtain ⟨taken, _, ⟨split, _⟩, _⟩ := run
  rw [left] at split
  cases split

theorem retold_failure (error : SyntaxError) (first : Value → Reading First)
    (second : Reading Second) :
    Retold related (liftM (Except.error error : Except SyntaxError Value) >>= first) second parts
      copies := by
  intro walk other left right result after run ended
  simp only [run_bind_succeeds_iff, run_lift_succeeds_iff] at run
  obtain ⟨_, _, ⟨impossible, _⟩, _⟩ := run
  cases impossible

theorem retold_get (first : Walk → Reading First) (second : Walk → Reading Second)
    (tails : ∀ walk other, walk.left = parts → other.left = copies →
      Retold related (first walk) (second other) parts copies) :
    Retold related (get >>= first) (get >>= second) parts copies :=
  fun walk other left right result after run ended =>
    tails walk other left right walk other left right result after run ended

end Steps

end Reading

section Readings

variable {source edited : List Char}

/-- Parts that are told again one by one. -/
def RetoldParts (source edited : List Char) (parts copies : List Tree) : Prop :=
  List.Forall₂ (Tree.Retells source edited) parts copies

theorem type_retells (mark name copied copy : Tree) (same : name.SameWord source edited copy) :
    (Tree.branch .typeDef [mark, name]).Retells source edited
      (.branch .typeDef [copied, copy]) where
  kind := rfl
  expr := by
    intro expr built
    cases built
  ty := by
    intro _ value built
    obtain ⟨_, _, parts, named, known, _⟩ :=
      (Ty.of_tree_succeeds_iff source _ value.1 value.2).mp built
    cases parts
    refine ⟨(value.1, copy.span), (Ty.of_tree_succeeds_iff edited _ value.1 copy.span).mpr
      ⟨copied, copy, rfl, ?_, ?_, rfl⟩, rfl⟩
    · rw [same.kind]
      exact named
    · rw [same.text]
      exact known

theorem assign_retold (tree copy : Tree)
    (parts : RetoldParts source edited tree.children copy.children) :
    Echoes (SameBy (Stmt.mapNotes Note.withoutSpan)) (Stmt.assignOfTree source tree)
      (Stmt.assignOfTree edited copy) := by
  unfold Stmt.assignOfTree
  apply Reading.parts_retold
  generalize tree.children = list at parts ⊢
  generalize copy.children = others at parts ⊢
  cases parts with
  | nil => exact Reading.retold_next_of_none _ _ _
  | cons target rest =>
      refine Reading.retold_next_of _ _ _ target.kind fun named => ?_
      cases rest with
      | nil => exact Reading.retold_next_of_none _ _ _
      | cons sign rest =>
          refine Reading.retold_next_of _ _ _ sign.kind fun _ => ?_
          cases rest with
          | nil => exact Reading.retold_next_none _ _
          | cons value rest =>
              refine Reading.retold_next _ _ ?_
              refine Reading.retold_lift _ _ _ _ value.expr fun expr found same => ?_
              refine Reading.retold_pure _ _ (by rintro rfl; cases rest; rfl) ?_
              simp only [SameBy, Stmt.mapNotes] at same ⊢
              rw [same, target.name named]

theorem expr_retold (tree copy : Tree)
    (parts : RetoldParts source edited tree.children copy.children) :
    Echoes (SameBy (Stmt.mapNotes Note.withoutSpan)) (Stmt.exprOfTree source tree)
      (Stmt.exprOfTree edited copy) := by
  unfold Stmt.exprOfTree
  apply Reading.parts_retold
  generalize tree.children = list at parts ⊢
  generalize copy.children = others at parts ⊢
  cases parts with
  | nil => exact Reading.retold_next_none _ _
  | cons value rest =>
      refine Reading.retold_next _ _ ?_
      refine Reading.retold_lift _ _ _ _ value.expr fun expr found same => ?_
      refine Reading.retold_pure _ _ (by rintro rfl; cases rest; rfl) ?_
      simp only [SameBy, Stmt.mapNotes] at same ⊢
      rw [same]

theorem return_retold (tree copy : Tree)
    (parts : RetoldParts source edited tree.children copy.children) :
    Echoes (SameBy (Stmt.mapNotes Note.withoutSpan)) (Stmt.returnOfTree source tree)
      (Stmt.returnOfTree edited copy) := by
  unfold Stmt.returnOfTree
  apply Reading.parts_retold
  generalize tree.children = list at parts ⊢
  generalize copy.children = others at parts ⊢
  cases parts with
  | nil => exact Reading.retold_next_none _ _
  | cons keyword rest =>
      refine Reading.retold_next _ _ ?_
      refine Reading.retold_get _ _ fun walk other left right => ?_
      rw [Walk.peek_eq_head, Walk.peek_eq_head, left, right]
      cases rest with
      | nil => exact Reading.retold_pure _ _ (fun _ => rfl) rfl
      | cons value rest =>
          refine Reading.retold_next _ _ ?_
          refine Reading.retold_lift _ _ _ _ value.expr fun expr found same => ?_
          refine Reading.retold_pure _ _ (by rintro rfl; cases rest; rfl) ?_
          simp only [SameBy, Stmt.mapNotes] at same ⊢
          rw [same]

theorem variable_retold (tree copy : Tree)
    (parts : RetoldParts source edited tree.children copy.children) :
    Echoes (SameBy VarDef.withoutSpans) (VarDef.ofTree source tree)
      (VarDef.ofTree edited copy) := by
  unfold VarDef.ofTree
  refine echoes_bind _ _ (?_ : Echoes (fun value answer =>
    answer.1.text edited = value.1.text source ∧ answer.2.1.1 = value.2.1.1 ∧
      SameBy (Expr.mapNotes Note.withoutSpan) value.2.2.2 answer.2.2.2) _ _) ?_
  · apply Reading.parts_retold
    generalize tree.children = list at parts ⊢
    generalize copy.children = others at parts ⊢
    cases parts with
    | nil => exact Reading.retold_next_of_none _ _ _
    | cons name rest =>
        refine Reading.retold_next_of _ _ _ name.kind fun named => ?_
        cases rest with
        | nil => exact Reading.retold_next_none _ _
        | cons declared rest =>
            refine Reading.retold_next _ _ ?_
            rw [declared.kind]
            split
            · exact Reading.retold_failure _ _ _
            · rename_i isType
              have types := declared.ty (not_not.mp isType)
              refine Reading.retold_lift _ _ _ _ types fun found again same => ?_
              cases rest with
              | nil => exact Reading.retold_next_of_none _ _ _
              | cons sign rest =>
                  refine Reading.retold_next_of _ _ _ sign.kind fun _ => ?_
                  cases rest with
                  | nil => exact Reading.retold_next_none _ _
                  | cons value rest =>
                      refine Reading.retold_next _ _ ?_
                      refine Reading.retold_lift _ _ _ _ value.expr fun expr other retold => ?_
                      exact Reading.retold_pure _ _ (by rintro rfl; cases rest; rfl)
                        ⟨name.name named, same, retold⟩
  · rintro ⟨name, ⟨ty, span⟩, value, init⟩ ⟨copied, ⟨other, place⟩, again, found⟩
      ⟨text, same, retold⟩
    have literal : found.literal? = init.literal? := by
      rw [← Expr.literal_map_notes Note.withoutSpan, retold, Expr.literal_map_notes]
    simp only [literal]
    cases init.literal? with
    | none => exact echoes_failure _
    | some literal =>
        refine echoes_pure _ _ ?_
        simp only [SameBy, VarDef.withoutSpans] at same text ⊢
        rw [same, text]

def RetoldParam (source edited : List Char) (item copy : List Tree) : Prop :=
  ∃ name named types others, item = name :: types ∧ copy = named :: others ∧
    name.SameWord source edited named ∧ types.length ≤ 1 ∧ RetoldParts source edited types others

/-- A parameter needs a type, and a mark is none. -/
theorem param_without_type (before name mark : Tree) (rest : List Tree) (alone : mark.children = [])
    (params : List Param) : Param.allOfParts source before (name :: mark :: rest) ≠ .ok params := by
  intro read
  rw [Param.allOfParts] at read
  split at read
  · cases read
  · simp only [bind_succeeds_iff, Prod.exists] at read
    obtain ⟨_, _, _, _, ty, span, built, _⟩ := read
    obtain ⟨_, _, parts, _⟩ := (Ty.of_tree_succeeds_iff source mark ty span).mp built
    rw [alone] at parts
    cases parts

theorem param_retold (name named declared type separator mark : Tree) (rest others : List Tree)
    (same : name.SameWord source edited named) (types : declared.Retells source edited type)
    (separates : separator.SameWord source edited mark) (ended : rest = [] → others = [])
    (later : Echoes (SameBy (List.map Param.withoutSpan)) (Param.allOfParts source separator rest)
      (Param.allOfParts edited mark others)) (before start : Tree) :
    Echoes (SameBy (List.map Param.withoutSpan))
      (Param.allOfParts source before (name :: declared :: separator :: rest))
      (Param.allOfParts edited start (named :: type :: mark :: others)) := by
  rw [Param.allOfParts, Param.allOfParts, same.text]
  split
  · intro params read
    cases read
  · refine echoes_checked _ _ _ _ (expects_kind name named same.kind _) fun _ => ?_
    refine echoes_checked _ _ _ _ (expects_kind declared type types.kind _) fun isType => ?_
    rw [expect_kind_succeeds_iff] at isType
    refine echoes_bind _ _ (types.ty isType) ?_
    rintro ⟨ty, span⟩ ⟨other, place⟩ (sameTy : other = ty)
    subst sameTy
    simp only [separates.text]
    split
    · refine echoes_bind _ _ later fun tail again sameTail => echoes_pure _ _ ?_
      simp only [SameBy, List.map_cons, Param.withoutSpan] at sameTail ⊢
      rw [sameTail]
    · split
      · exact echoes_checked _ _ _ _ (expects_end rest others ended) fun _ => echoes_pure _ _ rfl
      · exact echoes_failure _

theorem item_retold (item copy rest others : List Tree) (separator mark : Tree)
    (param : RetoldParam source edited item copy)
    (separates : separator.SameWord source edited mark)
    (ended : rest = [] → others = [])
    (later : Echoes (SameBy (List.map Param.withoutSpan)) (Param.allOfParts source separator rest)
      (Param.allOfParts edited mark others)) (before start : Tree) :
    Echoes (SameBy (List.map Param.withoutSpan))
      (Param.allOfParts source before (item ++ separator :: rest))
      (Param.allOfParts edited start (copy ++ mark :: others)) := by
  obtain ⟨name, named, types, copies, rfl, rfl, same, few, retold⟩ := param
  cases retold with
  -- What comes after a name without a type is a comma or a parenthesis.
  | nil =>
      intro params read
      exact absurd read (param_without_type before name separator rest separates.alone params)
  | cons declared none =>
      cases none with
      | nil =>
          exact param_retold name named _ _ separator mark rest others same declared separates ended
            later before start
      | cons _ _ => simp at few

theorem params_retold (parts copies : List Tree) (closing closed : Tree)
    (closes : closing.SameWord source edited closed)
    (listed : RetoldList source edited (RetoldParam source edited) parts copies)
    (before start : Tree) :
    Echoes (SameBy (List.map Param.withoutSpan))
      (Param.allOfParts source before (parts ++ [closing]))
      (Param.allOfParts edited start (copies ++ [closed])) := by
  induction listed generalizing before start with
  | none =>
      rw [List.nil_append, List.nil_append, Param.allOfParts, Param.allOfParts, closes.text]
      split
      · exact echoes_pure [] [] rfl
      · intro params read
        obtain ⟨_, _, impossible⟩ := (bind_succeeds_iff _ _ _).mp read
        cases impossible
  | last parts copies same =>
      exact item_retold parts copies [] [] closing closed same closes (fun _ => rfl)
        (echoes_failure _) before start
  | more parts copies comma mark rest others same isComma _ induction =>
      rw [List.append_assoc, List.append_assoc]
      exact item_retold parts copies _ _ comma mark same isComma (by simp) (induction comma mark)
        before start

structure Tree.RetellsParameters (source edited : List Char) (tree copy : Tree) : Prop where
  kind : copy.kind = tree.kind
  params : Echoes (SameBy (List.map Param.withoutSpan)) (Param.allOfTree source tree)
    (Param.allOfTree edited copy)

theorem parameters_retell (opening closing opened closed : Tree) (parts copies : List Tree)
    (opens : opening.SameWord source edited opened)
    (closes : closing.SameWord source edited closed)
    (listed : RetoldList source edited (RetoldParam source edited) parts copies) :
    (Tree.branch .paramList (opening :: parts ++ [closing])).RetellsParameters source edited
      (.branch .paramList (opened :: copies ++ [closed])) where
  kind := rfl
  params := echoes_checked _ _ _ _ (opens.expects "(") fun _ =>
    params_retold parts copies closing closed closes listed opening opened

end Readings

end ScriptWasm
