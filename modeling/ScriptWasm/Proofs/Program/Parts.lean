import ScriptWasm.Program.OfTree.Statement
import ScriptWasm.Proofs.Typing.Typed

/-!
What the nodes of definitions and of statements without blocks consist of. A walk takes the parts
of its node from left to right, so what was read fixes the list of the parts.
-/

namespace ScriptWasm

set_option autoImplicit false

namespace Walk

def left (walk : Walk) : List Tree :=
  walk.parent.children.drop walk.taken

def past (walk : Walk) : Walk :=
  { walk with taken := walk.taken + 1 }

@[simp] theorem left_start (tree : Tree) : (start tree).left = tree.children :=
  rfl

theorem peek_eq_head (walk : Walk) : walk.peek? = walk.left.head? := by
  rw [left, List.head?_drop]
  rfl

theorem left_past (walk : Walk) : walk.past.left = walk.left.tail := by
  simp [left, past]

end Walk

namespace Reading

variable (source : List Char)

theorem next_succeeds_iff (walk after : Walk) (part : Tree) :
    (next source).run walk = .ok (part, after) ↔
      walk.left = part :: after.left ∧ after = walk.past := by
  unfold next
  simp only [StateT.run_bind, StateT.run_get, pure_bind, Walk.next, Walk.peek_eq_head]
  constructor
  · intro taken
    cases parts : walk.left with
    | nil =>
        rw [parts] at taken
        cases taken
    | cons first rest =>
        rw [parts] at taken
        cases taken
        rw [← Walk.past, Walk.left_past, parts]
        exact ⟨rfl, rfl⟩
  · rintro ⟨parts, rfl⟩
    rw [parts]
    rfl

theorem parts_succeeds_iff {Result : Type} (tree : Tree) (reading : Reading Result)
    (result : Result) :
    parts source tree reading = .ok result ↔
      ∃ walk, reading.run (.start tree) = .ok (result, walk) ∧ walk.left = [] := by
  unfold parts
  simp only [bind_succeeds_iff, Prod.exists, pure_succeeds_iff]
  constructor
  · rintro ⟨value, walk, taken, nothing, ended, rfl⟩
    refine ⟨walk, taken, ?_⟩
    rw [Walk.peek_eq_head] at ended
    cases remaining : walk.left with
    | nil => rfl
    | cons extra rest =>
        rw [remaining] at ended
        cases ended
  · rintro ⟨walk, taken, remaining⟩
    refine ⟨result, walk, taken, (), ?_, rfl⟩
    rw [Walk.peek_eq_head, remaining]
    rfl

end Reading

theorem expect_kind_succeeds_iff (source : List Char) (kind : NodeKind) (tree : Tree)
    (nothing : Unit) : tree.expectKind source kind = .ok nothing ↔ tree.kind = kind := by
  unfold Tree.expectKind
  by_cases same : tree.kind = kind
  · simp [same]
  · simp [same, Tree.reject]

theorem expect_text_succeeds_iff (source : List Char) (text : String) (tree : Tree)
    (nothing : Unit) :
    tree.expectText source text = .ok nothing ↔ tree.text source = text ∧ tree.children = [] := by
  unfold Tree.expectText
  by_cases same : tree.text source = text ∧ tree.children.isEmpty = true
  · rw [if_pos same, List.isEmpty_iff.mp same.2]
    simp [same.1]
  · rw [if_neg same]
    simp only [List.isEmpty_iff] at same
    simp [Tree.reject, same]

theorem expect_end_succeeds_iff (source : List Char) (trees : List Tree) (nothing : Unit) :
    Tree.expectEnd source trees = .ok nothing ↔ trees = [] := by
  cases trees with
  | nil => simp [Tree.expectEnd]
  | cons first rest => simp [Tree.expectEnd, Tree.reject]

namespace Reading

variable (source : List Char)

theorem next_of_succeeds_iff (kind : NodeKind) (walk after : Walk) (part : Tree) :
    (nextOf source kind).run walk = .ok (part, after) ↔
      walk.left = part :: after.left ∧ after = walk.past ∧ part.kind = kind := by
  unfold nextOf
  simp only [run_bind_succeeds_iff, next_succeeds_iff, run_lift_succeeds_iff,
    expect_kind_succeeds_iff, run_pure_succeeds_iff]
  constructor
  · rintro ⟨_, _, ⟨parts, moved⟩, _, _, ⟨same, rfl⟩, rfl, rfl⟩
    exact ⟨parts, moved, same⟩
  · rintro ⟨parts, moved, same⟩
    exact ⟨part, after, ⟨parts, moved⟩, (), after, ⟨same, rfl⟩, rfl, rfl⟩

theorem next_text_succeeds_iff (text : String) (walk after : Walk) (part : Tree) :
    (nextText source text).run walk = .ok (part, after) ↔
      walk.left = part :: after.left ∧ after = walk.past ∧ part.text source = text ∧
        part.children = [] := by
  unfold nextText
  simp only [run_bind_succeeds_iff, next_succeeds_iff, run_lift_succeeds_iff,
    expect_text_succeeds_iff, run_pure_succeeds_iff]
  constructor
  · rintro ⟨_, _, ⟨parts, moved⟩, _, _, ⟨same, rfl⟩, rfl, rfl⟩
    exact ⟨parts, moved, same⟩
  · rintro ⟨parts, moved, same⟩
    exact ⟨part, after, ⟨parts, moved⟩, (), after, ⟨same, rfl⟩, rfl, rfl⟩

end Reading

variable (source : List Char)

theorem Ty.of_tree_succeeds_iff (tree : Tree) (ty : Ty) (span : Span) :
    Ty.ofTree source tree = .ok (ty, span) ↔
      ∃ mark name, tree.children = [mark, name] ∧
        (name.kind = .variableName ∨ name.kind = .noneWord) ∧
        Ty.ofName? (name.text source) = some ty ∧ name.span = span := by
  unfold Ty.ofTree
  simp only [Reading.parts_succeeds_iff, run_bind_succeeds_iff, Reading.next_succeeds_iff]
  constructor
  · rintro ⟨walk, ⟨mark, first, ⟨parts, moved⟩, name, second, ⟨more, again⟩, found⟩, ended⟩
    rw [Walk.left_start] at parts
    split at found
    · rename_i declared known
      rw [run_pure_succeeds_iff] at found
      obtain ⟨same, rfl⟩ := found
      cases same
      split at known
      · rename_i named
        refine ⟨mark, name, by rw [parts, more, ended], ?_, known, rfl⟩
        simpa using named
      · cases known
    · cases found
  · rintro ⟨mark, name, parts, named, known, same⟩
    let after := (Walk.start tree).past
    have afterLeft : after.left = [name] := by rw [Walk.left_past, Walk.left_start, parts]; rfl
    have finalLeft : after.past.left = [] := by rw [Walk.left_past, afterLeft]; rfl
    refine ⟨after.past, ⟨mark, after, ⟨?_, rfl⟩, name, after.past, ⟨?_, rfl⟩, ?_⟩, finalLeft⟩
    · rw [Walk.left_start, parts, afterLeft]
    · rw [afterLeft, finalLeft]
    · simp [named, known, same]
      rfl

theorem of_name_plain (name : String) (ty : Ty) (named : Ty.ofName? name = some ty) :
    ty.Plain := by
  have member : ty ∈ [Ty.int, .bool, .none] := List.mem_of_find?_eq_some named
  intro className same
  rw [same] at member
  simp at member

theorem type_of_tree_plain (tree : Tree) (ty : Ty) (span : Span)
    (read : Ty.ofTree source tree = .ok (ty, span)) : ty.Plain := by
  rw [Ty.of_tree_succeeds_iff] at read
  obtain ⟨_, name, _, _, named, _⟩ := read
  exact of_name_plain (name.text source) ty named

theorem VarDef.of_tree_succeeds (tree : Tree) (var : VarDef)
    (built : VarDef.ofTree source tree = .ok var) :
    ∃ name declared sign value init, tree.children = [name, declared, sign, value] ∧
      name.kind = .variableName ∧ declared.kind = .typeDef ∧ var.name = name.text source ∧
      Ty.ofTree source declared = .ok (var.ty, var.tySpan) ∧
      Expr.ofTree source value = .ok init ∧ init.literal? = some var.init ∧
      var.initSpan = init.span ∧ var.span = tree.span := by
  unfold VarDef.ofTree at built
  simp only [bind_succeeds_iff, Reading.parts_succeeds_iff, run_bind_succeeds_iff,
    Reading.next_succeeds_iff, Reading.next_of_succeeds_iff, Prod.exists] at built
  obtain ⟨name, ty, tySpan, value, init, ⟨walk, ⟨first, walk1, ⟨one, _, named⟩, declared, walk2,
    ⟨two, _⟩, checked⟩, ended⟩, found⟩ := built
  rw [Walk.left_start] at one
  split at checked
  · simp only [run_bind_succeeds_iff, run_lift_succeeds_iff] at checked
    obtain ⟨_, _, ⟨impossible, _⟩, _⟩ := checked
    cases impossible
  · rename_i isType
    simp only [run_bind_succeeds_iff, run_lift_succeeds_iff, run_pure_succeeds_iff,
      Reading.next_succeeds_iff, Reading.next_of_succeeds_iff, Prod.exists] at checked
    obtain ⟨ty', tySpan', _, ⟨builtTy, rfl⟩, sign, walk3, ⟨three, _, _⟩, part, walk4,
      ⟨four, _⟩, expr, _, ⟨builtInit, rfl⟩, same, rfl⟩ := checked
    cases same
    split at found
    · rename_i literal isLiteral
      cases found
      refine ⟨name, declared, sign, value, init, ?_, named, by simpa using isType, rfl, builtTy,
        builtInit, isLiteral, rfl, rfl⟩
      rw [one, two, three, four, ended]
    · cases found

/-- Every parameter that was read has its name and its type from parts of the list. -/
theorem Param.of_parts_succeeds (before : Tree) (parts : List Tree) (params : List Param)
    (read : Param.allOfParts source before parts = .ok params) (param : Param)
    (member : param ∈ params) :
    ∃ name declared span, name ∈ parts ∧ declared ∈ parts ∧ name.kind = .variableName ∧
      param.name = name.text source ∧ Ty.ofTree source declared = .ok (param.ty, span) := by
  fun_induction Param.allOfParts source before parts generalizing params with
  | case1 before => cases read
  | case2 before item tail closing =>
      simp only [bind_succeeds_iff, pure_succeeds_iff] at read
      obtain ⟨_, _, rfl⟩ := read
      cases member
  | case3 before item tail open_ induction =>
      simp only [bind_succeeds_iff, expect_kind_succeeds_iff] at read
      obtain ⟨_, isName, read⟩ := read
      cases tail with
      | nil => cases read
      | cons declared tail =>
          simp only [bind_succeeds_iff, expect_kind_succeeds_iff, Prod.exists] at read
          obtain ⟨_, _, ty, span, readTy, read⟩ := read
          cases tail with
          | nil => cases read
          | cons separator rest =>
              simp only at read induction
              split at read
              · simp only [bind_succeeds_iff, pure_succeeds_iff] at read
                obtain ⟨others, readOthers, rfl⟩ := read
                rcases List.mem_cons.mp member with rfl | member
                · exact ⟨item, declared, span, by simp, by simp, isName, rfl, readTy⟩
                · obtain ⟨name, declaredThere, spanThere, memberName, memberTy, facts⟩ :=
                    induction others readOthers member
                  exact ⟨name, declaredThere, spanThere, by simp [memberName],
                    by simp [memberTy], facts⟩
              · split at read
                · simp only [bind_succeeds_iff, pure_succeeds_iff] at read
                  obtain ⟨_, _, rfl⟩ := read
                  rcases List.mem_cons.mp member with rfl | impossible
                  · exact ⟨item, declared, span, by simp, by simp, isName, rfl, readTy⟩
                  · cases impossible
                · cases read

theorem Param.of_tree_succeeds (tree : Tree) (params : List Param)
    (read : Param.allOfTree source tree = .ok params) (param : Param) (member : param ∈ params) :
    ∃ name declared span, name ∈ tree.children ∧ declared ∈ tree.children ∧
      name.kind = .variableName ∧ param.name = name.text source ∧
      Ty.ofTree source declared = .ok (param.ty, span) := by
  unfold Param.allOfTree at read
  split at read
  · cases read
  · rename_i opening parts children
    simp only [bind_succeeds_iff] at read
    obtain ⟨_, _, readParts⟩ := read
    obtain ⟨name, declared, span, memberName, memberTy, facts⟩ :=
      Param.of_parts_succeeds source opening parts params readParts param member
    rw [children]
    exact ⟨name, declared, span, by simp [memberName], by simp [memberTy], facts⟩

theorem FuncDef.of_tree_succeeds (tree : Tree) (func : FuncDef)
    (read : FuncDef.ofTree source tree = .ok func) :
    ∃ keyword name params result body,
      tree.children = keyword :: name :: params :: (result ++ [body]) ∧
      name.kind = .variableName ∧ params.kind = .paramList ∧ body.kind = .body ∧
      func.name = name.text source ∧ func.span = tree.span ∧
      Param.allOfTree source params = .ok func.params ∧
      FuncDef.bodyOfTree source body = .ok (func.locals, func.body) ∧
      (result = [] ∧ func.result = .none ∨
        ∃ declared span, result = [declared] ∧ declared.kind = .typeDef ∧
          Ty.ofTree source declared = .ok (func.result, span)) := by
  unfold FuncDef.ofTree at read
  simp only [Reading.parts_succeeds_iff, run_bind_succeeds_iff, Reading.next_succeeds_iff,
    Reading.next_of_succeeds_iff, Reading.next_text_succeeds_iff, run_lift_succeeds_iff] at read
  obtain ⟨walk, ⟨keyword, walk1, ⟨first, _, _⟩, name, walk2, ⟨second, _, named⟩, params, walk3,
    ⟨third, _, listed⟩, list, _, ⟨readParams, rfl⟩, part, walk4, ⟨fourth, _⟩, rest⟩, ended⟩ := read
  rw [Walk.left_start] at first
  split at rest
  · rename_i isType
    simp only [run_bind_succeeds_iff, run_lift_succeeds_iff, Reading.next_succeeds_iff,
      expect_kind_succeeds_iff, run_pure_succeeds_iff, Prod.exists] at rest
    obtain ⟨ty, span, _, ⟨readTy, rfl⟩, body, walk5, ⟨fifth, _⟩, _, _, _, ⟨same, rfl⟩, rest⟩ := rest
    cases same
    obtain ⟨_, _, ⟨isBody, rfl⟩, vars, stmts, _, ⟨readBody, rfl⟩, same, rfl⟩ := rest
    cases same
    refine ⟨keyword, name, params, [part], body, ?_, named, listed, isBody, rfl, rfl, readParams,
      readBody, Or.inr ⟨part, span, rfl, isType, readTy⟩⟩
    rw [first, second, third, fourth, fifth, ended]
    rfl
  · simp only [run_bind_succeeds_iff, run_lift_succeeds_iff, expect_kind_succeeds_iff,
      run_pure_succeeds_iff, Prod.exists] at rest
    obtain ⟨_, _, _, ⟨same, rfl⟩, rest⟩ := rest
    cases same
    obtain ⟨_, _, ⟨isBody, rfl⟩, vars, stmts, _, ⟨readBody, rfl⟩, same, rfl⟩ := rest
    cases same
    refine ⟨keyword, name, params, [], part, ?_, named, listed, isBody, rfl, rfl, readParams,
      readBody, Or.inl ⟨rfl, rfl⟩⟩
    rw [first, second, third, fourth, ended]
    rfl

/-- The parts of a class that was read: a name and a body whose members are its fields. -/
theorem ClassDef.of_tree_succeeds (tree : Tree) (definition : ClassDef)
    (built : ClassDef.ofTree source tree = .ok definition) :
    ∃ keyword name bases body colon members,
      tree.children = keyword :: name :: (bases ++ [body]) ∧ name.kind = .variableName ∧
      (∀ list ∈ bases, list.kind = .argList) ∧ body.kind = .body ∧
      body.children = colon :: members ∧
      definition.name = name.text source ∧ definition.span = tree.span ∧
      ClassDef.fieldsOfParts source members = .ok definition.fields := by
  unfold ClassDef.ofTree at built
  simp only [bind_succeeds_iff, Reading.parts_succeeds_iff, run_bind_succeeds_iff,
    Reading.next_succeeds_iff, Reading.next_of_succeeds_iff, Prod.exists] at built
  obtain ⟨name, body, ⟨walk, ⟨keyword, walk1, ⟨one, _⟩, named, walk2, ⟨two, _, isName⟩, part, walk3,
    ⟨three, _⟩, rest⟩, ended⟩, members⟩ := built
  rw [Walk.left_start, two, three] at one
  have parts : name = named ∧ body.kind = .body ∧
      ∃ bases, tree.children = keyword :: named :: (bases ++ [body]) ∧
        ∀ list ∈ bases, list.kind = .argList := by
    split at rest
    · rename_i isList
      simp only [run_bind_succeeds_iff, Reading.next_succeeds_iff, run_lift_succeeds_iff,
        expect_kind_succeeds_iff, run_pure_succeeds_iff] at rest
      obtain ⟨chosen, walk4, ⟨four, _⟩, _, _, ⟨isBody, rfl⟩, same, rfl⟩ := rest
      cases same
      refine ⟨rfl, isBody, [part], ?_, by simpa using isList⟩
      rw [one, four, ended]
      rfl
    · simp only [run_bind_succeeds_iff, run_lift_succeeds_iff, expect_kind_succeeds_iff,
        run_pure_succeeds_iff] at rest
      obtain ⟨chosen, walk4, ⟨rfl, rfl⟩, _, _, ⟨isBody, rfl⟩, same, rfl⟩ := rest
      cases same
      refine ⟨rfl, isBody, [], ?_, List.forall_mem_nil _⟩
      rw [one, ended]
      rfl
  obtain ⟨rfl, isBody, bases, parts, areLists⟩ := parts
  split at members
  · cases members
  · rename_i colon found inside
    simp only [bind_succeeds_iff, pure_succeeds_iff] at members
    obtain ⟨fields, builtFields, rfl⟩ := members
    exact ⟨keyword, name, bases, body, colon, found, parts, isName, areLists, isBody,
      inside, rfl, rfl, builtFields⟩

namespace Stmt

theorem assign_of_tree_succeeds (tree : Tree) (stmt : Stmt)
    (built : assignOfTree source tree = .ok stmt) :
    ∃ target sign value expr, tree.children = [target, sign, value] ∧
      target.kind = .variableName ∧ sign.kind = .assignOp ∧ Expr.ofTree source value = .ok expr ∧
      stmt = .assign tree.span (target.text source) expr := by
  unfold assignOfTree at built
  simp only [Reading.parts_succeeds_iff, run_bind_succeeds_iff, Reading.next_succeeds_iff,
    Reading.next_of_succeeds_iff, run_lift_succeeds_iff, run_pure_succeeds_iff] at built
  obtain ⟨walk, ⟨target, walk1, ⟨one, _, named⟩, sign, walk2, ⟨two, _, assigns⟩, value, walk3,
    ⟨three, _⟩, expr, _, ⟨builtValue, rfl⟩, rfl, rfl⟩, ended⟩ := built
  rw [Walk.left_start, two, three, ended] at one
  exact ⟨target, sign, value, expr, one, named, assigns, builtValue, rfl⟩

theorem expr_of_tree_succeeds (tree : Tree) (stmt : Stmt)
    (built : exprOfTree source tree = .ok stmt) :
    ∃ value expr, tree.children = [value] ∧ Expr.ofTree source value = .ok expr ∧
      stmt = .expr tree.span expr := by
  unfold exprOfTree at built
  simp only [Reading.parts_succeeds_iff, run_bind_succeeds_iff, Reading.next_succeeds_iff,
    run_lift_succeeds_iff, run_pure_succeeds_iff] at built
  obtain ⟨walk, ⟨value, walk1, ⟨one, _⟩, expr, _, ⟨builtValue, rfl⟩, rfl, rfl⟩, ended⟩ := built
  rw [Walk.left_start, ended] at one
  exact ⟨value, expr, one, builtValue, rfl⟩

/-- A return consists of its keyword alone, or of the keyword and a value. -/
theorem return_of_tree_succeeds (tree : Tree) (stmt : Stmt)
    (built : returnOfTree source tree = .ok stmt) :
    ∃ keyword, (tree.children = [keyword] ∧
        stmt = .ret tree.span (.lit ⟨keyword.span, none⟩ .none)) ∨
      ∃ value expr, tree.children = [keyword, value] ∧ Expr.ofTree source value = .ok expr ∧
        stmt = .ret tree.span expr := by
  unfold returnOfTree at built
  simp only [Reading.parts_succeeds_iff, run_bind_succeeds_iff, Reading.next_succeeds_iff,
    StateT.run_get] at built
  obtain ⟨walk, ⟨keyword, walk1, ⟨one, _⟩, _, _, same, built⟩, ended⟩ := built
  cases same
  rw [Walk.left_start] at one
  refine ⟨keyword, ?_⟩
  split at built
  · rename_i none_
    rw [run_pure_succeeds_iff] at built
    obtain ⟨rfl, rfl⟩ := built
    rw [ended] at one
    exact Or.inl ⟨one, rfl⟩
  · simp only [run_bind_succeeds_iff, Reading.next_succeeds_iff, run_lift_succeeds_iff,
      run_pure_succeeds_iff] at built
    obtain ⟨value, walk2, ⟨two, _⟩, expr, _, ⟨builtValue, rfl⟩, rfl, rfl⟩ := built
    rw [two, ended] at one
    exact Or.inr ⟨value, expr, one, builtValue, rfl⟩

end Stmt

end ScriptWasm
