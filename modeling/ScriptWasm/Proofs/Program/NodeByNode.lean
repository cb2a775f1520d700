import ScriptWasm.Proofs.Program.Correspondence

/-!
Programs and trees, node by node. A walk over all nodes of a tree, in the order of writing, meets
the parts of its program one by one: every statement and definition is the next part, and only the
word of a further arm brings a condition that has no node of its own.
-/

namespace ScriptWasm

set_option autoImplicit false

namespace Stmt

mutual

/-- A statement and the statements in its blocks, in the order of writing. -/
def within : Stmt → List Stmt
  | cond span test body orelse =>
      cond span test body orelse :: (withinAll body ++ withinAll orelse)
  | loop span test body => loop span test body :: withinAll body
  | stmt => [stmt]

def withinAll : List Stmt → List Stmt
  | [] => []
  | first :: rest => first.within ++ withinAll rest

end

theorem within_all_eq (stmts : List Stmt) : withinAll stmts = stmts.flatMap within := by
  induction stmts with
  | nil => rfl
  | cons first rest induction => rw [withinAll, induction, List.flatMap_cons]

end Stmt

namespace Member

def within : Member → List Member
  | «class» definition => .class definition :: definition.fields.map .var
  | var definition => [.var definition]
  | func definition =>
      .func definition ::
        (definition.locals.map .var ++ (Stmt.withinAll definition.body).map .stmt)
  | stmt statement => statement.within.map .stmt

def span : Member → Span
  | «class» definition => definition.span
  | var definition => definition.span
  | func definition => definition.span
  | stmt statement => statement.span

end Member

namespace Tree

/-- A walk over nodes and parts of a program. A node tells the next part with its own span, or it is
no statement and no definition, or it says `pass` in a class. The word of a further arm brings the
condition that starts there. -/
inductive Accounts (source : List Char) (root : Tree) : List Tree → List Member → Prop where
  | done : Accounts source root [] []
  | other (node : Tree) (nodes : List Tree) (members : List Member)
      (isOther : node.kind ∉ NodeKind.members) (rest : Accounts source root nodes members) :
      Accounts source root (node :: nodes) members
  | told (node : Tree) (nodes : List Tree) (member : Member) (members : List Member)
      (isMember : node.kind ∈ NodeKind.members) (tells : node.Tells source member)
      (span : member.span = node.span) (rest : Accounts source root nodes members) :
      Accounts source root (node :: nodes) (member :: members)
  | arm (word : Tree) (nodes : List Tree) (stop : Nat) (test : Expr) (body orelse : List Stmt)
      (members : List Member) (isOther : word.kind ∉ NodeKind.members)
      (isElif : word.text source = "elif") (rest : Accounts source root nodes members) :
      Accounts source root (word :: nodes)
        (.stmt (.cond ⟨word.span.start, stop⟩ test body orelse) :: members)
  | pass (node : Tree) (nodes : List Tree) (members : List Member)
      (isPass : node.kind = .passStatement)
      (inClass : ∃ definition fields, definition ∈ root.nodes ∧
        definition.kind = .classDefinition ∧ definition.Heads fields ∧ node ∈ fields)
      (rest : Accounts source root nodes members) : Accounts source root (node :: nodes) members

/-- No declaration comes after a statement. -/
def DeclarationsFirst (nodes : List Tree) : Prop :=
  nodes.Pairwise fun earlier later => earlier.form = .statement → later.form = .statement

/-- Declarations stand in front of statements, and none is in a condition or in a loop. -/
structure KeepsOrder (tree : Tree) : Prop where
  topLevel : DeclarationsFirst tree.children
  functions : ∀ node ∈ tree.nodes, node.kind = .functionDefinition →
    ∀ block ∈ node.children, block.kind = .body → DeclarationsFirst block.children.tail
  branches : ∀ node ∈ tree.nodes, node.kind = .ifStatement ∨ node.kind = .whileStatement →
    ∀ inner ∈ node.nodes, inner.form = .statement

theorem nodes_of_append (first second : List Tree) :
    nodesOfAll (first ++ second) = nodesOfAll first ++ nodesOfAll second := by
  induction first with
  | nil => rw [List.nil_append, nodesOfAll, List.nil_append]
  | cons tree rest induction =>
      rw [List.cons_append, nodesOfAll, nodesOfAll, induction, List.append_assoc]

end Tree

namespace Tree.Accounts

variable {source : List Char} {root : Tree}

theorem append {nodes others : List Tree} {members more : List Member}
    (first : Accounts source root nodes members) (second : Accounts source root others more) :
    Accounts source root (nodes ++ others) (members ++ more) := by
  induction first with
  | done => exact second
  | other node nodes members isOther _ induction => exact .other _ _ _ isOther induction
  | told node nodes member members isMember tells span _ induction =>
      exact .told _ _ _ _ isMember tells span induction
  | arm word nodes stop test body orelse members isOther isElif _ induction =>
      exact .arm _ _ _ _ _ _ _ isOther isElif induction
  | pass node nodes members isPass inClass _ induction => exact .pass _ _ _ isPass inClass induction

theorem others (nodes : List Tree) (areOther : ∀ node ∈ nodes, node.kind ∉ NodeKind.members) :
    Accounts source root nodes [] := by
  induction nodes with
  | nil => exact .done
  | cons first rest induction =>
      exact .other _ _ _ (areOther first (by simp))
        (induction fun node member => areOther node (by simp [member]))

theorem bare {tree : Tree} (bare : tree.Bare) : Accounts source root tree.nodes [] :=
  others tree.nodes fun node member => (bare node member).1

theorem all_bare {parts : List Tree} (bare : ∀ part ∈ parts, part.Bare) :
    Accounts source root (nodesOfAll parts) [] := by
  refine others _ fun node member => ?_
  obtain ⟨part, there, inside⟩ := (mem_nodes_of_all_iff parts node).mp member
  exact (bare part there node inside).1

theorem all {Part : Type} (pairs : List (Tree × Part)) (parts : Part → List Member)
    (each : ∀ pair ∈ pairs, Accounts source root pair.1.nodes (parts pair.2)) :
    Accounts source root (nodesOfAll (pairs.map Prod.fst))
      ((pairs.map Prod.snd).flatMap parts) := by
  induction pairs with
  | nil =>
      rw [List.map_nil, nodesOfAll]
      exact .done
  | cons first rest induction =>
      rw [List.map_cons, nodesOfAll, List.map_cons, List.flatMap_cons]
      have later := induction fun pair member => each pair (by simp [member])
      exact (each first (by simp)).append later

theorem block {block : Tree} {nodes : List Tree} {members : List Member} (lists : block.Lists nodes)
    (below : Accounts source root (nodesOfAll nodes) members) :
    Accounts source root block.nodes members := by
  obtain ⟨span, colon, rfl, mark⟩ := lists.isBlock
  rw [Tree.nodes, nodesOfAll]
  exact .other _ _ _ (show NodeKind.body ∉ NodeKind.members by decide) ((bare mark).append below)

theorem heads {tree : Tree} {nodes : List Tree} {members : List Member} (heads : tree.Heads nodes)
    (below : Accounts source root (nodesOfAll nodes) members) :
    Accounts source root (nodesOfAll tree.children) members := by
  obtain ⟨header, last, parts, bareHeader, lists⟩ := heads.parts
  rw [parts, nodes_of_append, nodesOfAll, nodesOfAll, List.append_nil]
  exact (all_bare bareHeader).append (block lists below)

theorem member {tree : Tree} {first : Member} {members : List Member}
    (isMember : tree.kind ∈ NodeKind.members) (tells : tree.Tells source first)
    (span : first.span = tree.span)
    (below : Accounts source root (nodesOfAll tree.children) members) :
    Accounts source root tree.nodes (first :: members) := by
  rcases tree with ⟨kind, span', parts⟩
  rw [Tree.nodes]
  exact .told _ _ _ _ isMember tells span below

theorem word {word : Tree} (bare : word.Bare) (isElif : word.text source = "elif") (stop : Nat)
    (test : Expr) (body orelse : List Stmt) :
    Accounts source root word.nodes [.stmt (.cond ⟨word.span.start, stop⟩ test body orelse)] := by
  have isOther := (bare word word.mem_nodes_self).1
  have below : ∀ part ∈ word.children, part.Bare := by
    rcases word with ⟨kind, span, parts⟩
    intro part member node inside
    exact bare node ((mem_nodes_iff kind span parts node).mpr (.inr ⟨part, member, inside⟩))
  rcases word with ⟨kind, span, parts⟩
  rw [Tree.nodes]
  exact .arm _ _ stop test body orelse _ isOther isElif (all_bare below)

theorem known {nodes : List Tree} {members : List Member}
    (accounts : Accounts source root nodes members) (node : Tree) (there : node ∈ nodes)
    (isMember : node.kind ∈ NodeKind.members) (noPass : node.kind ≠ .passStatement) :
    ∃ member ∈ members, node.Tells source member := by
  induction accounts with
  | done => cases there
  | other first nodes members isOther _ induction =>
      rcases List.mem_cons.mp there with rfl | later
      · exact absurd isMember isOther
      · exact induction later
  | told first nodes member members _ tells _ _ induction =>
      rcases List.mem_cons.mp there with rfl | later
      · exact ⟨member, by simp, tells⟩
      · obtain ⟨other, among, tells⟩ := induction later
        exact ⟨other, by simp [among], tells⟩
  | arm word nodes stop test body orelse members isOther _ _ induction =>
      rcases List.mem_cons.mp there with rfl | later
      · exact absurd isMember isOther
      · obtain ⟨other, among, tells⟩ := induction later
        exact ⟨other, by simp [among], tells⟩
  | pass first nodes members isPass _ _ induction =>
      rcases List.mem_cons.mp there with rfl | later
      · exact absurd isPass noPass
      · exact induction later

end Tree.Accounts

theorem Arm.ladder_is_cond (stop : Nat) (orelse : List Stmt) (start : Nat) (arm : Arm)
    (others : List Arm) : ∃ behind,
      arm.ladder stop orelse start others = .cond ⟨start, stop⟩ arm.expr arm.body behind := by
  cases others with
  | nil => exact ⟨_, rfl⟩
  | cons next rest => exact ⟨_, rfl⟩

section Statements

variable {source : List Char} {root : Tree}

open ScriptWasm.Tree (Accounts nodesOfAll nodes_of_append)

theorem Tree.Becomes.span {tree : Tree} {stmt : Stmt} (becomes : tree.Becomes source stmt) :
    stmt.span = tree.span := by
  cases becomes with
  | cond span parts first others orelse =>
      obtain ⟨behind, same⟩ :=
        first.ladder_is_cond span.stop (orelse.map Prod.snd) span.start others
      rw [same]
      rfl
  | _ => rfl

/-- A statement tells itself, and then what its parts tell. -/
theorem statement_accounts (kind : NodeKind) (isMember : kind ∈ NodeKind.members) (span : Span)
    (parts : List Tree) (stmt : Stmt) (becomes : (Tree.node kind span parts).Becomes source stmt)
    (rest : List Stmt) (whole : stmt.within = stmt :: rest)
    (below : Accounts source root (nodesOfAll parts) (rest.map .stmt)) :
    Accounts source root (Tree.node kind span parts).nodes (stmt.within.map .stmt) := by
  rw [whole]
  exact .member isMember (.stmt _ stmt becomes) becomes.span below

theorem members_account (members : List (Tree × Stmt))
    (each : ∀ member ∈ members,
      Accounts source root member.1.nodes (member.2.within.map Member.stmt)) :
    Accounts source root (nodesOfAll (members.map Prod.fst))
      ((Stmt.withinAll (members.map Prod.snd)).map .stmt) := by
  rw [Stmt.within_all_eq, List.map_flatMap]
  exact .all members (fun stmt => stmt.within.map .stmt) each

theorem arm_accounts (arm : Arm) (fits : arm.Fits source)
    (each : ∀ member ∈ arm.members,
      Accounts source root member.1.nodes (member.2.within.map Member.stmt)) :
    Accounts source root (nodesOfAll [arm.test, arm.block])
      ((Stmt.withinAll arm.body).map .stmt) := by
  rw [nodesOfAll, nodesOfAll, nodesOfAll, List.append_nil]
  exact (Accounts.bare fits.test).append (.block fits.block (members_account arm.members each))

/-- Behind the word of an arm the conditions of the further arms follow with their words. -/
theorem arms_account (stop : Nat) (last : List Tree) (orelse : List Stmt)
    (otherwise : Accounts source root (nodesOfAll last) ((Stmt.withinAll orelse).map .stmt))
    (others : List Arm) (start : Nat) (first : Arm)
    (fits : ∀ arm ∈ first :: others, arm.Fits source)
    (elif : ∀ arm ∈ others, arm.word.text source = "elif")
    (each : ∀ arm ∈ first :: others, ∀ member ∈ arm.members,
      Accounts source root member.1.nodes (member.2.within.map Member.stmt)) :
    ∃ rest, (first.ladder stop orelse start others).within =
        first.ladder stop orelse start others :: rest ∧
      Accounts source root
        (nodesOfAll ([first.test, first.block] ++ others.flatMap Arm.parts ++ last))
        (rest.map .stmt) := by
  -- The induction is on the further arms, each of which is the last statement of the one before.
  have here := arm_accounts first (fits first (by simp)) (each first (by simp))
  induction others generalizing start first with
  | nil =>
      refine ⟨_, by rw [Arm.ladder, Stmt.within], ?_⟩
      rw [List.flatMap_nil, List.append_nil, nodes_of_append, List.map_append]
      exact here.append otherwise
  | cons next others induction =>
      obtain ⟨rest, whole, later⟩ := induction next.word.span.start next
        (fun arm member => fits arm (List.mem_cons_of_mem _ member))
        (fun arm member => elif arm (List.mem_cons_of_mem _ member))
        (fun arm member => each arm (List.mem_cons_of_mem _ member))
        (arm_accounts next (fits next (by simp)) (each next (by simp)))
      obtain ⟨behind, isCond⟩ := next.ladder_is_cond stop orelse next.word.span.start others
      refine ⟨_, by rw [Arm.ladder, Stmt.within, Stmt.withinAll, Stmt.withinAll], ?_⟩
      rw [List.append_nil, whole, isCond, List.map_append, List.append_assoc, nodes_of_append]
      refine here.append ?_
      have isElif := elif next (by simp)
      exact (Accounts.word (fits next (by simp)).word isElif stop next.expr next.body behind).append
        later

theorem becomes_accounts (tree : Tree) (stmt : Stmt) (becomes : tree.Becomes source stmt) :
    Accounts source root tree.nodes (stmt.within.map .stmt) := by
  induction becomes with
  | assign span target sign value expr named assigns reads bare =>
      exact statement_accounts .assignStatement (by decide) span _ _
        (.assign span target sign value expr named assigns reads bare) [] rfl
        (.all_bare bare)
  | expr span value expr reads bare =>
      exact statement_accounts .expressionStatement (by decide) span _ _
        (.expr span value expr reads bare) [] rfl (.all_bare (by simpa using bare))
  | pass span parts bare =>
      exact statement_accounts .passStatement (by decide) span _ _ (.pass span parts bare) []
        rfl (.all_bare bare)
  | done span word bare =>
      exact statement_accounts .returnStatement (by decide) span _ _ (.done span word bare) []
        rfl (.all_bare (by simpa using bare))
  | ret span word value expr reads bare =>
      exact statement_accounts .returnStatement (by decide) span _ _
        (.ret span word value expr reads bare) [] rfl
        (.all_bare (by simpa using bare))
  | loop span arm fits below induction =>
      refine statement_accounts .whileStatement (by decide) span _ _ (.loop span arm fits below) _
        (by rw [Stmt.within]) ?_
      exact (Accounts.bare fits.word).append (arm_accounts arm fits induction)
  | cond span parts first others orelse isIf branches below belowElse arms induction =>
      -- The arms after the first one are statements inside of the one before, and no node of their
      -- own stands for them.
      obtain ⟨last, same, otherwise⟩ := branches.parts
      have behind : Accounts source root (nodesOfAll last)
          ((Stmt.withinAll (orelse.map Prod.snd)).map .stmt) := by
        have members := members_account orelse induction
        cases otherwise with
        | nothing => exact members
        | block word block _ _ bare lists =>
            rw [nodesOfAll, nodesOfAll, nodesOfAll, List.append_nil]
            exact (Accounts.bare bare).append (.block lists members)
      obtain ⟨rest, whole, later⟩ := arms_account span.stop last (orelse.map Prod.snd) behind others
        span.start first branches.fits branches.elif arms
      refine statement_accounts .ifStatement (by decide) span parts _
        (.cond span parts first others orelse isIf branches below belowElse) rest whole ?_
      rw [same]
      exact (Accounts.bare (branches.fits first (by simp)).word).append later

end Statements

section Definitions

variable {source : List Char} {root : Tree}

open ScriptWasm.Tree (Accounts nodesOfAll nodes_of_append)

theorem declares_accounts {tree : Tree} {var : VarDef} (declares : tree.Declares source var) :
    Accounts source root tree.nodes [.var var] := by
  obtain ⟨_, _, _, _, _, _, _, _, _, _, _, _, _, span⟩ := declares.parts
  exact .member (by rw [declares.isAssign]; decide) (.var tree var declares) span
    (.all_bare declares.bare)

theorem defines_accounts {tree : Tree} {func : FuncDef} {locals : List (Tree × VarDef)}
    {stmts : List (Tree × Stmt)} (defines : tree.Defines source func locals stmts) :
    Accounts source root tree.nodes (Member.func func).within := by
  have vars : Accounts source root (nodesOfAll (locals.map Prod.fst)) (func.locals.map .var) := by
    rw [defines.locals.1, List.map_eq_flatMap (f := Member.var)]
    exact .all locals (fun var => [.var var]) fun var member =>
      declares_accounts (defines.locals.2 var member)
  have body : Accounts source root (nodesOfAll (stmts.map Prod.fst))
      ((Stmt.withinAll func.body).map .stmt) := by
    rw [defines.body.1]
    exact members_account stmts fun stmt member =>
      becomes_accounts stmt.1 stmt.2 (defines.body.2 stmt member)
  refine .member (by rw [defines.isFunction]; decide) (.func tree func locals stmts defines)
    defines.span (.heads defines.block ?_)
  rw [nodes_of_append]
  exact vars.append body

/-- Among the members of a class, those that say `pass` tell nothing. -/
theorem fields_account (definition : Tree) (members : List Tree) (isNode : definition ∈ root.nodes)
    (isClass : definition.kind = .classDefinition) (heads : definition.Heads members)
    (passes : ∀ member ∈ members, member.kind = .passStatement →
      ∀ part ∈ member.children, part.Bare)
    (nodes : List Tree) (among : ∀ node ∈ nodes, node ∈ members) (fields : List (Tree × VarDef))
    (kept : nodes.filter (·.kind ≠ .passStatement) = fields.map Prod.fst)
    (declare : ∀ field ∈ fields, field.1.Declares source field.2) :
    Accounts source root (nodesOfAll nodes) ((fields.map Prod.snd).map .var) := by
  induction nodes generalizing fields with
  | nil =>
      obtain rfl : fields = [] := List.map_eq_nil_iff.mp kept.symm
      exact .done
  | cons first rest induction =>
      have later := induction fun node member => among node (by simp [member])
      rw [nodesOfAll]
      by_cases isPass : first.kind = .passStatement
      · rw [List.filter_cons_of_neg (by simp [isPass])] at kept
        have bare := passes first (among first (by simp)) isPass
        have inClass := among first (by simp)
        rcases first with ⟨kind, span, parts⟩
        rw [Tree.nodes]
        exact .pass _ _ _ isPass ⟨definition, members, isNode, isClass, heads, inClass⟩
          ((Accounts.all_bare bare).append (later fields kept declare))
      · rw [List.filter_cons_of_pos (by simpa using isPass)] at kept
        cases fields with
        | nil => cases kept
        | cons field fields =>
            obtain ⟨rfl, keptRest⟩ := List.cons.inj kept
            exact (declares_accounts (declare field (by simp))).append
              (later fields keptRest fun field member => declare field (by simp [member]))

theorem tells_accounts {tree : Tree} {member : Member} (isNode : tree ∈ root.nodes)
    (tells : tree.Tells source member) : Accounts source root tree.nodes member.within := by
  cases tells with
  | «class» definition members fields classifies =>
      refine .member (by rw [classifies.isClass]; decide)
        (.class tree definition members fields classifies) classifies.span
        (.heads classifies.block ?_)
      rw [classifies.fields.1]
      exact fields_account tree members isNode classifies.isClass classifies.block
        classifies.passes members (fun _ member => member) fields classifies.kept
        classifies.fields.2
  | var definition declares => exact declares_accounts declares
  | func definition locals stmts defines => exact defines_accounts defines
  | stmt statement becomes => exact becomes_accounts tree statement becomes

end Definitions

section Order

variable {source : List Char}

theorem form_of_other (tree : Tree) (isOther : tree.kind ∉ NodeKind.members) :
    tree.form = .statement := by
  unfold Tree.form
  split
  · rename_i isClass
    rw [isClass] at isOther
    exact absurd isOther (by decide)
  · rename_i isFunction
    rw [isFunction] at isOther
    exact absurd isOther (by decide)
  · rename_i isAssign
    rw [isAssign] at isOther
    exact absurd isOther (by decide)
  · rfl

theorem Tree.Becomes.form {tree : Tree} {stmt : Stmt} (becomes : tree.Becomes source stmt) :
    tree.form = .statement := by
  cases becomes with
  | assign span target sign value expr named assigns =>
      change (if sign.kind = .typeDef then Form.variable else Form.statement) = .statement
      rw [assigns]
      rfl
  | _ => rfl

theorem Tree.Declares.form {tree : Tree} {var : VarDef} (declares : tree.Declares source var) :
    tree.form = .variable := by
  obtain ⟨name, declared, sign, value, _, parts, _, isType, _⟩ := declares.parts
  rcases tree with ⟨kind, span, children⟩
  obtain rfl : kind = .assignStatement := declares.isAssign
  obtain rfl : children = [name, declared, sign, value] := parts
  change (if declared.kind = .typeDef then Form.variable else Form.statement) = .variable
  rw [if_pos isType]

theorem statement_holds_statements {tree : Tree} {stmt : Stmt}
    (becomes : tree.Becomes source stmt) : ∀ node ∈ tree.nodes, node.form = .statement := by
  intro node there
  by_cases isMember : node.kind ∈ NodeKind.members
  · by_cases isPass : node.kind = .passStatement
    · unfold Tree.form
      rw [isPass]
    · have walk : Tree.Accounts source tree tree.nodes (stmt.within.map .stmt) :=
        becomes_accounts tree stmt becomes
      obtain ⟨member, among, tells⟩ := walk.known node there isMember isPass
      obtain ⟨inner, _, rfl⟩ := List.mem_map.mp among
      cases tells with
      | stmt _ becomes => exact becomes.form
  · exact form_of_other node isMember

theorem declarations_first (vars stmts : List Tree)
    (declare : ∀ tree ∈ vars, tree.form ≠ .statement)
    (become : ∀ tree ∈ stmts, tree.form = .statement) :
    Tree.DeclarationsFirst (vars ++ stmts) := by
  refine List.pairwise_append.mpr ⟨?_, ?_, ?_⟩
  · exact List.pairwise_of_forall_mem_list fun tree member _ _ isStatement =>
      absurd isStatement (declare tree member)
  · exact List.pairwise_of_forall_mem_list fun _ _ tree member _ => become tree member
  · exact fun _ _ tree member _ => become tree member

/-- The declarations of a function are in front of its statements. -/
theorem Tree.Defines.declarations_first {tree : Tree} {func : FuncDef}
    {locals : List (Tree × VarDef)} {stmts : List (Tree × Stmt)}
    (defines : tree.Defines source func locals stmts) (block : Tree) (part : block ∈ tree.children)
    (isBody : block.kind = .body) : Tree.DeclarationsFirst block.children.tail := by
  obtain ⟨header, last, parts, bare, lists⟩ := defines.block.parts
  rw [parts] at part
  rcases List.mem_append.mp part with inHeader | isLast
  · exact absurd isBody (bare block inHeader).not_body
  · obtain rfl := List.mem_singleton.mp isLast
    obtain ⟨span, colon, rfl, _⟩ := lists.isBlock
    refine ScriptWasm.declarations_first _ _ (fun node member => ?_) fun node member => ?_
    · obtain ⟨var, among, rfl⟩ := List.mem_map.mp member
      rw [(defines.locals.2 var among).form]
      decide
    · obtain ⟨stmt, among, rfl⟩ := List.mem_map.mp member
      exact (defines.body.2 stmt among).form

variable {tree : Tree} {program : Program} {declarations : List (Tree × Member)}
  {stmts : List (Tree × Stmt)} (follows : program.Follows source tree declarations stmts)

include follows

theorem program_accounts : Tree.Accounts source tree tree.nodes
    ((declarations.map Prod.snd ++ stmts.map fun stmt => Member.stmt stmt.2).flatMap
      Member.within) := by
  have declared : Tree.Accounts source tree (Tree.nodesOfAll (declarations.map Prod.fst))
      ((declarations.map Prod.snd).flatMap Member.within) := by
    refine .all declarations Member.within fun pair member => ?_
    refine tells_accounts ?_ (follows.declares pair member).1
    rcases tree with ⟨kind, span, parts⟩
    refine (Tree.mem_nodes_iff kind span parts _).mpr (.inr ⟨pair.1, ?_, pair.1.mem_nodes_self⟩)
    rw [show parts = _ from follows.nodes]
    exact List.mem_append_left _ (List.mem_map_of_mem member)
  have told : Tree.Accounts source tree (Tree.nodesOfAll (stmts.map Prod.fst))
      ((stmts.map fun stmt => Member.stmt stmt.2).flatMap Member.within) := by
    have each : ∀ stmt ∈ stmts,
        Tree.Accounts source tree stmt.1.nodes (stmt.2.within.map Member.stmt) :=
      fun stmt member => becomes_accounts stmt.1 stmt.2 (follows.becomes stmt member)
    have all := Tree.Accounts.all stmts (fun stmt => stmt.within.map Member.stmt) each
    rwa [List.flatMap_map] at all ⊢
  have parts := declared.append told
  rw [← Tree.nodes_of_append, ← follows.nodes, ← List.flatMap_append] at parts
  have isScript := follows.isScript
  rcases tree with ⟨kind, span, children⟩
  obtain rfl : kind = .script := isScript
  rw [Tree.nodes]
  exact .other _ _ _ (show NodeKind.script ∉ NodeKind.members by decide) parts

theorem follows_keeps_order : tree.KeepsOrder where
  topLevel := by
    rw [follows.nodes]
    refine declarations_first _ _ (fun node member => ?_) fun node member => ?_
    · obtain ⟨pair, among, rfl⟩ := List.mem_map.mp member
      exact (follows.declares pair among).2
    · obtain ⟨pair, among, rfl⟩ := List.mem_map.mp member
      exact (follows.becomes pair among).form
  functions := by
    intro node there isFunction
    obtain ⟨member, _, tells⟩ := (program_accounts follows).known node there
      (by rw [isFunction]; decide) (by rw [isFunction]; decide)
    cases tells with
    | «class» _ _ _ classifies => cases classifies.isClass.symm.trans isFunction
    | var _ declares => cases declares.isAssign.symm.trans isFunction
    | func _ _ _ defines => exact defines.declarations_first
    -- No statement is made of the node of a function.
    | stmt _ becomes => cases becomes <;> cases isFunction
  branches := by
    intro node there isBranch
    obtain ⟨member, _, tells⟩ := (program_accounts follows).known node there
      (by rcases isBranch with same | same <;> rw [same] <;> decide)
      (by rcases isBranch with same | same <;> rw [same] <;> decide)
    cases tells with
    | «class» _ _ _ classifies =>
        rcases isBranch with same | same <;> cases classifies.isClass.symm.trans same
    | var _ declares => rcases isBranch with same | same <;> cases declares.isAssign.symm.trans same
    | func _ _ _ defines =>
        rcases isBranch with same | same <;> cases defines.isFunction.symm.trans same
    | stmt _ becomes => exact statement_holds_statements becomes

end Order

/-- A program is its tree, node by node. The script has declarations and then statements; every
statement and definition of the tree, at any depth, is the next part of the program in the same
block and with the same span, and the only other parts are the conditions of further arms, each
nested in the one before it from its own word on. Only `pass` in a class says nothing. -/
theorem programs_are_built_node_by_node (source : List Char) (program : Program)
    (built : Program.ofSource source = .ok program) :
    ∃ tree declarations stmts, Tree.ofSource source = .ok tree ∧
      program.Follows source tree declarations stmts ∧
      Tree.Accounts source tree tree.nodes
        ((declarations.map Prod.snd ++ stmts.map fun stmt => Member.stmt stmt.2).flatMap
          Member.within) ∧
      tree.KeepsOrder := by
  obtain ⟨tree, declarations, stmts, parsed, follows⟩ :=
    program_of_source_follows source program built
  exact ⟨tree, declarations, stmts, parsed, follows, program_accounts follows,
    follows_keeps_order follows⟩

def ladderSource : List Char :=
  ("class C:\n  pass\n  x: int = 1\ndef f() -> int:\n  y: int = 2\n  return y\n" ++
    "if f() == 1:\n  pass\nelif f() == 2:\n  f()\nelif True:\n  pass\nelse:\n  f()\n").toList

/-- The three conditions start at their words, and what is in their blocks stands behind each. -/
theorem ladder_source_is_built : ∃ program, Program.ofSource ladderSource = .ok program ∧
    (program.stmts.flatMap Stmt.within).map (fun stmt => stmt.span.start) =
      [69, 84, 89, 106, 110, 123, 136] ∧
    ∃ tree declarations stmts, Tree.ofSource ladderSource = .ok tree ∧
      program.Follows ladderSource tree declarations stmts ∧
      Tree.Accounts ladderSource tree tree.nodes
        ((declarations.map Prod.snd ++ stmts.map fun stmt => Member.stmt stmt.2).flatMap
          Member.within) ∧
      tree.KeepsOrder := by
  have starts : ((Program.ofSource ladderSource).toOption.any fun program =>
      (program.stmts.flatMap Stmt.within).map (fun stmt => stmt.span.start) =
        [69, 84, 89, 106, 110, 123, 136]) = true := by
    decide +kernel
  cases built : Program.ofSource ladderSource with
  | error error =>
      rw [built] at starts
      cases starts
  | ok program =>
      rw [built] at starts
      exact ⟨program, rfl, of_decide_eq_true starts,
        programs_are_built_node_by_node ladderSource program built⟩

end ScriptWasm
