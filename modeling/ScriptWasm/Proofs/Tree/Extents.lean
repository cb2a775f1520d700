import ScriptWasm.Proofs.Tree.Leaves

/-!
How far the nodes of trees reach. Where the leaves of a tree stand one after the other on a source,
its inner nodes reach from their first leaf to their last, and the parts of a node stand one after
the other as well.
-/

namespace ScriptWasm

set_option autoImplicit false

namespace Tree

mutual

/-- A tree and all nodes below it. -/
def nodes : Tree → List Tree
  | node kind span children => node kind span children :: nodesOfAll children

def nodesOfAll : List Tree → List Tree
  | [] => []
  | first :: rest => first.nodes ++ nodesOfAll rest

end

theorem mem_nodes_of_all_iff (trees : List Tree) (node : Tree) :
    node ∈ nodesOfAll trees ↔ ∃ tree ∈ trees, node ∈ tree.nodes := by
  induction trees with
  | nil => simp [nodesOfAll]
  | cons first rest induction => simp [nodesOfAll, induction]

theorem mem_nodes_iff (kind : NodeKind) (span : Span) (parts : List Tree) (node : Tree) :
    node ∈ (Tree.node kind span parts).nodes ↔
      node = .node kind span parts ∨ ∃ part ∈ parts, node ∈ part.nodes := by
  rw [nodes, List.mem_cons, mem_nodes_of_all_iff]

theorem mem_nodes_self (tree : Tree) : tree ∈ tree.nodes := by
  rcases tree with ⟨kind, span, parts⟩
  exact (mem_nodes_iff kind span parts _).mpr (.inl rfl)

def ReachesLeaves (tree : Tree) : Prop :=
  ∃ first last, tree.leaves.head? = some first ∧ tree.leaves.getLast? = some last ∧
    tree.span = first.span.through last.span

theorem leaves_of_part (parts : List Tree) (part : Tree) (member : part ∈ parts) :
    part.leaves <:+: leavesOfAll parts := by
  induction parts with
  | nil => cases member
  | cons first rest induction =>
      rw [leaves_of_more]
      rcases List.mem_cons.mp member with rfl | later
      · exact ⟨[], leavesOfAll rest, by simp⟩
      · exact (induction later).trans (List.suffix_append _ _).isInfix

theorem leaves_last (parts : List Tree) (filled : parts ≠ []) :
    (leavesOfAll parts).getLast? = (parts.getLast filled).leaves.getLast? := by
  induction parts with
  | nil => exact absurd rfl filled
  | cons first rest induction =>
      rw [leaves_of_more]
      cases rest with
      | nil => simp
      | cons second more =>
          have later := induction (by simp)
          obtain ⟨leaf, leaves, start⟩ := second.leaves_start
          rw [List.getLast_cons (by simp), ← later, List.getLast?_append]
          cases found : (leavesOfAll (second :: more)).getLast? with
          | some last => rfl
          | none =>
              rw [leaves_of_more, start] at found
              simp at found

/-- In a branched tree every node reaches from its first leaf to its last. -/
theorem Branched.reaches {tree : Tree} (branched : tree.Branched) : tree.ReachesLeaves := by
  induction branched with
  | leaf kind span => exact ⟨Tree.leaf kind span, Tree.leaf kind span, by simp, by simp, rfl⟩
  | branch kind first rest _ induction =>
      have filled : first :: rest ≠ [] := by simp
      obtain ⟨head, _, isHead, _, startsAt⟩ := induction first (by simp)
      obtain ⟨_, last, _, isLast, stopsAt⟩ := induction _ (List.getLast_mem filled)
      refine ⟨head, last, ?_, ?_, ?_⟩
      · rw [leaves_branch, leaves_of_more, List.head?_append, isHead]
        rfl
      · rw [leaves_branch, leaves_last _ filled, isLast]
      · change Span.mk first.span.start _ = _
        rw [List.getLast?_eq_some_getLast filled, startsAt]
        change Span.mk head.span.start ((first :: rest).getLast filled).span.stop = _
        rw [stopsAt]
        rfl

mutual

theorem branched_of_node (tree other : Tree) (branched : tree.Branched)
    (member : other ∈ tree.nodes) : other.Branched := by
  rcases tree with ⟨kind, span, children⟩
  rw [nodes] at member
  rcases List.mem_cons.mp member with rfl | below
  · exact branched
  · have parts : ∀ part ∈ children, part.Branched := by
      cases branched with
      | leaf => exact List.forall_mem_nil _
      | branch _ _ _ parts => exact parts
    exact branched_of_nodes children other parts below

theorem branched_of_nodes (trees : List Tree) (other : Tree)
    (branched : ∀ tree ∈ trees, tree.Branched) (member : other ∈ nodesOfAll trees) :
    other.Branched := by
  cases trees with
  | nil => cases member
  | cons first rest =>
      rw [nodesOfAll] at member
      rcases List.mem_append.mp member with here | later
      · exact branched_of_node first other (branched first (by simp)) here
      · exact branched_of_nodes rest other (fun tree there => branched tree (by simp [there])) later

end

mutual

theorem leaves_of_node (tree other : Tree) (member : other ∈ tree.nodes) :
    other.leaves <:+: tree.leaves := by
  rcases tree with ⟨kind, span, children⟩
  rw [nodes] at member
  rcases List.mem_cons.mp member with rfl | below
  · exact List.infix_refl _
  · cases children with
    | nil => cases below
    | cons first rest =>
        rw [leaves]
        exact leaves_of_nodes (first :: rest) other below

theorem leaves_of_nodes (trees : List Tree) (other : Tree) (member : other ∈ nodesOfAll trees) :
    other.leaves <:+: leavesOfAll trees := by
  cases trees with
  | nil => cases member
  | cons first rest =>
      rw [nodesOfAll] at member
      rw [leaves_of_more]
      rcases List.mem_append.mp member with here | later
      · exact (leaves_of_node first other here).trans (List.prefix_append _ _).isInfix
      · exact (leaves_of_nodes rest other later).trans (List.suffix_append _ _).isInfix

end

/-- Trees that stand one after the other, if their leaves do. -/
theorem in_order_of_leaves (trees : List Tree) (reach : ∀ tree ∈ trees, tree.ReachesLeaves)
    (ordered : InOrder ((leavesOfAll trees).map Tree.span)) : InOrder (trees.map Tree.span) := by
  induction trees with
  | nil => exact .nil
  | cons first rest induction =>
      rw [leaves_of_more, List.map_append] at ordered
      obtain ⟨_, later, across⟩ := List.pairwise_append.mp ordered
      have others : ∀ tree ∈ rest, tree.ReachesLeaves :=
        fun tree member => reach tree (by simp [member])
      refine List.pairwise_cons.mpr ⟨?_, induction others later⟩
      intro span member
      obtain ⟨other, there, rfl⟩ := List.mem_map.mp member
      obtain ⟨_, last, _, isLast, stops⟩ := reach first (by simp)
      obtain ⟨head, _, isHead, _, starts⟩ := reach other (by simp [there])
      rw [stops, starts]
      refine across last.span ?_ head.span ?_
      · exact List.mem_map_of_mem (List.mem_of_getLast? isLast)
      · exact List.mem_map_of_mem
          ((leaves_of_part rest other there).subset (List.mem_of_head? isHead))

theorem Branched.parts_in_order {tree : Tree} (branched : tree.Branched)
    (ordered : InOrder (tree.leaves.map Tree.span)) : InOrder (tree.children.map Tree.span) := by
  cases branched with
  | leaf kind span => exact .nil
  | branch kind first rest parts =>
      rw [leaves_branch] at ordered
      exact in_order_of_leaves (first :: rest) (fun part member => (parts part member).reaches)
        ordered

theorem within_of_leaves (source : List Char) (tree : Tree) (reaches : tree.ReachesLeaves)
    (ordered : InOrder (tree.leaves.map Tree.span))
    (within : ∀ leaf ∈ tree.leaves, leaf.span.Within source) : tree.span.Within source := by
  obtain ⟨first, last, isFirst, isLast, reach⟩ := reaches
  have firstWithin := within first (List.mem_of_head? isFirst)
  have lastWithin := within last (List.mem_of_getLast? isLast)
  have forward : first.span.start ≤ last.span.stop := by
    have firstForward := span_ordered source _ firstWithin
    have lastForward := span_ordered source _ lastWithin
    obtain ⟨more, parts⟩ := List.head?_eq_some_iff.mp isFirst
    rw [parts] at ordered isLast
    rcases List.mem_cons.mp (List.mem_of_getLast? isLast) with rfl | later
    · exact firstForward
    · have := (List.pairwise_cons.mp ordered).1 last.span (List.mem_map_of_mem later)
      omega
  rw [reach]
  exact span_through source first.span last.span firstWithin lastWithin forward

end Tree

namespace Cover

variable {leaves : List Tree} {lexemes : List Lexeme}

theorem starts (cover : Cover leaves lexemes) :
    ∀ leaf ∈ leaves, ∃ lexeme ∈ lexemes, leaf.span.start = lexeme.span.start := by
  induction cover with
  | nil => exact List.forall_mem_nil _
  | operand kind lexeme leaves lexemes _ _ induction =>
      intro leaf member
      rcases List.mem_cons.mp member with rfl | later
      · exact ⟨lexeme, by simp, rfl⟩
      · obtain ⟨other, there, same⟩ := induction leaf later
        exact ⟨other, by simp [there], same⟩
  | operator lexeme next leaf leaves lexemes _ _ _ induction =>
      intro leaf member
      rcases List.mem_cons.mp member with rfl | later
      · exact ⟨lexeme, by simp, rfl⟩
      · obtain ⟨other, there, same⟩ := induction leaf later
        exact ⟨other, List.mem_cons_of_mem _ there, same⟩
  | twoWords first second leaves lexemes _ _ induction =>
      intro leaf member
      rcases List.mem_cons.mp member with rfl | later
      · exact ⟨first, by simp, rfl⟩
      · obtain ⟨other, there, same⟩ := induction leaf later
        exact ⟨other, by simp [there], same⟩

theorem in_order (cover : Cover leaves lexemes) (ordered : InOrder (lexemes.map Lexeme.span)) :
    InOrder (leaves.map Tree.span) := by
  have later : ∀ (stop : Nat) (leaves : List Tree) (lexemes : List Lexeme),
      Cover leaves lexemes → (∀ span ∈ lexemes.map Lexeme.span, stop ≤ span.start) →
        ∀ span ∈ leaves.map Tree.span, stop ≤ span.start := by
    intro stop leaves lexemes cover after span member
    obtain ⟨leaf, there, rfl⟩ := List.mem_map.mp member
    obtain ⟨lexeme, found, same⟩ := cover.starts leaf there
    rw [same]
    exact after _ (List.mem_map_of_mem found)
  induction cover with
  | nil => exact .nil
  | operand kind lexeme leaves lexemes _ rest induction =>
      obtain ⟨first, others⟩ := List.pairwise_cons.mp ordered
      exact List.pairwise_cons.mpr ⟨later lexeme.span.stop _ _ rest first, induction others⟩
  | operator lexeme next leaf leaves lexemes _ _ rest induction =>
      obtain ⟨first, others⟩ := List.pairwise_cons.mp ordered
      exact List.pairwise_cons.mpr ⟨later lexeme.span.stop _ _ rest first, induction others⟩
  | twoWords first second leaves lexemes _ rest induction =>
      obtain ⟨_, others⟩ := List.pairwise_cons.mp ordered
      obtain ⟨second, others⟩ := List.pairwise_cons.mp others
      exact List.pairwise_cons.mpr ⟨later _ _ _ rest second, induction others⟩

theorem within (source : List Char) (cover : Cover leaves lexemes)
    (ordered : InOrder (lexemes.map Lexeme.span))
    (placed : ∀ lexeme ∈ lexemes, lexeme.span.Within source) :
    ∀ leaf ∈ leaves, leaf.span.Within source := by
  induction cover with
  | nil => exact List.forall_mem_nil _
  | operand kind lexeme leaves lexemes _ _ induction =>
      intro leaf member
      rcases List.mem_cons.mp member with rfl | later
      · exact placed lexeme (by simp)
      · exact induction (List.pairwise_cons.mp ordered).2
          (fun other there => placed other (by simp [there])) leaf later
  | operator lexeme next leaf leaves lexemes _ _ _ induction =>
      intro other member
      rcases List.mem_cons.mp member with rfl | later
      · exact placed lexeme (by simp)
      · exact induction (List.pairwise_cons.mp ordered).2
          (fun other there => placed other (List.mem_cons_of_mem _ there)) other later
  | twoWords first second leaves lexemes _ _ induction =>
      obtain ⟨before, others⟩ := List.pairwise_cons.mp ordered
      have firstWithin := placed first (by simp)
      have secondWithin := placed second (by simp)
      intro leaf member
      rcases List.mem_cons.mp member with rfl | later
      · have apart : first.span.stop ≤ second.span.start := before _ (by simp)
        have firstForward := span_ordered source _ firstWithin
        have secondForward := span_ordered source _ secondWithin
        exact span_through source first.span second.span firstWithin secondWithin (by omega)
      · exact induction (List.pairwise_cons.mp others).2
          (fun other there => placed other (by simp [there])) leaf later

end Cover

end ScriptWasm
