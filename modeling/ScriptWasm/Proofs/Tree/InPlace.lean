import ScriptWasm.Proofs.Tree.Lossless
import ScriptWasm.Proofs.Tree.Unindents

/-!
Nodes of trees in their places. A node is in place if it is a stretch of whole characters of the
source and its parts stand in it, one after the other. All nodes of the tree of a source are, and
where a source has no tree the error stands at whole characters as well.
-/

namespace ScriptWasm

set_option autoImplicit false

section Spans

variable (source : List Char)

theorem within_source (span : Span) (within : span.Within source) :
    span.stop ≤ byteLength source := by
  obtain ⟨inside, sliced⟩ := within
  obtain ⟨before, after, whole, _, stop⟩ := (slice_succeeds_iff _ _ _).mp sliced
  rw [stop, whole, byte_length_append (before ++ inside)]
  exact Nat.le_add_right _ _

theorem starts_after_first (first : Span) (rest : List Span) (ordered : InOrder (first :: rest))
    (within : first.Within source) : ∀ span ∈ first :: rest, first.start ≤ span.start := by
  obtain ⟨across, _⟩ := List.pairwise_cons.mp ordered
  intro span member
  rcases List.mem_cons.mp member with rfl | later
  · exact Nat.le_refl _
  · exact (span_ordered source first within).trans (across span later)

theorem stops_before_last (others : List Span) (last : Span) (ordered : InOrder (others ++ [last]))
    (within : last.Within source) : ∀ span ∈ others ++ [last], span.stop ≤ last.stop := by
  obtain ⟨_, _, across⟩ := List.pairwise_append.mp ordered
  intro span member
  rcases List.mem_append.mp member with inner | here
  · exact (across span inner last List.mem_cons_self).trans (span_ordered source last within)
  · rw [List.mem_singleton.mp here]

end Spans

namespace Tree

/-- A node of whole characters whose parts stand in it, one after the other. -/
structure InPlace (source : List Char) (node : Tree) : Prop where
  within : node.span.Within source
  ordered : InOrder (node.children.map Tree.span)
  starts : ∀ part ∈ node.children, node.span.start ≤ part.span.start
  stops : ∀ part ∈ node.children, part.span.stop ≤ node.span.stop

def AllInPlace (source : List Char) (tree : Tree) : Prop :=
  ∀ node ∈ tree.nodes, node.InPlace source

variable {source : List Char} {tree : Tree}

theorem AllInPlace.here (all : tree.AllInPlace source) : tree.InPlace source :=
  all tree tree.mem_nodes_self

theorem AllInPlace.part (all : tree.AllInPlace source) :
    ∀ part ∈ tree.children, part.AllInPlace source := by
  cases tree with
  | node kind span children =>
      intro part member node below
      exact all node ((mem_nodes_iff kind span children node).mpr (.inr ⟨part, member, below⟩))

theorem all_in_place_of_parts (here : tree.InPlace source)
    (parts : ∀ part ∈ tree.children, part.AllInPlace source) : tree.AllInPlace source := by
  cases tree with
  | node kind span children =>
      intro node member
      rcases (mem_nodes_iff kind span children node).mp member with rfl | ⟨part, there, below⟩
      · exact here
      · exact parts part there node below

/-- Where the leaves of a branched tree stand one after the other on a source, all its nodes are in
place. A node reaches from the start of its first part to the end of its last. -/
theorem Branched.all_in_place (branched : tree.Branched)
    (ordered : InOrder (tree.leaves.map Tree.span))
    (within : ∀ leaf ∈ tree.leaves, leaf.span.Within source) : tree.AllInPlace source := by
  induction branched with
  | leaf kind span =>
      apply all_in_place_of_parts
      · exact ⟨within _ (by simp), .nil, List.forall_mem_nil _, List.forall_mem_nil _⟩
      · exact List.forall_mem_nil _
  | branch kind first rest parts induction =>
      have whole : (Tree.branch kind (first :: rest)).Branched := .branch kind first rest parts
      have inside (part : Tree) (member : part ∈ first :: rest) :
          part.leaves <:+: (Tree.branch kind (first :: rest)).leaves := by
        rw [leaves_branch]
        exact leaves_of_part (first :: rest) part member
      have below (part : Tree) (member : part ∈ first :: rest) : part.AllInPlace source := by
        apply induction part member
        · exact ordered.sublist ((inside part member).sublist.map Tree.span)
        · exact fun leaf there => within leaf ((inside part member).subset there)
      have inOrder : InOrder ((first :: rest).map Tree.span) := whole.parts_in_order ordered
      apply all_in_place_of_parts ⟨within_of_leaves source _ whole.reaches ordered within, inOrder,
        ?_, ?_⟩ below
      · intro part member
        exact starts_after_first source _ _ inOrder (below first List.mem_cons_self).here.within
          part.span (List.mem_map_of_mem member)
      · intro part member
        have filled : first :: rest ≠ [] := List.cons_ne_nil _ _
        have split := List.dropLast_append_getLast filled
        have stop : (Tree.branch kind (first :: rest)).span.stop =
            ((first :: rest).getLast filled).span.stop := by
          change Option.getD (((first :: rest).getLast?).map (·.span.stop)) first.span.start = _
          rw [List.getLast?_eq_some_getLast filled]
          rfl
        rw [stop]
        rw [← split, List.map_append, List.map_singleton] at inOrder
        apply stops_before_last source _ _ inOrder (below _ (List.getLast_mem filled)).here.within
        rw [← List.map_singleton, ← List.map_append, split]
        exact List.mem_map_of_mem member

end Tree

section Sources

variable (source : List Char)

theorem tree_of_source_in_place (tree : Tree) (parsed : Tree.ofSource source = .ok tree) :
    tree.AllInPlace source := by
  obtain ⟨_, written⟩ := script_covers source tree parsed
  obtain ⟨ordered, placed⟩ := leaves_of_source source tree parsed
  obtain ⟨members, _, _, rfl⟩ := tree_of_source_run source tree parsed
  have below (part : Tree) (member : part ∈ members) : part.AllInPlace source := by
    have inside := Tree.leaves_of_part members part member
    apply (written.branched part member).all_in_place
    · exact ordered.sublist (inside.sublist.map Tree.span)
    · exact fun leaf there => placed leaf (inside.subset there)
  have whole : (Span.mk 0 (byteLength source)).Within source :=
    ⟨source, (slice_succeeds_iff _ _ _).mpr ⟨[], [], by simp, rfl, by simp⟩⟩
  refine Tree.all_in_place_of_parts ⟨whole, ?_, ?_, ?_⟩ below
  · exact Tree.in_order_of_leaves members (fun part there => (written.branched part there).reaches)
      ordered
  · exact fun part _ => Nat.zero_le _
  · exact fun part member => within_source source _ (below part member).here.within

/-- What is blamed for a source without a tree stands at whole characters. -/
theorem parse_error_within (error : ParseError) (failed : Tree.ofSource source = .error error) :
    error.span.Within source := by
  obtain ⟨taken, stop, reached, span, _⟩ := source_refused_at source error failed
  obtain ⟨before, final, whole, isEnd, _⟩ := layout_ends source .start
    ((rawTokens source).filter (·.kind ≠ .comment)) fun token member =>
      tokens_from_not_added 0 source .endOfFile (Or.inr (Or.inr rfl)) token
        (List.mem_of_mem_filter member)
  have lexemes : (layoutTokens source).map (·.lexeme source) = taken ++ stop.rest :=
    reached.rest_eq
  -- The lexemes do not run out, for the last of them is an end of file and none was taken.
  have left : stop.next ∈ (layoutTokens source).map (·.lexeme source) := by
    cases parts : stop.rest with
    | cons next rest =>
        have here : stop.next = next := by rw [TokenStream.next, parts]
        rw [here, lexemes, parts]
        exact List.mem_append_right _ List.mem_cons_self
    | nil =>
        have member : final.lexeme source ∈ taken := by
          rw [parts, List.append_nil] at lexemes
          rw [← lexemes]
          apply List.mem_map_of_mem
          rw [layoutTokens, whole]
          exact List.mem_append_right _ List.mem_cons_self
        exact absurd isEnd (reached.going _ member)
  obtain ⟨token, member, same⟩ := List.mem_map.mp left
  rw [span, ← same]
  exact layout_tokens_within source token member

end Sources

end ScriptWasm
