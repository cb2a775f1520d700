import ScriptWasm.Proofs.Program.BlankLines
import ScriptWasm.Proofs.Token.LineEndings

/-!
Line endings do not matter. A source denotes a program with carriage returns in front of its newlines
if and only if it does so without, and then it is the same program but for its spans.
-/

namespace ScriptWasm

set_option autoImplicit false

theorem faulty_source_denotes_nothing (source : List Char) (faulty : Faulty (sights source))
    (program : Program) : Program.ofSource source ≠ .ok program := by
  intro denoted
  obtain ⟨sight, member, failed⟩ := faulty
  obtain ⟨token, shown, rfl⟩ := List.mem_map.mp member
  exact source_without_errors source program denoted token (List.mem_of_mem_filter shown) failed

theorem program_of_respelled (source edited : List Char)
    (respelled : Respelled (sights source) (sights edited)) :
    Echoes (SameBy Program.withoutSpans) (Program.ofSource source) (Program.ofSource edited) := by
  rcases respelled with ⟨faulty, _⟩ | alike
  · intro program denoted
    exact absurd denoted (faulty_source_denotes_nothing source faulty program)
  · apply program_of_alike
    apply layout_of_padded
    exact Padded.of_alike false _ _ alike

/-- A source denotes a program with carriage returns in front of its newlines if and only if it does
without them, and the two programs differ in their spans only. -/
theorem line_endings_do_not_matter (source : List Char) (noReturn : '\r' ∉ source) :
    ((∃ program, Program.ofSource source = .ok program) ↔
      ∃ program, Program.ofSource (withReturns source) = .ok program) ∧
    ∀ program returned, Program.ofSource source = .ok program →
      Program.ofSource (withReturns source) = .ok returned →
        returned.withoutSpans = program.withoutSpans := by
  have respelled := returned_sights source noReturn
  have forth := program_of_respelled source (withReturns source) respelled
  have back := program_of_respelled (withReturns source) source respelled.symm
  refine ⟨⟨?_, ?_⟩, ?_⟩
  · rintro ⟨program, denoted⟩
    obtain ⟨returned, denotes, _⟩ := forth program denoted
    exact ⟨returned, denotes⟩
  · rintro ⟨returned, denoted⟩
    obtain ⟨program, denotes, _⟩ := back returned denoted
    exact ⟨program, denotes⟩
  · intro program returned denoted denotes
    obtain ⟨found, same, erased⟩ := forth program denoted
    rw [denotes] at same
    cases same
    exact erased

def remarkedLoop : List Char :=
  "while x: # a\n\n  f(b,\n c)\npass\n".toList

theorem remarked_loop_with_returns : '\r' ∉ remarkedLoop ∧ ∃ program returned,
    Program.ofSource remarkedLoop = .ok program ∧
    Program.ofSource (withReturns remarkedLoop) = .ok returned ∧
    returned.withoutSpans = program.withoutSpans := by
  have noReturn : '\r' ∉ remarkedLoop := by decide
  obtain ⟨bothDenote, erased⟩ := line_endings_do_not_matter remarkedLoop noReturn
  obtain ⟨program, denoted⟩ := (is_ok_iff (Program.ofSource remarkedLoop)).mp (by decide +kernel)
  obtain ⟨returned, denotes⟩ := bothDenote.mp ⟨program, denoted⟩
  exact ⟨noReturn, program, returned, denoted, denotes, erased program returned denoted denotes⟩

end ScriptWasm
