import ScriptWasm.Proofs.Typing.Spans
import ScriptWasm.Pipeline

/-!
Where the failures of a source are reported. Each is reported at whole characters of the source, and
an error of the source shows what stands there. No text of an error or of a node is empty because
its span cuts a character or leaves the source.
-/

namespace ScriptWasm

set_option autoImplicit false

namespace Failure

/-- Where a failure is reported. What cannot be generated has no place in the source. -/
def span? : Failure → Option Span
  | source error => some error.span
  | types error => some error.span
  | code _ => none

/-- A failure at whole characters, which are its text if it is one of the source. -/
def PointsInto (text : List Char) : Failure → Prop
  | source error => error.Shows text
  | types error => error.span.Within text
  | code _ => False

theorem PointsInto.covers {text : List Char} {failure : Failure}
    (points : failure.PointsInto text) :
    ∃ span inside, failure.span? = some span ∧ span.slice? text = some inside ∧
      ∀ error, failure = .source error → error.text = String.ofList inside := by
  cases failure with
  | source error =>
      obtain ⟨⟨inside, sliced⟩, shown⟩ := points
      refine ⟨error.span, inside, rfl, sliced, ?_⟩
      intro other same
      cases same
      rw [shown, Span.textIn, sliced]
      rfl
  | types error =>
      obtain ⟨inside, sliced⟩ := points
      refine ⟨error.span, inside, rfl, sliced, ?_⟩
      intro other different
      cases different
  | code error => exact points.elim

end Failure

section Sources

variable (source : List Char)

theorem read_settles :
    Settles (fun program => AllWithin source program.spans) (SyntaxError.Shows source)
      (Program.ofSource source) := by
  unfold Program.ofSource
  split
  · rename_i tree parsed
    exact program_settles (tree_of_source_in_place source tree parsed)
  · rename_i error failed
    exact ⟨parse_error_within source error failed, rfl⟩

theorem check_settles :
    Settles (fun _ => True) (Failure.PointsInto source) (checkSource source) := by
  have read : Settles (fun program => AllWithin source program.spans) (Failure.PointsInto source)
      (readProgram source) :=
    (read_settles source).translate fun _ shows => shows
  apply settles_bind read
  intro program within
  exact (analysis_settles program).translate fun error member => within error.span member

/-- What the check of a source reports stands between two characters of it and ends at or after its
start, and an error of the source shows exactly the characters in between. -/
theorem diagnostics_point_into_the_source :
    (∀ failure, checkSource source = .error failure →
      ∃ span before inside after, failure.span? = some span ∧
        source = before ++ inside ++ after ∧
        span.start = byteLength before ∧ span.stop = byteLength (before ++ inside) ∧
        span.start ≤ span.stop ∧ span.stop ≤ byteLength source ∧
        ∀ error, failure = .source error → error.text = String.ofList inside) ∧
    (∀ error, Tree.ofSource source = .error error → error.span.Within source) ∧
    ∀ tree, Tree.ofSource source = .ok tree → ∀ node ∈ tree.nodes, node.span.Within source := by
  refine ⟨?_, parse_error_within source, fun tree parsed node member =>
    (tree_of_source_in_place source tree parsed node member).within⟩
  intro failure failed
  have points : failure.PointsInto source := by
    have settles := check_settles source
    rwa [failed] at settles
  obtain ⟨span, inside, here, sliced, text⟩ := points.covers
  obtain ⟨before, after, whole, start, stop⟩ := (slice_succeeds_iff _ _ _).mp sliced
  exact ⟨span, before, inside, after, here, whole, start, stop,
    span_ordered source span ⟨inside, sliced⟩, within_source source span ⟨inside, sliced⟩, text⟩

end Sources

def accentedSource : List Char :=
  "x = ".toList ++ ['"', 'é', '"'] ++ "\n".toList

def mistypedSource : List Char :=
  "# ".toList ++ ['é'] ++ "\nx: int = True\n".toList

theorem accented_text_is_shown :
    (∃ error before inside after, checkSource accentedSource = .error (.source error) ∧
      accentedSource = before ++ inside ++ after ∧ byteLength before = 4 ∧
      byteLength (before ++ inside) = 8 ∧ error.text = String.ofList inside) ∧
    (∃ tree, Tree.ofSource accentedSource = .ok tree ∧
      ∀ node ∈ tree.nodes, node.span.Within accentedSource) ∧
    ∃ error before inside after, checkSource mistypedSource = .error (.types error) ∧
      mistypedSource = before ++ inside ++ after ∧ byteLength before = 14 ∧
      byteLength (before ++ inside) = 18 := by
  obtain ⟨diagnostics, _, nodes⟩ := diagnostics_point_into_the_source accentedSource
  refine ⟨?_, ?_, ?_⟩
  · have read : Program.ofSource accentedSource = .error
        ⟨.unknownExpression, ⟨4, 8⟩, String.ofList ['"', 'é', '"'], some .string⟩ :=
      (failure_eq_some_iff _ _).mp (by decide +kernel)
    have failed : checkSource accentedSource = .error (.source
        ⟨.unknownExpression, ⟨4, 8⟩, String.ofList ['"', 'é', '"'], some .string⟩) := by
      rw [checkSource, readProgram, read]
      rfl
    obtain ⟨span, before, inside, after, here, whole, start, stop, _, _, text⟩ :=
      diagnostics _ failed
    cases here
    exact ⟨_, before, inside, after, failed, whole, start.symm, stop.symm, text _ rfl⟩
  · obtain ⟨tree, parsed⟩ := (is_ok_iff (Tree.ofSource accentedSource)).mp (by decide +kernel)
    exact ⟨tree, parsed, nodes tree parsed⟩
  · have found : ((Program.ofSource mistypedSource).toOption.any fun program =>
        (failure? program.analyze).any fun error => error.span = ⟨14, 18⟩) = true := by
      decide +kernel
    obtain ⟨program, read, refused⟩ := (Option.any_eq_true _ _).mp found
    obtain ⟨error, refused, stands⟩ := (Option.any_eq_true _ _).mp refused
    have failed : checkSource mistypedSource = .error (.types error) := by
      rw [checkSource, readProgram, (to_option_eq_some_iff _ program).mp read]
      exact congrArg (Except.mapError Failure.types) ((failure_eq_some_iff _ error).mp refused)
    obtain ⟨span, before, inside, after, here, whole, start, stop, _⟩ :=
      (diagnostics_point_into_the_source mistypedSource).1 _ failed
    cases here
    rw [of_decide_eq_true stands] at start stop
    exact ⟨error, before, inside, after, failed, whole, start.symm, stop.symm⟩

end ScriptWasm
