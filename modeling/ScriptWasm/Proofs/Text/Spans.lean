import ScriptWasm.Text.Span

/-!
Which characters a span covers. A text that is cut after the bytes of its beginning is cut after its
beginning, and two spans with the same end that do not cover nothing end with the same character.
-/

namespace ScriptWasm

set_option autoImplicit false

theorem byte_length_append (first second : List Char) :
    byteLength (first ++ second) = byteLength first + byteLength second := by
  induction first with
  | nil => rw [List.nil_append, byteLength, Nat.zero_add]
  | cons char rest induction => rw [List.cons_append, byteLength, byteLength, induction, Nat.add_assoc]

theorem split_after_beginning (first second : List Char) :
    splitBytes? (byteLength first) (first ++ second) = some (first, second) := by
  induction first with
  | nil => rw [byteLength, List.nil_append, splitBytes?]
  | cons char rest induction =>
      have positive := char.utf8Size_pos
      obtain ⟨count, sum⟩ : ∃ count, byteLength (char :: rest) = count + 1 :=
        ⟨char.utf8Size + byteLength rest - 1, by rw [byteLength]; omega⟩
      have fits : char.utf8Size ≤ count + 1 := by
        rw [← sum, byteLength]
        omega
      have left : count + 1 - char.utf8Size = byteLength rest := by
        rw [← sum, byteLength]
        omega
      rw [sum, List.cons_append, splitBytes?, if_pos fits, left, induction]
      rfl

theorem split_succeeds_iff (count : Nat) (text first second : List Char) :
    splitBytes? count text = some (first, second) ↔
      text = first ++ second ∧ count = byteLength first := by
  constructor
  · intro split
    induction text generalizing count first with
    | nil =>
        cases count with
        | zero =>
            cases split
            exact ⟨rfl, rfl⟩
        | succ count => cases split
    | cons char rest induction =>
        cases count with
        | zero =>
            cases split
            exact ⟨rfl, rfl⟩
        | succ count =>
            rw [splitBytes?] at split
            split at split
            · rename_i fits
              obtain ⟨⟨before, after⟩, inner, same⟩ := Option.map_eq_some_iff.mp split
              cases same
              obtain ⟨parts, size⟩ := induction _ _ inner
              refine ⟨by rw [parts, List.cons_append], ?_⟩
              rw [byteLength, ← size]
              omega
            · cases split
  · rintro ⟨rfl, rfl⟩
    exact split_after_beginning first second

theorem slice_succeeds_iff (span : Span) (source inside : List Char) :
    span.slice? source = some inside ↔
      ∃ before after, source = before ++ inside ++ after ∧ span.start = byteLength before ∧
        span.stop = byteLength (before ++ inside) := by
  unfold Span.slice?
  constructor
  · intro sliced
    split at sliced
    · rename_i ordered
      simp only [Option.bind_eq_bind, Option.bind_eq_some_iff, Prod.exists,
        split_succeeds_iff] at sliced
      obtain ⟨before, rest, ⟨whole, start⟩, cut, after, ⟨tail, size⟩, same⟩ := sliced
      cases same
      refine ⟨before, after, by rw [whole, tail, List.append_assoc], start, ?_⟩
      rw [byte_length_append, ← start, ← size]
      omega
    · cases sliced
  · rintro ⟨before, after, rfl, start, stop⟩
    have ordered : span.start ≤ span.stop := by
      rw [start, stop, byte_length_append]
      omega
    have size : span.stop - span.start = byteLength inside := by
      rw [start, stop, byte_length_append]
      omega
    rw [if_pos ordered, start, List.append_assoc, split_after_beginning]
    simp only [Option.bind_eq_bind, Option.bind_some]
    rw [← start, size, split_after_beginning]
    rfl

theorem text_in_middle (before inside after : List Char) :
    (Span.mk (byteLength before) (byteLength (before ++ inside))).textIn
      (before ++ inside ++ after) = String.ofList inside := by
  have sliced := (slice_succeeds_iff ⟨byteLength before, byteLength (before ++ inside)⟩
    (before ++ inside ++ after) inside).mpr ⟨before, after, rfl, rfl, rfl⟩
  rw [Span.textIn, sliced]
  rfl

theorem common_end (first last : Span) (source : List Char) (inside other : List Char)
    (covered : first.slice? source = some inside) (covers : last.slice? source = some other)
    (stop : first.stop = last.stop) : inside <:+ other ∨ other <:+ inside := by
  obtain ⟨before, after, whole, _, stopFirst⟩ := (slice_succeeds_iff _ _ _).mp covered
  obtain ⟨before', after', whole', _, stopLast⟩ := (slice_succeeds_iff _ _ _).mp covers
  have cut := split_after_beginning (before ++ inside) after
  have cutToo := split_after_beginning (before' ++ other) after'
  rw [← whole, ← stopFirst, stop] at cut
  rw [← whole', ← stopLast, cut] at cutToo
  have same := congrArg Prod.fst (Option.some.inj cutToo)
  exact List.suffix_or_suffix_of_suffix ⟨before, same⟩ ⟨before', rfl⟩

end ScriptWasm
