import ScriptWasm.Proofs.Code.Binary.Reader

/-!
What is written is read back, piece by piece: numbers, names, and sequences with their length or
their size in front. A reader that reads a piece leaves everything after it alone.
-/

namespace ScriptWasm

set_option autoImplicit false

namespace Binary

/-- A reader answers a value from its bytes, whatever follows them. -/
def Reader.Reads {Value : Type} (reader : Reader Value) (bytes : List Byte) (value : Value) :
    Prop :=
  ∀ rest, reader.run (bytes ++ rest) = some (value, rest)

namespace Reader

section Combinators

variable {Value Result : Type}

theorem reads_pure (value : Value) : Reads (pure value) [] value :=
  fun _ => rfl

theorem reads_bind {first : Reader Value} {next : Value → Reader Result} {bytes more : List Byte}
    {value : Value} {result : Result} (reads : Reads first bytes value)
    (goesOn : Reads (next value) more result) : Reads (first >>= next) (bytes ++ more) result := by
  intro rest
  rw [List.append_assoc, StateT.run_bind, reads (more ++ rest)]
  exact goesOn rest

theorem reads_last {first : Reader Value} {bytes : List Byte} {value : Value}
    (result : Value → Result) (reads : Reads first bytes value) :
    Reads (do return result (← first)) bytes (result value) := by
  rw [← List.append_nil bytes]
  exact reads_bind reads (reads_pure _)

theorem reads_byte (value : Byte) : Reads byte [value] value :=
  fun _ => rfl

theorem reads_byte_first {next : Byte → Reader Result} {first : Byte} {bytes : List Byte}
    {result : Result} (goesOn : Reads (next first) bytes result) :
    Reads (byte >>= next) (first :: bytes) result :=
  reads_bind (reads_byte first) goesOn

theorem reads_marks (bytes : List Byte) : Reads (marks bytes) bytes () := by
  induction bytes with
  | nil => exact reads_pure ()
  | cons first rest induction =>
      refine reads_byte_first ?_
      rw [if_pos rfl]
      exact induction

end Combinators

section Numbers

theorem byte_of_nat (number : Nat) (below : number < 256) :
    (UInt8.ofNat number).toNat = number := by
  rw [UInt8.toNat_ofNat']
  exact Nat.mod_eq_of_lt below

theorem unsigned_filled (number : Nat) : Leb128.unsigned number ≠ [] := by
  rw [Leb128.unsigned]
  split <;> exact List.cons_ne_nil _ _

theorem reads_unsigned (bits number : Nat) (below : number < 2 ^ bits) :
    Reads (unsigned bits) (Leb128.unsigned number) number := by
  intro rest
  fun_induction Leb128.unsigned number generalizing bits with
  | case1 number small =>
      have value := byte_of_nat number (by omega)
      change unsigned bits (UInt8.ofNat number :: rest) = _
      rw [unsigned, value, if_pos small, if_pos below]
  | case2 number large induction =>
      have wide : 7 < bits :=
        (Nat.pow_lt_pow_iff_right (show 1 < 2 by decide)).mp (by omega : 2 ^ 7 < 2 ^ bits)
      have power := Nat.pow_sub_mul_pow 2 (Nat.le_of_lt wide)
      have value := byte_of_nat (number % 128 + 128) (by omega)
      have later : unsigned (bits - 7) (Leb128.unsigned (number / 128) ++ rest) =
          some (number / 128, rest) := induction (bits - 7) (by omega)
      change unsigned bits (UInt8.ofNat (number % 128 + 128) ::
        (Leb128.unsigned (number / 128) ++ rest)) = _
      rw [unsigned, value, if_neg (by omega), if_pos wide, later]
      simp only [Option.map_some, Option.some.injEq, Prod.mk.injEq, and_true]
      omega

theorem reads_signed (bits : Nat) (number : Int) (low : -(2 ^ (bits - 1) : Nat) ≤ number)
    (high : number < (2 ^ (bits - 1) : Nat)) :
    Reads (signed bits) (Leb128.signed number) number := by
  intro rest
  fun_induction Leb128.signed number generalizing bits with
  | case1 number small =>
      have value := byte_of_nat (number % 128).toNat (by omega)
      change signed bits (UInt8.ofNat (number % 128).toNat :: rest) = _
      rw [signed, value]
      by_cases negative : number < 0
      · rw [if_neg (by omega), if_pos (by omega), if_pos (by omega)]
        simp only [Option.some.injEq, Prod.mk.injEq, and_true]
        omega
      · rw [if_pos (by omega), if_pos (by omega)]
        simp only [Option.some.injEq, Prod.mk.injEq, and_true]
        omega
  | case2 number large induction =>
      have wide : 6 < bits - 1 :=
        (Nat.pow_lt_pow_iff_right (show 1 < 2 by decide)).mp (by omega : 2 ^ 6 < 2 ^ (bits - 1))
      have power := Nat.pow_sub_mul_pow 2 (show 7 ≤ bits - 1 by omega)
      rw [Nat.sub_right_comm] at power
      have value := byte_of_nat ((number % 128).toNat + 128) (by omega)
      have later : signed (bits - 7) (Leb128.signed (number / 128) ++ rest) =
          some (number / 128, rest) := induction (bits - 7) (by omega) (by omega)
      change signed bits (UInt8.ofNat ((number % 128).toNat + 128) ::
        (Leb128.signed (number / 128) ++ rest)) = _
      rw [signed, value, if_neg (by omega), if_neg (by omega), if_pos (by omega), later]
      simp only [Option.map_some, Option.some.injEq, Prod.mk.injEq, and_true]
      omega

end Numbers

section Sequences

variable {Source Value : Type} (bits : Nat) (item : Reader Value) (write : Source → List Byte)
variable (value : Source → Value) (sources : List Source)

theorem reads_many (each : ∀ source ∈ sources, Reads item (write source) (value source)) :
    Reads (many item sources.length) (sources.map write).flatten (sources.map value) := by
  induction sources with
  | nil => exact reads_pure []
  | cons first rest induction =>
      have later := induction fun source member => each source (by simp [member])
      exact reads_bind (each first (by simp)) (reads_last _ later)

theorem reads_counted (few : sources.length < 2 ^ bits)
    (each : ∀ source ∈ sources, Reads item (write source) (value source)) :
    Reads (Reader.counted bits item) (Binary.counted (sources.map write)) (sources.map value) := by
  rw [Binary.counted, List.length_map]
  exact reads_bind (reads_unsigned bits _ few) (reads_many item write value sources each)

theorem reads_sized (inner : Reader Value) (bytes : List Byte) (result : Value)
    (short : bytes.length < 2 ^ bits) (reads : Reads inner bytes result) :
    Reads (Reader.sized bits inner) (Binary.sized bytes) result := by
  rw [Binary.sized]
  refine reads_bind (reads_unsigned bits _ short) fun rest => ?_
  have whole : inner.run bytes = some (result, []) := by
    have run := reads []
    rwa [List.append_nil] at run
  simp only [StateT.run_bind, StateT.run_get, Option.pure_def, Option.bind_eq_bind,
    Option.bind_some, List.length_append, Nat.le_add_right, if_pos, List.take_left, whole,
    StateT.run_set, List.drop_left]
  rfl

theorem reads_name (text : String) (short : text.toUTF8.size < 2 ^ bits) :
    Reads (Reader.name bits) (Binary.name text) text := by
  have bytes := reads_counted bits byte (fun value => [value]) id text.toUTF8.data.toList short
    fun value _ => reads_byte value
  have flat : Binary.counted (text.toUTF8.data.toList.map fun value => [value]) =
      Binary.name text := by
    rw [Binary.counted, Binary.name, Binary.sized, List.length_map]
    congr 1
    induction text.toUTF8.data.toList with
    | nil => rfl
    | cons first rest induction => rw [List.map_cons, List.flatten_cons, induction]; rfl
  rw [flat, List.map_id] at bytes
  rw [← List.append_nil (Binary.name text)]
  refine reads_bind bytes ?_
  have decoded : String.fromUTF8? ⟨text.toUTF8.data.toList.toArray⟩ = some text := by
    rw [Array.toArray_toList]
    exact dif_pos text.isValidUTF8
  rw [decoded]
  exact reads_pure text

theorem size_le_name (text : String) : text.toUTF8.size ≤ (Binary.name text).length := by
  change text.toUTF8.data.toList.length ≤ _
  rw [Binary.name, Binary.sized, List.length_append]
  exact Nat.le_add_left _ _

/-- Every item takes a byte, so there are no more items than bytes. -/
theorem length_le_counted (filled : ∀ source ∈ sources, write source ≠ []) :
    sources.length ≤ (Binary.counted (sources.map write)).length := by
  have all : sources.length ≤ (sources.map write).flatten.length := by
    induction sources with
    | nil => exact Nat.zero_le _
    | cons first rest induction =>
        have here := List.length_pos_iff.mpr (filled first (by simp))
        have later := induction fun source member => filled source (by simp [member])
        rw [List.map_cons, List.flatten_cons, List.length_append, List.length_cons]
        omega
  rw [Binary.counted, List.length_append]
  omega

theorem item_le_counted (source : Source) (member : source ∈ sources) :
    (write source).length ≤ (Binary.counted (sources.map write)).length := by
  have inside : (write source).length ≤ (sources.map write).flatten.length :=
    (List.sublist_flatten_of_mem (List.mem_map_of_mem member)).length_le
  rw [Binary.counted, List.length_append]
  omega

theorem reads_section (id : Byte) (filled : ∀ source ∈ sources, write source ≠ [])
    (short : (Binary.counted (sources.map write)).length < 2 ^ bits)
    (each : ∀ source ∈ sources, Reads item (write source) (value source)) :
    Reads (Reader.sectionOf bits id item) (Binary.sectionOf id (sources.map write))
      (sources.map value) := by
  have few := length_le_counted write sources filled
  have inner := reads_sized bits _ _ _ short
    (reads_counted bits item write value sources (by omega) each)
  intro rest
  change (Reader.sectionOf bits id item).run (id :: (Binary.sized _ ++ rest)) = _
  simp only [Reader.sectionOf, StateT.run_bind, StateT.run_get, Option.pure_def,
    Option.bind_eq_bind, Option.bind_some, List.head?_cons, if_pos]
  exact inner rest

end Sequences

end Reader

end Binary

end ScriptWasm
