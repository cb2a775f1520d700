import ScriptWasm.Proofs.Code.Binary.Pieces

/-!
Instructions are read back from their bytes. No instruction starts with a mark, so a run of them is
read up to the mark after it, and a body up to the end of it.
-/

namespace ScriptWasm

set_option autoImplicit false

namespace Indexed

mutual

def Fits (bits : Nat) : Indexed → Prop
  | localGet index | localSet index | globalGet index | globalSet index | call index
  | branch index | branchIf index => index < 2 ^ bits
  | cond body orelse => AllFit bits body ∧ AllFit bits orelse
  | block body | loop body => AllFit bits body
  | const _ | binary _ | drop | ret | unreachable => True

def AllFit (bits : Nat) : List Indexed → Prop
  | [] => True
  | first :: rest => Fits bits first ∧ AllFit bits rest

end

theorem bytes_filled (instr : Indexed) : instr.bytes ≠ [] := by
  cases instr <;> simp [bytes]

end Indexed

namespace Binary.Reader

theorem reads_word (value : Word) : Reads word (Leb128.signed value.toInt) value := by
  have low := value.le_toInt
  have high := value.toInt_lt
  have number := reads_last Int32.ofInt (reads_signed 32 value.toInt (by simpa using low)
    (by simpa using high))
  rwa [Int32.ofInt_toInt] at number

section Bodies

variable {bits : Nat} {inner : Reader (List Indexed × Byte)}

theorem reads_closed {body : List Indexed} {bytes : List Byte}
    (reads : Reads inner (bytes ++ [0x0b]) (body, 0x0b)) :
    Reads (closed inner) (bytes ++ [0x0b]) body := by
  rw [← List.append_nil (bytes ++ [0x0b])]
  exact reads_bind reads (reads_pure body)

theorem reads_typed_body {body : List Indexed} {bytes : List Byte} (result : List Indexed → Indexed)
    (reads : Reads inner (bytes ++ [0x0b]) (body, 0x0b)) :
    Reads (do marks [0x40]; return result (← closed inner)) (0x40 :: bytes ++ [0x0b])
      (result body) := by
  rw [List.cons_append]
  exact reads_bind (reads_marks [0x40]) (reads_last result (reads_closed reads))

theorem reads_operator (op : WordOp) : Reads (instr bits inner (opcode op)) [] (.binary op) := by
  cases op <;> exact reads_pure _

end Bodies

variable (bits : Nat)

mutual

theorem instr_reads (fuel : Nat) (found : Indexed) (fits : found.Fits bits)
    (enough : found.bytes.length ≤ fuel) :
    ∃ code tail, found.bytes = code :: tail ∧ code ≠ 0x0b ∧ code ≠ 0x05 ∧
      Reads (instr bits (instrs bits fuel) code) tail found := by
  cases found with
  | const value =>
      exact ⟨0x41, _, rfl, by decide, by decide, reads_last Indexed.const (reads_word value)⟩
  | localGet index =>
      exact ⟨0x20, _, rfl, by decide, by decide,
        reads_last Indexed.localGet (reads_unsigned bits index fits)⟩
  | localSet index =>
      exact ⟨0x21, _, rfl, by decide, by decide,
        reads_last Indexed.localSet (reads_unsigned bits index fits)⟩
  | globalGet index =>
      exact ⟨0x23, _, rfl, by decide, by decide,
        reads_last Indexed.globalGet (reads_unsigned bits index fits)⟩
  | globalSet index =>
      exact ⟨0x24, _, rfl, by decide, by decide,
        reads_last Indexed.globalSet (reads_unsigned bits index fits)⟩
  | call index =>
      exact ⟨0x10, _, rfl, by decide, by decide,
        reads_last Indexed.call (reads_unsigned bits index fits)⟩
  | binary op =>
      exact ⟨opcode op, [], rfl, by cases op <;> decide, by cases op <;> decide,
        reads_operator op⟩
  | drop => exact ⟨0x1a, [], rfl, by decide, by decide, reads_pure _⟩
  | ret => exact ⟨0x0f, [], rfl, by decide, by decide, reads_pure _⟩
  | unreachable => exact ⟨0x00, [], rfl, by decide, by decide, reads_pure _⟩
  | cond body orelse =>
      -- The bodies are shorter than the whole, so that the fuel is enough for reading them.
      have sizes : (Indexed.bytesOfAll body).length < fuel ∧
          (orelse.isEmpty = false → (Indexed.bytesOfAll orelse).length < fuel) := by
        simp only [Indexed.bytes, List.length_append, List.length_cons] at enough
        refine ⟨by omega, fun filled => ?_⟩
        rw [filled] at enough
        simp only [Bool.false_eq_true, if_false, List.length_cons] at enough
        omega
      refine ⟨0x04, _, rfl, by decide, by decide, ?_⟩
      -- Without a second body there is no mark of an else, and the first one ends at the end mark.
      cases orelse with
      | nil =>
          have inner := instrs_read fuel body fits.1 sizes.1 0x0b (Or.inl rfl)
          have whole : Reads (instr bits (instrs bits fuel) 0x04)
              ([0x40] ++ ((Indexed.bytesOfAll body ++ [0x0b]) ++ [])) (.cond body []) :=
            reads_bind (reads_marks [0x40]) (reads_bind inner (reads_pure _))
          simpa [emptyType, endMark] using whole
      | cons first rest =>
          have inner := instrs_read fuel body fits.1 sizes.1 0x05 (Or.inr rfl)
          have other := instrs_read fuel (first :: rest) fits.2 (sizes.2 rfl) 0x0b (Or.inl rfl)
          have whole : Reads (instr bits (instrs bits fuel) 0x04)
              ([0x40] ++ ((Indexed.bytesOfAll body ++ [0x05]) ++
                (Indexed.bytesOfAll (first :: rest) ++ [0x0b]))) (.cond body (first :: rest)) :=
            reads_bind (reads_marks [0x40])
              (reads_bind inner (reads_last (Indexed.cond body) (reads_closed other)))
          simpa [emptyType, endMark] using whole
  | block body =>
      have inner := instrs_read fuel body fits (by
        simp only [Indexed.bytes, List.length_append, List.length_cons] at enough; omega)
        0x0b (Or.inl rfl)
      exact ⟨0x02, _, rfl, by decide, by decide, reads_typed_body Indexed.block inner⟩
  | loop body =>
      have inner := instrs_read fuel body fits (by
        simp only [Indexed.bytes, List.length_append, List.length_cons] at enough; omega)
        0x0b (Or.inl rfl)
      exact ⟨0x03, _, rfl, by decide, by decide, reads_typed_body Indexed.loop inner⟩
  | branch depth =>
      exact ⟨0x0c, _, rfl, by decide, by decide,
        reads_last Indexed.branch (reads_unsigned bits depth fits)⟩
  | branchIf depth =>
      exact ⟨0x0d, _, rfl, by decide, by decide,
        reads_last Indexed.branchIf (reads_unsigned bits depth fits)⟩
termination_by structural found

/-- A run of instructions is read up to the mark after it. -/
theorem instrs_read (fuel : Nat) (found : List Indexed) (fits : Indexed.AllFit bits found)
    (enough : (Indexed.bytesOfAll found).length < fuel) (mark : Byte)
    (isMark : mark = 0x0b ∨ mark = 0x05) :
    Reads (instrs bits fuel) (Indexed.bytesOfAll found ++ [mark]) (found, mark) := by
  obtain ⟨fewer, rfl⟩ : ∃ fewer, fuel = fewer + 1 := ⟨fuel - 1, by omega⟩
  cases found with
  | nil =>
      refine reads_byte_first ?_
      rw [if_pos isMark]
      exact reads_pure _
  | cons first rest =>
      rw [Indexed.bytesOfAll] at enough ⊢
      have here := List.length_pos_iff.mpr first.bytes_filled
      rw [List.length_append] at enough
      obtain ⟨code, tail, parts, noEnd, noElse, reads⟩ := instr_reads fewer first fits.1 (by omega)
      have later := instrs_read fewer rest fits.2 (by omega) mark isMark
      rw [parts, List.append_assoc]
      refine reads_byte_first ?_
      rw [if_neg (by simp [noEnd, noElse])]
      refine reads_bind reads ?_
      exact reads_last (fun found => (first :: found.1, found.2)) later
termination_by structural found

end

end Binary.Reader

end ScriptWasm
