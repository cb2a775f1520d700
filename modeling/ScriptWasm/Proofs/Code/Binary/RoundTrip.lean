import ScriptWasm.Proofs.Code.Binary.Contents

/-!
Reading undoes writing: the bytes of a module are read to the last one, and what is read is the
module with indices in the place of names. Each section is read back on its own.
-/

namespace ScriptWasm

set_option autoImplicit false

namespace Binary.Reader

section Items

variable (module : Module) (bits : Nat)

theorem reads_function_type (arity : Nat) (few : arity < 2 ^ bits) (one : 1 < 2 ^ bits) :
    Reads (functionType bits) (Binary.functionType arity) (arity, 1) := by
  have words : ∀ count, count < 2 ^ bits → Reads (Reader.counted bits (marks [0x7f]))
      (Binary.counted (List.replicate count [wordType])) (List.replicate count ()) := by
    intro count below
    have read := reads_counted bits (marks [0x7f]) (fun _ : Unit => [wordType]) id
      (List.replicate count ()) (by simpa using below) fun _ _ => reads_marks [0x7f]
    simpa using read
  have whole : Reads (functionType bits) ([0x60] ++
      (Binary.counted (List.replicate arity [wordType]) ++
        Binary.counted (List.replicate 1 [wordType])))
      ((List.replicate arity ()).length, (List.replicate 1 ()).length) :=
    reads_bind (reads_marks [0x60]) (reads_bind (words arity few)
      (reads_last (fun results => ((List.replicate arity ()).length, results.length))
        (words 1 one)))
  rw [List.length_replicate] at whole
  exact whole

theorem reads_global (cell : Global) :
    Reads Reader.global (Binary.global cell) ⟨true, cell.init⟩ := by
  have whole : Reads Reader.global
      ([0x7f] ++ ([0x01] ++ ([0x41] ++ (Leb128.signed cell.init.toInt ++ ([0x0b] ++ [])))))
      ⟨true, cell.init⟩ :=
    reads_bind (reads_marks [0x7f]) (reads_bind (reads_byte 0x01) (reads_bind (reads_marks [0x41])
      (reads_bind (reads_word cell.init) (reads_bind (reads_marks [0x0b]) (reads_pure _)))))
  exact whole

theorem exports_written (start : Nat) (functions : List Func) :
    Binary.exports start functions = (exportedFrom start functions).map exportBytes := by
  induction functions generalizing start with
  | nil => rfl
  | cons first rest induction =>
      rw [Binary.exports, exportedFrom, List.zipIdx_cons, induction]
      cases exported : first.exportName with
      | none => simp [exported, exportedFrom]
      | some name => simp [exported, exportedFrom, exportBytes]

theorem reads_code (found : List Indexed) (fit : Indexed.AllFit bits found) :
    Reads (code bits) (Indexed.bytesOfAll found ++ [endMark]) found := by
  intro rest
  have enough : (Indexed.bytesOfAll found).length <
      (Indexed.bytesOfAll found ++ [endMark] ++ rest).length + 1 := by
    rw [List.length_append, List.length_append]
    omega
  exact reads_closed (instrs_read bits _ found fit enough 0x0b (Or.inl rfl)) rest

theorem reads_runs (runs : List Nat) (few : runs.length < 2 ^ bits)
    (below : ∀ count ∈ runs, count < 2 ^ bits) :
    Reads (Reader.counted bits (localRun bits))
      (Binary.counted (runs.map fun count => Leb128.unsigned count ++ [wordType])) runs := by
  have read := reads_counted bits (localRun bits)
    (fun count => Leb128.unsigned count ++ [wordType]) id runs few fun count member =>
      reads_bind (reads_unsigned bits count (below count member))
        (reads_bind (reads_marks [0x7f]) (reads_pure count))
  rwa [List.map_id] at read

/-- The locals of a function are one run of words, or no run at all. -/
theorem reads_locals (func : Func) (few : func.locals.length < 2 ^ bits) (one : 1 < 2 ^ bits) :
    ∃ runs, runs.sum = func.locals.length ∧
      Reads (Reader.counted bits (localRun bits)) (Binary.counted (localRuns func)) runs := by
  rw [localRuns]
  cases empty : func.locals.isEmpty with
  | true =>
      rw [List.isEmpty_iff] at empty
      exact ⟨[], by rw [empty]; rfl, reads_runs bits [] (Nat.zero_lt_of_lt one) (by simp)⟩
  | false =>
      exact ⟨[func.locals.length], by simp, reads_runs bits [_] one (by simpa using few)⟩

theorem primitive_arity_listed (primitive : HostImport) (member : primitive ∈ HostImport.all) :
    primitive.arity ∈ arities module :=
  List.mem_eraseDups.mpr (List.mem_append_left _ (List.mem_map_of_mem member))

theorem function_arity_listed (func : Func) (member : func ∈ module.allFunctions) :
    func.params.length ∈ arities module :=
  List.mem_eraseDups.mpr (List.mem_append_right _ (List.mem_map.mpr ⟨func, member, rfl⟩))

def types : List (Nat × Nat) :=
  (arities module).map fun arity => (arity, 1)

theorem type_found (arity : Nat) (member : arity ∈ arities module) :
    (types module)[(arities module).idxOf arity]? = some (arity, 1) := by
  rw [types, List.getElem?_map, List.getElem?_idxOf member]
  rfl

theorem map_m_found {Source Item Value : Type} (sources : List Source) (item : Source → Item)
    (find : Item → Option Value) (value : Source → Value)
    (found : ∀ source ∈ sources, find (item source) = some (value source)) :
    (sources.map item).mapM find = some (sources.map value) := by
  induction sources with
  | nil => rfl
  | cons first rest induction =>
      have later := induction fun source member => found source (by simp [member])
      rw [List.map_cons, List.mapM_cons, found first (by simp), later]
      rfl

theorem assembled_from_parts :
    assembled (types module)
      (HostImport.all.map fun primitive =>
        (HostImport.moduleName, primitive.name, (arities module).idxOf primitive.arity))
      (module.allFunctions.map fun func => (arities module).idxOf func.params.length)
      (module.globals.map fun cell => ⟨true, cell.init⟩)
      (exportedFrom HostImport.all.length module.allFunctions)
      (module.allFunctions.map fun func => (func.locals.length, func.indexed module)) =
    some module.indexed := by
  have imports := map_m_found HostImport.all
    (fun primitive =>
      (HostImport.moduleName, primitive.name, (arities module).idxOf primitive.arity))
    (fun entry => (types module)[entry.2.2]?.map fun type =>
      BinaryImport.mk entry.1 entry.2.1 type.1 type.2)
    (fun primitive => ⟨HostImport.moduleName, primitive.name, primitive.arity, 1⟩)
    fun primitive member => by
      rw [type_found module _ (primitive_arity_listed module primitive member)]
      rfl
  have functions := map_m_found module.allFunctions
    (fun func => ((arities module).idxOf func.params.length,
      (func.locals.length, func.indexed module)))
    (fun entry => (types module)[entry.1]?.map fun type =>
      BinaryFunc.mk type.1 type.2 entry.2.1 entry.2.2)
    (fun func => ⟨func.params.length, 1, func.locals.length, func.indexed module⟩)
    fun func member => by
      rw [type_found module _ (function_arity_listed module func member)]
      rfl
  rw [assembled, List.zip_map', imports]
  simp only [Option.bind_eq_bind, Option.bind_some, functions, List.length_map, if_pos]
  rfl

end Items

section Sections

variable (module : Module) (bits : Nat) (fits : module.Fits bits)

include fits

theorem one_fits : 1 < 2 ^ bits := by
  have room := fits.functions
  have seven : HostImport.all.length = 7 := rfl
  omega

theorem arity_fits (arity : Nat) (member : arity ∈ arities module) : arity < 2 ^ bits := by
  have room := fits.functions
  have seven : HostImport.all.length = 7 := rfl
  rcases List.mem_append.mp (List.mem_eraseDups.mp member) with host | own
  · obtain ⟨primitive, _, rfl⟩ := List.mem_map.mp host
    have few : primitive.arity ≤ 2 := by cases primitive <;> decide
    omega
  · obtain ⟨func, there, rfl⟩ := List.mem_map.mp own
    have slots := fits.slots func there
    omega

theorem reads_types : Reads (sectionOf bits 1 (functionType bits))
    (Binary.sectionOf 1 ((arities module).map Binary.functionType)) (types module) := by
  refine reads_section bits _ _ _ _ 1 (fun _ _ => List.cons_ne_nil _ _)
    (fits.sections (1, _) (by simp [sections])) fun arity member => ?_
  exact reads_function_type bits arity (arity_fits module bits fits arity member)
    (one_fits module bits fits)

theorem reads_type_index (arity : Nat) (member : arity ∈ arities module) :
    Reads (unsigned bits) (typeIndex module arity) ((arities module).idxOf arity) := by
  have few := length_le_counted Binary.functionType (arities module)
    fun _ _ => List.cons_ne_nil _ _
  have short := fits.sections (1, (arities module).map Binary.functionType) (by simp [sections])
  have below := List.idxOf_lt_length_of_mem member
  exact reads_unsigned bits _ (Nat.lt_trans (Nat.lt_of_lt_of_le below few) short)

theorem reads_import (primitive : HostImport) (member : primitive ∈ HostImport.all)
    (short : (Binary.importEntry module primitive).length < 2 ^ bits) :
    Reads (Reader.importEntry bits) (Binary.importEntry module primitive)
      (HostImport.moduleName, primitive.name, (arities module).idxOf primitive.arity) := by
  have moduleSize := size_le_name HostImport.moduleName
  have ownSize := size_le_name primitive.name
  rw [Binary.importEntry, List.append_assoc, List.length_append, List.length_append] at short
  rw [Binary.importEntry, List.append_assoc]
  exact reads_bind (reads_name bits _ (by omega)) (reads_bind (reads_name bits _ (by omega))
    (reads_bind (reads_marks [0x00]) (reads_last _
      (reads_type_index module bits fits _ (primitive_arity_listed module primitive member)))))

theorem reads_imports : Reads (sectionOf bits 2 (Reader.importEntry bits))
    (Binary.sectionOf 2 (HostImport.all.map (Binary.importEntry module)))
    (HostImport.all.map fun primitive =>
      (HostImport.moduleName, primitive.name, (arities module).idxOf primitive.arity)) := by
  have short := fits.sections (2, HostImport.all.map (Binary.importEntry module))
    (by simp [sections])
  refine reads_section bits _ _ _ _ 2 (fun _ _ => by simp [Binary.importEntry]) short
    fun primitive member => ?_
  exact reads_import module bits fits primitive member
    (Nat.lt_of_le_of_lt (item_le_counted _ _ primitive member) short)

theorem reads_functions : Reads (sectionOf bits 3 (unsigned bits))
    (Binary.sectionOf 3 (module.allFunctions.map fun func => typeIndex module func.params.length))
    (module.allFunctions.map fun func => (arities module).idxOf func.params.length) :=
  reads_section bits _ _ _ _ 3 (fun _ _ => unsigned_filled _)
    (fits.sections (3, _) (by simp [sections])) fun func member =>
      reads_type_index module bits fits _ (function_arity_listed module func member)

theorem reads_globals : Reads (sectionOf bits 6 Reader.global)
    (Binary.sectionOf 6 (module.globals.map Binary.global))
    (module.globals.map fun cell => ⟨true, cell.init⟩) :=
  reads_section bits _ _ _ _ 6 (fun _ _ => List.cons_ne_nil _ _)
    (fits.sections (6, _) (by simp [sections])) fun cell _ => reads_global cell

theorem reads_export (entry : String × Nat)
    (member : entry ∈ exportedFrom HostImport.all.length module.allFunctions)
    (short : (exportBytes entry).length < 2 ^ bits) :
    Reads (Reader.exportEntry bits) (exportBytes entry) entry := by
  obtain ⟨position, func, found, _, place⟩ := (exported_iff _ _ _ _).mp member
  have below := (List.getElem?_eq_some_iff.mp found).1
  have room := fits.functions
  have nameSize := size_le_name entry.1
  rw [exportBytes, List.length_append] at short
  exact reads_bind (reads_name bits entry.1 (by omega)) (reads_bind (reads_marks [0x00])
    (reads_last _ (reads_unsigned bits entry.2 (by omega))))

theorem reads_exports : Reads (sectionOf bits 7 (Reader.exportEntry bits))
    (Binary.sectionOf 7 (Binary.exports HostImport.all.length module.allFunctions))
    (exportedFrom HostImport.all.length module.allFunctions) := by
  have short := fits.sections (7, Binary.exports HostImport.all.length module.allFunctions)
    (by simp [sections])
  rw [exports_written] at short ⊢
  have read := reads_section bits (Reader.exportEntry bits) exportBytes id _ 7
    (fun _ _ => by simp [exportBytes]) short fun entry member =>
      reads_export module bits fits entry member
        (Nat.lt_of_le_of_lt (item_le_counted _ _ entry member) short)
  rwa [List.map_id] at read

theorem reads_body (func : Func) (member : func ∈ module.allFunctions)
    (named : Instr.AllNamed module func func.body)
    (short : (func.bodyBytes module).length < 2 ^ bits) :
    Reads (Reader.body bits) (func.bodyBytes module) (func.locals.length, func.indexed module) := by
  have slots := fits.slots func member
  have fit := all_indexed_fit module func bits fits member func.body named
    (fits.depths func member)
  obtain ⟨runs, total, locals⟩ :=
    reads_locals bits func (by omega) (one_fits module bits fits)
  rw [Func.bodyBytes, Binary.sized, List.length_append] at short
  refine reads_sized bits _ _ _ (by omega) ?_
  rw [List.append_assoc, ← total]
  exact reads_bind locals (reads_last _ (reads_code bits _ fit))

theorem reads_bodies
    (named : ∀ func ∈ module.allFunctions, Instr.AllNamed module func func.body) :
    Reads (sectionOf bits 10 (Reader.body bits))
      (Binary.sectionOf 10 (module.allFunctions.map (Func.bodyBytes module)))
      (module.allFunctions.map fun func => (func.locals.length, func.indexed module)) := by
  have short := fits.sections (10, module.allFunctions.map (Func.bodyBytes module))
    (by simp [sections])
  refine reads_section bits _ _ _ _ 10 (fun func _ => ?_) short fun func member => ?_
  · simp [Func.bodyBytes, Binary.sized, unsigned_filled]
  · exact reads_body module bits fits func member (named func member)
      (Nat.lt_of_le_of_lt (item_le_counted _ _ func member) short)

theorem reads_module
    (named : ∀ func ∈ module.allFunctions, Instr.AllNamed module func func.body) :
    Reads (Reader.module bits) (Binary.header ++ (Binary.sections module).flatMap fun part =>
      Binary.sectionOf part.1 part.2) module.indexed := by
  refine reads_bind (reads_marks Binary.header) (reads_bind (reads_types module bits fits)
    (reads_bind (reads_imports module bits fits) (reads_bind (reads_functions module bits fits)
      (reads_bind (reads_globals module bits fits) (reads_bind (reads_exports module bits fits)
        (reads_bind (reads_bodies module bits fits named) ?_))))))
  rw [assembled_from_parts]
  exact reads_pure _

end Sections

end Binary.Reader

/-- What is written is read back, by a reader of any width that the module fits. -/
theorem encoded_is_read (module : Module) (bits : Nat) (bytes : List Byte)
    (fits : module.Fits bits) (encoded : module.encode = .ok bytes) :
    Binary.read bits bytes = some module.indexed := by
  obtain ⟨named, rfl⟩ := (encode_succeeds_iff module bytes).mp encoded
  have run := Binary.Reader.reads_module module bits fits named []
  rw [List.append_nil] at run
  rw [Binary.read, run]

/-- Decoding undoes encoding: the bytes of a module whose tables and sections have sizes of 32 bits
are read to the last one, what is read is the module itself with indices in the place of names, and
every name in it has an index. -/
theorem decoding_undoes_encoding (module : Module) (bytes : List Byte) (fits : module.Fits 32)
    (encoded : module.encode = .ok bytes) :
    Binary.read 32 bytes = some module.indexed ∧
      ∀ func ∈ module.allFunctions, Instr.AllNamed module func func.body :=
  ⟨encoded_is_read module 32 bytes fits encoded,
    ((encode_succeeds_iff module bytes).mp encoded).1⟩

/-- A module in which names hide one another: a local its parameter, a function a primitive, and a
global the one before it. -/
def hidingModule : Module where
  globals := [⟨"limit", -2147483648⟩, ⟨"limit", 300⟩]
  functions := [⟨some "max", none, ["n"], ["n"],
    [.localGet "n", .cond [.localGet "n", .call "print"] [], .const (-1)]⟩]
  entry := ⟨none, some "main", [], [],
    [.loop [.globalGet "limit", .cond [.branch 1] [.const 300, .globalSet "limit"]],
      .const 0, .call "max"]⟩

theorem hiding_module_fits : hidingModule.Fits 32 where
  functions := by decide
  globals := by decide
  slots := by decide
  depths := by decide
  sections := by decide +kernel

theorem hiding_names_are_read_back :
    ∃ bytes found, hidingModule.encode = .ok bytes ∧ Binary.read 32 bytes = some found ∧
      found.exports = [("main", 8)] ∧ found.functions.map BinaryFunc.body =
        [[.localGet 1, .cond [.localGet 1, .call 0] [], .const (-1)],
         [.loop [.globalGet 1, .cond [.branch 1] [.const 300, .globalSet 1]],
           .const 0, .call 7]] := by
  obtain ⟨bytes, encoded⟩ : ∃ bytes, hidingModule.encode = .ok bytes := ⟨_, rfl⟩
  obtain ⟨read, _⟩ := decoding_undoes_encoding hidingModule bytes hiding_module_fits encoded
  exact ⟨bytes, _, encoded, read, rfl, rfl⟩

end ScriptWasm
