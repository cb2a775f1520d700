import ScriptWasm.Proofs.Outcome
import ScriptWasm.Typing.Analysis
import Mathlib.Data.List.Sort

/-!
What the tables of an analysis hold. Names are entered in the order of their definitions, and none
twice, so a table that was filled from a list of definitions has exactly that list as its entries.
A function sees its own parameters and locals before the globals, and the parameters come back from
its table in the order of their declaration.
-/

namespace ScriptWasm

set_option autoImplicit false

namespace Table

variable {Value : Type}

theorem value_in_map_fst (name : String) (entries : List (String × Value)) :
    (valueIn? name entries).isSome = true ↔ name ∈ entries.map Prod.fst := by
  induction entries with
  | nil => simp [valueIn?]
  | cons entry rest induction =>
      obtain ⟨first, value⟩ := entry
      by_cases same : first = name
      · simp [valueIn?, same]
      · simp only [valueIn?, if_neg same, induction, List.map_cons, List.mem_cons]
        constructor
        · exact Or.inr
        · rintro (equal | member)
          · exact absurd equal.symm same
          · exact member

theorem value_in_eq_some_iff (name : String) (value : Value) (entries : List (String × Value))
    (distinct : (entries.map Prod.fst).Nodup) :
    valueIn? name entries = some value ↔ (name, value) ∈ entries := by
  induction entries with
  | nil => simp [valueIn?]
  | cons entry rest induction =>
      obtain ⟨first, old⟩ := entry
      rw [List.map_cons, List.nodup_cons] at distinct
      by_cases same : first = name
      · subst same
        simp only [valueIn?, if_true, Option.some.injEq, List.mem_cons, Prod.mk.injEq, true_and]
        constructor
        · intro equal
          exact Or.inl equal.symm
        · rintro (equal | member)
          · exact equal.symm
          · exact absurd (List.mem_map_of_mem (f := Prod.fst) member) distinct.1
      · simp only [valueIn?, if_neg same, induction distinct.2, List.mem_cons, Prod.mk.injEq]
        constructor
        · exact Or.inr
        · rintro (⟨equal, _⟩ | member)
          · exact absurd equal.symm same
          · exact member

theorem mem_of_value_in (name : String) (value : Value) (entries : List (String × Value))
    (found : valueIn? name entries = some value) : (name, value) ∈ entries := by
  induction entries with
  | nil => cases found
  | cons entry rest induction =>
      obtain ⟨first, old⟩ := entry
      simp only [valueIn?] at found
      split at found
      · rename_i same
        cases found
        exact same ▸ List.mem_cons_self
      · exact List.mem_cons_of_mem _ (induction found)

theorem get_eq_some_iff (table : Table Value) (name : String) (value : Value) :
    table.get? name = some value ↔ (name, value) ∈ table.entries :=
  value_in_eq_some_iff name value table.entries table.distinct

theorem contains_iff (table : Table Value) (name : String) :
    table.contains name = true ↔ name ∈ table.entries.map Prod.fst :=
  value_in_map_fst name table.entries

theorem put_new (name : String) (value : Value) (entries : List (String × Value))
    (absent : name ∉ entries.map Prod.fst) : put name value entries = entries ++ [(name, value)] := by
  induction entries with
  | nil => rfl
  | cons entry rest induction =>
      obtain ⟨other, old⟩ := entry
      rw [List.map_cons, List.mem_cons, not_or] at absent
      simp only [put, if_neg (Ne.symm absent.1), induction absent.2, List.cons_append]

theorem declare_succeeds_iff (table after : Table Value) (name : String) (value : Value)
    (span : Span) :
    table.declare name value span = .ok after ↔
      name ∉ table.entries.map Prod.fst ∧ after.entries = table.entries ++ [(name, value)] := by
  unfold Table.declare insertNew?
  by_cases present : table.contains name = true
  · have member := (table.contains_iff name).mp present
    simp [present, member]
  · have absent : name ∉ table.entries.map Prod.fst := fun member =>
      present ((table.contains_iff name).mpr member)
    have entries : (table.insert name value).entries = table.entries ++ [(name, value)] :=
      put_new name value table.entries absent
    simp only [present, Bool.false_eq_true, if_false, Except.ok.injEq]
    constructor
    · intro same
      exact ⟨absent, by rw [← same, entries]⟩
    · rintro ⟨_, same⟩
      obtain ⟨old, oldDistinct⟩ := after
      simp only [insert, Table.mk.injEq]
      exact entries.trans same.symm

theorem value_in_append (name : String) (first second : List (String × Value)) :
    valueIn? name (first ++ second) = (valueIn? name first).or (valueIn? name second) := by
  induction first with
  | nil => simp [valueIn?]
  | cons entry rest induction =>
      obtain ⟨other, value⟩ := entry
      by_cases same : other = name
      · simp [valueIn?, same]
      · simp [valueIn?, same, induction]

theorem value_in_reverse (name : String) (entries : List (String × Value))
    (distinct : (entries.map Prod.fst).Nodup) :
    valueIn? name entries.reverse = valueIn? name entries := by
  have distinctToo : (entries.reverse.map Prod.fst).Nodup := by
    rwa [List.map_reverse, List.nodup_reverse]
  ext value
  rw [value_in_eq_some_iff name value _ distinctToo, List.mem_reverse,
    value_in_eq_some_iff name value _ distinct]

theorem value_in_named {Source : Type} (name : String) (list : List Source)
    (nameOf : Source → String) (value : Source → Value) :
    valueIn? name (list.map fun source => (nameOf source, value source)) =
      (list.find? fun source => nameOf source = name).map value := by
  induction list with
  | nil => rfl
  | cons first rest induction =>
      by_cases same : nameOf first = name
      · simp [valueIn?, same]
      · simp [valueIn?, same, induction]

/-- Of several values that are entered for a name the last one counts. -/
theorem get_fold (name : String) (entries : List (String × Value)) (table : Table Value) :
    (entries.foldl (fun table (name, value) => table.insert name value) table).get? name =
      (valueIn? name entries.reverse).or (table.get? name) := by
  induction entries generalizing table with
  | nil => simp [valueIn?]
  | cons entry rest induction =>
      obtain ⟨other, value⟩ := entry
      rw [List.foldl_cons, induction, get_insert, List.reverse_cons, value_in_append,
        Option.or_assoc]
      by_cases same : other = name
      · simp [valueIn?, same]
      · simp [valueIn?, same]

theorem get_of_list (name : String) (entries : List (String × Value)) :
    (ofList entries).get? name = valueIn? name entries.reverse := by
  rw [ofList, get_fold, get_empty, Option.or_none]

theorem get_fold_insert (name : String) (entries : List (String × Value)) (table : Table Value)
    (distinct : (entries.map Prod.fst).Nodup) :
    (entries.foldl (fun table (name, value) => table.insert name value) table).get? name =
      (valueIn? name entries).or (table.get? name) := by
  rw [get_fold, value_in_reverse name entries distinct]

/-- The values of the inner table hide those of the outer one. -/
theorem get_overlay (outer inner : Table Value) (name : String) :
    (outer.overlay inner).get? name = (inner.get? name).or (outer.get? name) :=
  get_fold_insert name inner.entries outer inner.distinct

end Table

namespace Def

def var? : Def → Option VarDef
  | var definition => some definition
  | func _ => none

def func? : Def → Option FuncDef
  | var _ => none
  | func definition => some definition

@[simp] theorem var_of_var (definition : VarDef) : (var definition).var? = some definition :=
  rfl

@[simp] theorem var_of_func (definition : FuncDef) : (func definition).var? = none :=
  rfl

@[simp] theorem func_of_var (definition : VarDef) : (var definition).func? = none :=
  rfl

@[simp] theorem func_of_func (definition : FuncDef) : (func definition).func? = some definition :=
  rfl

end Def

namespace Program

def vars (program : Program) : List VarDef :=
  program.defs.filterMap Def.var?

def funcs (program : Program) : List FuncDef :=
  program.defs.filterMap Def.func?

end Program

namespace VarDef

def globalEntry (var : VarDef) : String × Binding :=
  (var.name, ⟨var.ty, .global⟩)

def localEntry (var : VarDef) : String × Binding :=
  (var.name, ⟨var.ty, .local⟩)

theorem check_init_succeeds_iff (var : VarDef) (nothing : Unit) :
    var.checkInit = .ok nothing ↔ var.init.ty = var.ty := by
  unfold checkInit Expr.expectTy
  by_cases same : var.ty = var.init.ty
  · simp [same]
  · simp [same, Ne.symm same]

end VarDef

namespace FuncDef

def entry (func : FuncDef) : String × Signature :=
  (func.name, func.signature)

end FuncDef

/-- Definitions that were collected are entered in order, under names that are new and not reserved,
and every variable starts with a value of its type. -/
theorem collect_defs_succeeds (functions functions' : FuncTable) (globals globals' : VarTable)
    (defs : List Def) (collected : collectDefs functions globals defs = .ok (functions', globals')) :
    functions'.entries = functions.entries ++ (defs.filterMap Def.func?).map FuncDef.entry ∧
      globals'.entries = globals.entries ++ (defs.filterMap Def.var?).map VarDef.globalEntry ∧
      (∀ definition ∈ defs, isReserved definition.name = false) ∧
      (∀ var ∈ defs.filterMap Def.var?, var.init.ty = var.ty) := by
  induction defs generalizing functions globals with
  | nil =>
      cases collected
      simp
  | cons first rest induction =>
      unfold collectDefs at collected
      split at collected
      · cases collected
      · rename_i accepted
        simp only [Bool.or_eq_true, not_or, Bool.not_eq_true] at accepted
        cases first with
        | var var =>
            simp only [bind_succeeds_iff, VarDef.check_init_succeeds_iff,
              Table.declare_succeeds_iff] at collected
            obtain ⟨_, init, larger, ⟨_, entries⟩, collected⟩ := collected
            obtain ⟨functionEntries, globalEntries, reserved, inits⟩ :=
              induction functions larger collected
            refine ⟨by simpa [List.filterMap_cons] using functionEntries, ?_, ?_, ?_⟩
            · simp [globalEntries, entries, VarDef.globalEntry]
            · simpa [accepted.1.1] using reserved
            · simpa [init] using inits
        | func func =>
            simp only [bind_succeeds_iff, Table.declare_succeeds_iff] at collected
            obtain ⟨larger, ⟨_, entries⟩, collected⟩ := collected
            obtain ⟨functionEntries, globalEntries, reserved, inits⟩ :=
              induction larger globals collected
            refine ⟨?_, by simpa [List.filterMap_cons] using globalEntries, ?_, ?_⟩
            · simp [functionEntries, entries, FuncDef.entry]
            · simpa [accepted.1.1] using reserved
            · simpa using inits

namespace FuncDef

/-- The variables that a function declares itself: its parameters with their positions, then its
locals. -/
def own (func : FuncDef) : List (String × Binding) :=
  (func.params.mapIdx fun index param => (param.name, ⟨param.ty, .param index⟩)) ++
    func.locals.map VarDef.localEntry

def ownNames (func : FuncDef) : List String :=
  func.params.map Param.name ++ func.locals.map VarDef.name

end FuncDef

theorem own_names (func : FuncDef) :
    func.own.map Prod.fst = func.params.map Param.name ++ func.locals.map VarDef.name := by
  rw [FuncDef.own, List.map_append, List.map_map]
  congr 1
  apply List.ext_getElem
  · simp
  · simp

theorem declare_params_succeeds (vars vars' : VarTable) (index : Nat) (params : List Param)
    (declared : declareParams vars index params = .ok vars') :
    vars'.entries = vars.entries ++
      params.mapIdx fun position param => (param.name, ⟨param.ty, .param (index + position)⟩) := by
  induction params generalizing vars index with
  | nil =>
      cases declared
      simp
  | cons first rest induction =>
      simp only [declareParams, bind_succeeds_iff, Table.declare_succeeds_iff] at declared
      obtain ⟨larger, ⟨_, entries⟩, declared⟩ := declared
      rw [induction larger (index + 1) declared, entries, List.mapIdx_cons, List.append_assoc]
      simp [Nat.add_assoc, Nat.add_comm 1]

theorem declare_locals_succeeds (vars vars' : VarTable) (locals : List VarDef)
    (declared : declareLocals vars locals = .ok vars') :
    vars'.entries = vars.entries ++ locals.map VarDef.localEntry ∧
      ∀ var ∈ locals, var.init.ty = var.ty := by
  induction locals generalizing vars with
  | nil =>
      cases declared
      simp
  | cons first rest induction =>
      simp only [declareLocals, bind_succeeds_iff, VarDef.check_init_succeeds_iff,
        Table.declare_succeeds_iff] at declared
      obtain ⟨_, init, larger, ⟨_, entries⟩, declared⟩ := declared
      obtain ⟨allEntries, inits⟩ := induction larger declared
      refine ⟨?_, ?_⟩
      · simp [allEntries, entries, VarDef.localEntry]
      · simpa [init] using inits

theorem vars_are_overlaid (func : FuncDef) (globals vars : VarTable)
    (succeeded : func.vars globals = .ok vars) :
    ∃ own : VarTable, own.entries = func.own ∧ (∀ var ∈ func.locals, var.init.ty = var.ty) ∧
      vars = globals.overlay own := by
  unfold FuncDef.vars at succeeded
  simp only [bind_succeeds_iff] at succeeded
  obtain ⟨params, declaredParams, own, declaredLocals, same⟩ := succeeded
  obtain ⟨entries, inits⟩ := declare_locals_succeeds params own func.locals declaredLocals
  refine ⟨own, ?_, inits, (Except.ok.inj same).symm⟩
  rw [entries, declare_params_succeeds .empty params 0 func.params declaredParams]
  simp [FuncDef.own, Table.empty]

/-- What a function sees: no name of its own is declared twice, its locals start with values of
their types, and its own names hide the globals. -/
theorem vars_succeeds (func : FuncDef) (globals vars : VarTable)
    (succeeded : func.vars globals = .ok vars) :
    (func.own.map Prod.fst).Nodup ∧ (∀ var ∈ func.locals, var.init.ty = var.ty) ∧
      ∀ name, vars.get? name = (Table.valueIn? name func.own).or (globals.get? name) := by
  obtain ⟨own, entries, inits, rfl⟩ := vars_are_overlaid func globals vars succeeded
  refine ⟨entries ▸ own.distinct, inits, fun name => ?_⟩
  rw [Table.get_overlay, Table.get?, entries]

def FuncDef.indexedParams (func : FuncDef) : List (Nat × String) :=
  func.params.mapIdx fun index param => (index, param.name)

namespace VarTable

def indexedParams (vars : VarTable) : List (Nat × String) :=
  vars.entries.filterMap fun (name, binding) => binding.paramIndex?.map fun index => (index, name)

theorem mem_indexed_params (vars : VarTable) (index : Nat) (name : String) :
    (index, name) ∈ vars.indexedParams ↔
      ∃ ty, vars.get? name = some ⟨ty, .param index⟩ := by
  simp only [indexedParams, List.mem_filterMap, Option.map_eq_some_iff, Prod.exists,
    Prod.mk.injEq, Table.get_eq_some_iff]
  constructor
  · rintro ⟨other, ⟨ty, storage⟩, member, position, found, rfl, rfl⟩
    cases storage with
    | global => cases found
    | «local» => cases found
    | param there =>
        cases found
        exact ⟨ty, member⟩
  · rintro ⟨ty, member⟩
    exact ⟨name, ⟨ty, .param index⟩, member, index, rfl, rfl, rfl⟩

theorem indexed_params_nodup (vars : VarTable) : vars.indexedParams.Nodup := by
  have names : vars.entries.Pairwise fun first second => first.1 ≠ second.1 :=
    List.pairwise_map.mp vars.distinct
  apply names.filterMap
  intro first second different entry found other foundOther same
  simp only [Option.map_eq_some_iff] at found foundOther
  obtain ⟨_, _, rfl⟩ := found
  obtain ⟨_, _, rfl⟩ := foundOther
  exact different (congrArg Prod.snd same)

end VarTable

theorem own_param_iff (func : FuncDef) (index : Nat) (name : String)
    (distinct : (func.own.map Prod.fst).Nodup) :
    (∃ ty, Table.valueIn? name func.own = some ⟨ty, .param index⟩) ↔
      (index, name) ∈ func.indexedParams := by
  simp only [Table.value_in_eq_some_iff name _ func.own distinct]
  simp only [FuncDef.own, FuncDef.indexedParams, List.mem_append, List.mem_mapIdx, List.mem_map,
    VarDef.localEntry, Prod.mk.injEq, Binding.mk.injEq, Storage.param.injEq, reduceCtorEq,
    and_false, exists_false, or_false]
  constructor
  · rintro ⟨ty, position, bound, rfl, _, rfl⟩
    exact ⟨position, bound, rfl, rfl⟩
  · rintro ⟨position, bound, rfl, rfl⟩
    exact ⟨_, position, bound, rfl, rfl, rfl⟩

theorem indexed_params_sorted (func : FuncDef) :
    func.indexedParams.Pairwise fun first second => first.1 < second.1 := by
  rw [List.pairwise_iff_getElem]
  intro first second firstBound secondBound before
  simpa [FuncDef.indexedParams] using before

/-- The parameters come back in the order of their declaration from every table in which the own
names of a function hide global ones, in whatever order the table lists its entries. -/
theorem param_names_of_lookup (func : FuncDef) (globals vars : VarTable)
    (distinct : (func.own.map Prod.fst).Nodup)
    (lookup : ∀ name, vars.get? name = (Table.valueIn? name func.own).or (globals.get? name))
    (outer : ∀ name binding, globals.get? name = some binding → binding.storage = .global) :
    vars.paramNames = func.params.map Param.name := by
  -- A name is listed as a parameter for its own binding only, since the bindings behind it are
  -- global.
  have members : ∀ index name,
      (index, name) ∈ vars.indexedParams ↔ (index, name) ∈ func.indexedParams := by
    intro index name
    rw [VarTable.mem_indexed_params, ← own_param_iff func index name distinct, lookup name]
    cases own : Table.valueIn? name func.own with
    | some binding => rfl
    | none =>
        constructor
        · rintro ⟨ty, found⟩
          cases outer name _ found
        · rintro ⟨ty, found⟩
          cases found
  have declaredSorted := indexed_params_sorted func
  have declaredNodup : func.indexedParams.Nodup :=
    declaredSorted.imp fun lower same => absurd (congrArg Prod.fst same) (Nat.ne_of_lt lower)
  have permutation : vars.indexedParams.Perm func.indexedParams :=
    (List.perm_ext_iff_of_nodup (VarTable.indexed_params_nodup vars) declaredNodup).mpr
      fun entry => members entry.1 entry.2
  -- The positions are distinct, so there is only one sorted list of these entries.
  have sorted : vars.indexedParams.mergeSort (fun first second => first.1 ≤ second.1) =
      func.indexedParams := by
    apply @List.Perm.eq_of_pairwise (Nat × String) fun first second => first.1 ≤ second.1
    · intro first second memberFirst memberSecond lower upper
      rw [List.mem_mergeSort] at memberFirst
      have memberFirst := permutation.subset memberFirst
      simp only [FuncDef.indexedParams, List.mem_mapIdx] at memberFirst memberSecond
      obtain ⟨index, bound, rfl⟩ := memberFirst
      obtain ⟨other, otherBound, rfl⟩ := memberSecond
      have same : index = other := Nat.le_antisymm lower upper
      subst same
      rfl
    · have sorted := @List.pairwise_mergeSort (Nat × String) (fun first second =>
        decide (first.1 ≤ second.1)) (by simp only [decide_eq_true_eq]; omega)
        (by simp only [Bool.or_eq_true, decide_eq_true_eq]; omega) vars.indexedParams
      simpa only [decide_eq_true_eq] using sorted
    · exact declaredSorted.imp Nat.le_of_lt
    · exact (List.mergeSort_perm _ _).trans permutation
  change (vars.indexedParams.mergeSort fun first second => first.1 ≤ second.1).map Prod.snd = _
  rw [sorted, FuncDef.indexedParams]
  apply List.ext_getElem
  · simp
  · simp

end ScriptWasm
