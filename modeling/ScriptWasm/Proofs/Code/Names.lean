import ScriptWasm.Machine.Linear
import Mathlib.Data.List.Nodup

/-!
What a name in a module means when it has a meaning. The last declaration of a name is one that the
module has, and where no name is declared twice it is the only one.
-/

namespace ScriptWasm

set_option autoImplicit false

section Lists

variable {Value : Type} [DecidableEq Value]

theorem last_index_gives_value (value : Value) (list : List Value) (index : Nat)
    (found : lastIndex? value list = some index) : list[index]? = some value := by
  induction list generalizing index with
  | nil => cases found
  | cons first rest induction =>
      simp only [lastIndex?] at found
      split at found
      · rename_i later foundLater
        cases found
        exact induction later foundLater
      · split at found
        · rename_i same
          cases found
          simp [same]
        · cases found

theorem last_index_bound (value : Value) (list : List Value) (index : Nat)
    (found : lastIndex? value list = some index) : index < list.length :=
  (List.getElem?_eq_some_iff.mp (last_index_gives_value value list index found)).1

theorem last_index_exists (value : Value) (list : List Value) (member : value ∈ list) :
    ∃ index, lastIndex? value list = some index := by
  induction list with
  | nil => cases member
  | cons first rest induction =>
      simp only [lastIndex?]
      cases later : lastIndex? value rest with
      | some index => exact ⟨index + 1, rfl⟩
      | none =>
          rcases List.mem_cons.mp member with same | member
          · exact ⟨0, by simp [same]⟩
          · obtain ⟨index, found⟩ := induction member
            rw [found] at later
            cases later

theorem last_index_of_nodup (value : Value) (list : List Value) (distinct : list.Nodup)
    (index : Nat) (here : list[index]? = some value) : lastIndex? value list = some index := by
  obtain ⟨other, found⟩ := last_index_exists value list (List.mem_of_getElem? here)
  have there := last_index_gives_value value list other found
  obtain ⟨bound, atIndex⟩ := List.getElem?_eq_some_iff.mp here
  obtain ⟨otherBound, atOther⟩ := List.getElem?_eq_some_iff.mp there
  have same : other = index :=
    (List.Nodup.getElem_inj_iff distinct).mp (atOther.trans atIndex.symm)
  rw [found, same]

theorem last_index_absent (value : Value) (list : List Value) (absent : value ∉ list) :
    lastIndex? value list = none := by
  cases found : lastIndex? value list with
  | none => rfl
  | some index =>
      exact absurd (List.mem_of_getElem? (last_index_gives_value value list index found)) absent

end Lists

namespace Module

theorem slot_succeeds_iff (func : Func) (name : String) (slot : Nat) :
    slotOrError func name = .ok slot ↔ func.slot? name = some slot := by
  unfold slotOrError
  cases func.slot? name <;> simp

theorem global_succeeds_iff (module : Module) (name : String) (index : Nat) :
    module.globalOrError name = .ok index ↔ module.globalIndex? name = some index := by
  unfold globalOrError
  cases module.globalIndex? name <;> simp

theorem function_of_callee (module : Module) (name : String) (index : Nat)
    (callee : module.callee? name = some (.function index)) :
    ∃ func, module.allFunctions[index]? = some func := by
  unfold Module.callee? at callee
  split at callee
  · rename_i there found
    cases callee
    have inside := last_index_gives_value _ _ _ found
    rw [List.getElem?_map, Option.map_eq_some_iff] at inside
    obtain ⟨func, here, _⟩ := inside
    have bound := (List.getElem?_eq_some_iff.mp here).1
    exact ⟨func, by rw [Module.allFunctions, List.getElem?_append_left bound, here]⟩
  · cases primitive : HostImport.ofName? name with
    | none =>
        rw [primitive] at callee
        cases callee
    | some found =>
        rw [primitive] at callee
        cases callee

end Module

end ScriptWasm
