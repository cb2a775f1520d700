import Mathlib.Data.List.Forall2

/-!
A sequence of two computations that may fail succeeds exactly when both of them do. The same holds
for computations that carry a state along.
-/

namespace ScriptWasm

set_option autoImplicit false

variable {Error Value Result : Type}

theorem bind_succeeds_iff (first : Except Error Value) (next : Value → Except Error Result)
    (result : Result) :
    (first >>= next) = .ok result ↔ ∃ value, first = .ok value ∧ next value = .ok result := by
  cases first with
  | error error =>
      constructor
      · intro impossible
        cases impossible
      · rintro ⟨value, impossible, _⟩
        cases impossible
  | ok value =>
      constructor
      · intro finished
        exact ⟨value, rfl, finished⟩
      · rintro ⟨other, same, finished⟩
        cases same
        exact finished

@[simp] theorem ok_bind (value : Value) (next : Value → Except Error Result) :
    ((Except.ok value : Except Error Value) >>= next) = next value :=
  rfl

@[simp] theorem error_bind (error : Error) (next : Value → Except Error Result) :
    ((Except.error error : Except Error Value) >>= next) = .error error :=
  rfl

theorem pure_succeeds_iff (value result : Value) :
    (pure value : Except Error Value) = .ok result ↔ value = result := by
  constructor
  · intro same
    exact Except.ok.inj same
  · intro same
    rw [same]
    rfl

theorem is_ok_iff (computation : Except Error Value) :
    computation.isOk = true ↔ ∃ value, computation = .ok value := by
  cases computation with
  | error error => simp [Except.isOk, Except.toBool]
  | ok value => simp [Except.isOk, Except.toBool]

theorem to_option_eq_some_iff (computation : Except Error Value) (value : Value) :
    computation.toOption = some value ↔ computation = .ok value := by
  cases computation with
  | error error => simp [Except.toOption]
  | ok found => simp [Except.toOption]

def failure? : Except Error Value → Option Error
  | .error error => some error
  | .ok _ => none

theorem failure_eq_some_iff (computation : Except Error Value) (error : Error) :
    failure? computation = some error ↔ computation = .error error := by
  cases computation with
  | error found => simp [failure?]
  | ok value => simp [failure?]

theorem map_error_succeeds_iff {Other : Type} (computation : Except Error Value)
    (translate : Error → Other) (value : Value) :
    computation.mapError translate = .ok value ↔ computation = .ok value := by
  cases computation with
  | error error => simp [Except.mapError]
  | ok found => simp [Except.mapError]

theorem map_m_succeeds (compute : Value → Except Error Result)
    (list : List Value) (succeeds : ∀ value ∈ list, ∃ result, compute value = .ok result) :
    ∃ results, list.mapM compute = .ok results := by
  induction list with
  | nil => exact ⟨[], rfl⟩
  | cons first rest induction =>
      obtain ⟨head, headDone⟩ := succeeds first (by simp)
      obtain ⟨tail, tailDone⟩ := induction fun value member => succeeds value (by simp [member])
      exact ⟨head :: tail, by rw [List.mapM_cons, headDone, ok_bind, tailDone, ok_bind]; rfl⟩

theorem map_m_related (compute : Value → Except Error Result) (list : List Value)
    (results : List Result) (mapped : list.mapM compute = .ok results) :
    List.Forall₂ (fun value result => compute value = .ok result) list results := by
  induction list generalizing results with
  | nil =>
      cases mapped
      exact .nil
  | cons first rest induction =>
      simp only [List.mapM_cons, bind_succeeds_iff, pure_succeeds_iff] at mapped
      obtain ⟨head, headDone, tail, tailDone, rfl⟩ := mapped
      exact .cons headDone (induction tail tailDone)

section Failures

variable {allowed : Error → Prop}

/-- A computation that fails for no other reason than the allowed ones. -/
def FailsOnly (allowed : Error → Prop) : Except Error Value → Prop
  | .ok _ => True
  | .error error => allowed error

theorem fails_only_bind {first : Except Error Value} {next : Value → Except Error Result}
    (head : FailsOnly allowed first)
    (tail : ∀ value, first = .ok value → FailsOnly allowed (next value)) :
    FailsOnly allowed (first >>= next) := by
  cases first with
  | error error => exact head
  | ok value => exact tail value rfl

theorem fails_only_map_m (compute : Value → Except Error Result) (list : List Value)
    (each : ∀ value ∈ list, FailsOnly allowed (compute value)) :
    FailsOnly allowed (list.mapM compute) := by
  induction list with
  | nil => exact trivial
  | cons first rest induction =>
      rw [List.mapM_cons]
      refine fails_only_bind (each first (by simp)) fun head _ => ?_
      refine fails_only_bind (induction fun value member => each value (by simp [member])) ?_
      exact fun tail _ => trivial

end Failures

section Settles

variable {good : Value → Prop} {fine : Result → Prop} {allowed : Error → Prop}

/-- A computation that settles on a good result, or fails for one of the allowed reasons. -/
def Settles (good : Value → Prop) (allowed : Error → Prop) : Except Error Value → Prop
  | .ok value => good value
  | .error error => allowed error

theorem settles_bind {first : Except Error Value} {next : Value → Except Error Result}
    (head : Settles good allowed first)
    (tail : ∀ value, good value → Settles fine allowed (next value)) :
    Settles fine allowed (first >>= next) := by
  cases first with
  | error error => exact head
  | ok value => exact tail value head

theorem Settles.allow {more : Error → Prop} {computation : Except Error Value}
    (settles : Settles good allowed computation) (also : ∀ error, allowed error → more error) :
    Settles good more computation := by
  cases computation with
  | error error => exact also error settles
  | ok value => exact settles

theorem Settles.translate {Other : Type} {translate : Error → Other} {also : Other → Prop}
    {computation : Except Error Value} (settles : Settles good allowed computation)
    (each : ∀ error, allowed error → also (translate error)) :
    Settles good also (computation.mapError translate) := by
  cases computation with
  | error error => exact each error settles
  | ok value => exact settles

end Settles

section Tallies

variable {Answer Other : Type} {related : Value → Answer → Prop} {good : Result → Other → Prop}

/-- Two computations that come to related values, or fail for the same reason. -/
def Tallies (related : Value → Answer → Prop) : Except Error Value → Except Error Answer → Prop
  | .ok value, .ok answer => related value answer
  | .error error, .error same => same = error
  | _, _ => False

theorem tallies_bind {first : Except Error Value} {second : Except Error Answer}
    {next : Value → Except Error Result} {other : Answer → Except Error Other}
    (heads : Tallies related first second)
    (tails : ∀ value answer, first = .ok value → related value answer →
      Tallies good (next value) (other answer)) :
    Tallies good (first >>= next) (second >>= other) := by
  cases first with
  | error error =>
      cases second with
      | error same => exact heads
      | ok answer => exact heads.elim
  | ok value =>
      cases second with
      | error error => exact heads.elim
      | ok answer => exact tails value answer rfl heads

theorem tallies_eq {first : Except Error Value} {second : Except Error Answer}
    {result : Value → Answer}
    (tallies : Tallies (fun value answer => answer = result value) first second) :
    second = (do return result (← first)) := by
  cases first with
  | error error =>
      cases second with
      | error same => exact congrArg Except.error tallies
      | ok answer => exact tallies.elim
  | ok value =>
      cases second with
      | error error => exact tallies.elim
      | ok answer => exact congrArg Except.ok tallies

end Tallies

variable {State : Type}

theorem run_bind_succeeds_iff (first : StateT State (Except Error) Value)
    (next : Value → StateT State (Except Error) Result) (before after : State) (result : Result) :
    (first >>= next).run before = .ok (result, after) ↔
      ∃ value middle, first.run before = .ok (value, middle) ∧
        (next value).run middle = .ok (result, after) := by
  rw [StateT.run_bind, bind_succeeds_iff, Prod.exists]

theorem run_pure_succeeds_iff (value result : Value) (before after : State) :
    (pure value : StateT State (Except Error) Value).run before = .ok (result, after) ↔
      value = result ∧ before = after := by
  rw [StateT.run_pure, pure_succeeds_iff, Prod.mk.injEq]

theorem run_lift_succeeds_iff (computation : Except Error Value) (before after : State)
    (result : Value) :
    (liftM computation : StateT State (Except Error) Value).run before = .ok (result, after) ↔
      computation = .ok result ∧ before = after := by
  cases computation with
  | error error =>
      constructor
      · intro impossible
        cases impossible
      · rintro ⟨impossible, _⟩
        cases impossible
  | ok value =>
      constructor
      · intro same
        cases same
        exact ⟨rfl, rfl⟩
      · rintro ⟨same, rfl⟩
        cases same
        rfl

end ScriptWasm
