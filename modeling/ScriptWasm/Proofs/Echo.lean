import ScriptWasm.Proofs.Outcome

/-!
Two computations of which the second succeeds where the first does, with a related value. Nothing is
said where the first one fails.
-/

namespace ScriptWasm

set_option autoImplicit false

variable {Error First Second Result Other : Type}

def Echoes (related : First → Second → Prop) (first : Except Error First)
    (second : Except Error Second) : Prop :=
  ∀ value, first = .ok value → ∃ answer, second = .ok answer ∧ related value answer

variable {related : First → Second → Prop} {good : Result → Other → Prop}
variable {first : Except Error First} {second : Except Error Second}

theorem echoes_pure (value : First) (answer : Second) (holds : related value answer) :
    Echoes related (pure value : Except Error First) (pure answer) := by
  rintro _ ⟨⟩
  exact ⟨answer, rfl, holds⟩

theorem echoes_failure (error : Error) : Echoes related (.error error) second := nofun

theorem echoes_bind (next : First → Except Error Result) (nextAnswer : Second → Except Error Other)
    (heads : Echoes related first second)
    (tails : ∀ value answer, related value answer →
      Echoes good (next value) (nextAnswer answer)) :
    Echoes good (first >>= next) (second >>= nextAnswer) := by
  intro result run
  obtain ⟨value, ran, rest⟩ := (bind_succeeds_iff _ _ _).mp run
  obtain ⟨answer, answered, fits⟩ := heads value ran
  obtain ⟨other, finished, holds⟩ := tails value answer fits result rest
  exact ⟨other, (bind_succeeds_iff _ _ _).mpr ⟨answer, answered, finished⟩, holds⟩

theorem echoes_checked (next : Except Error Result) (nextAnswer : Except Error Other)
    (check recheck : Except Error Unit) (same : check = .ok () → recheck = .ok ())
    (tails : check = .ok () → Echoes good next nextAnswer) :
    Echoes good (check >>= fun _ => next) (recheck >>= fun _ => nextAnswer) := by
  intro result run
  obtain ⟨_, ran, rest⟩ := (bind_succeeds_iff _ _ _).mp run
  rw [same ran]
  exact tails ran result rest

theorem echoes_mono (weaker : First → Second → Prop) (echoes : Echoes related first second)
    (implies : ∀ value answer, related value answer → weaker value answer) :
    Echoes weaker first second := by
  intro value run
  obtain ⟨answer, answered, holds⟩ := echoes value run
  exact ⟨answer, answered, implies value answer holds⟩

end ScriptWasm
