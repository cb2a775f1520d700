import ScriptWasm.Proofs.Machine.Control

/-!
Stretches of linear code. Control that is in the linear code of an instruction stays there until it
comes to its end, or leaves for the target of a branch out of the bodies around the instruction. So
control has to pass code without such branches as a whole.
-/

namespace ScriptWasm

set_option autoImplicit false

namespace LinearFunc

/-- A stretch of code that control leaves only at its end or to an exit, and that holds no
`unreachable`. -/
structure Stretch (func : LinearFunc) (exits : Nat → Prop) (here stop : Nat) : Prop where
  leads : ∀ position next, here ≤ position → position < stop → func.Leads position next →
    (here ≤ next ∧ next ≤ stop) ∨ exits next
  safe : ∀ position, here ≤ position → position < stop →
    func.code[position]? ≠ some .unreachable

variable {func : LinearFunc} {exits more : Nat → Prop} {here middle stop : Nat}

theorem stretch_empty : func.Stretch exits here here :=
  ⟨fun _ _ after before => absurd after (Nat.not_le_of_lt before),
    fun _ after before => absurd after (Nat.not_le_of_lt before)⟩

theorem stretch_single (instr : LinearInstr) (found : func.code[here]? = some instr)
    (safe : instr ≠ .unreachable)
    (leads : ∀ next, instr.Leads here next → next = here + 1 ∨ exits next) :
    func.Stretch exits here (here + 1) := by
  constructor
  · rintro position next after before ⟨other, there, lead⟩
    obtain rfl : position = here := by omega
    cases found.symm.trans there
    rcases leads next lead with rfl | isExit
    · exact .inl ⟨Nat.le_succ _, Nat.le_refl _⟩
    · exact .inr isExit
  · intro position after before trap
    obtain rfl : position = here := by omega
    exact safe (Option.some.inj (found.symm.trans trap))

theorem Stretch.append (first : func.Stretch exits here middle)
    (second : func.Stretch exits middle stop) (forward : here ≤ middle) (onward : middle ≤ stop) :
    func.Stretch exits here stop := by
  constructor
  · intro position next after before lead
    rcases Nat.lt_or_ge position middle with early | late
    · rcases first.leads position next after early lead with ⟨low, high⟩ | isExit
      · exact .inl ⟨low, high.trans onward⟩
      · exact .inr isExit
    · rcases second.leads position next late before lead with ⟨low, high⟩ | isExit
      · exact .inl ⟨forward.trans low, high⟩
      · exact .inr isExit
  · intro position after before
    rcases Nat.lt_or_ge position middle with early | late
    · exact first.safe position after early
    · exact second.safe position late before

theorem Stretch.close (stretch : func.Stretch exits here stop)
    (inside : ∀ next, exits next → (here ≤ next ∧ next ≤ stop) ∨ more next) :
    func.Stretch more here stop :=
  ⟨fun position next after before lead =>
    (stretch.leads position next after before lead).elim .inl (inside next), stretch.safe⟩

/-- The two arms of a condition may also jump to its end. -/
theorem stretch_cond (tests : func.code[here]? = some (.jumpIfZero (middle + 1)))
    (body : func.Stretch (fun next => next = stop ∨ exits next) (here + 1) middle)
    (jumps : func.code[middle]? = some (.jump stop))
    (orelse : func.Stretch (fun next => next = stop ∨ exits next) (middle + 1) stop)
    (forward : here + 1 ≤ middle) (onward : middle + 1 ≤ stop) : func.Stretch exits here stop := by
  suffices whole : func.Stretch
      (fun next => (here ≤ next ∧ next ≤ stop) ∨ exits next) here stop from
    whole.close fun _ => id
  have arm : ∀ next, next = stop ∨ exits next → (here ≤ next ∧ next ≤ stop) ∨ exits next :=
    fun next => Or.imp_left fun same => by omega
  have test : func.Stretch (fun next => (here ≤ next ∧ next ≤ stop) ∨ exits next) here
      (here + 1) :=
    stretch_single _ tests (by simp) fun next goes =>
      goes.elim (fun skips => .inr (.inl (by omega))) .inl
  have jump : func.Stretch (fun next => (here ≤ next ∧ next ≤ stop) ∨ exits next) middle
      (middle + 1) :=
    stretch_single _ jumps (by simp) fun next (goes : next = stop) => .inr (.inl (by omega))
  exact ((test.append (body.close fun next isExit => .inr (arm next isExit)) (Nat.le_succ _)
    forward).append jump (by omega) (Nat.le_succ _)).append
      (orelse.close fun next isExit => .inr (arm next isExit)) (by omega) onward

/-- Control that has to pass a stretch without exits stays before an end if it does behind it. -/
theorem Stretch.stays_before (stretch : func.Stretch (fun _ => False) here middle)
    (forward : here ≤ middle) (behind : func.StaysBefore stop middle) :
    func.StaysBefore stop here := by
  have bound : middle < stop := behind middle .refl
  apply stays_before_of_region (fun position => here ≤ position ∧ position ≤ middle)
    ⟨Nat.le_refl _, forward⟩ fun position inside => inside.2.trans_lt bound
  rintro position next ⟨after, before⟩ lead
  rcases before.lt_or_eq with early | rfl
  · rcases stretch.leads position next after early lead with inside | none
    · exact .inl inside
    · exact none.elim
  · exact .inr fun last path => behind last (.head lead path)

end LinearFunc

namespace Instr

theorem linear_sizes_append (first second : List Instr) :
    linearSizes (first ++ second) = linearSizes first + linearSizes second := by
  induction first with
  | nil => simp [linearSizes]
  | cons head tail induction => simp [linearSizes, induction, Nat.add_assoc]

theorem linear_all_append (module : Module) (func : Func) (targets : List Nat) (here : Nat)
    (first second : List Instr) (code : List LinearInstr) :
    module.linearAll func targets here (first ++ second) = .ok code ↔
      ∃ head tail, module.linearAll func targets here first = .ok head ∧
        module.linearAll func targets (here + linearSizes first) second = .ok tail ∧
        code = head ++ tail := by
  induction first generalizing here code with
  | nil =>
      simp only [List.nil_append, linearSizes, Nat.add_zero, Module.linearAll, pure_succeeds_iff]
      constructor
      · exact fun done => ⟨[], code, rfl, done, rfl⟩
      · rintro ⟨_, tail, rfl, done, rfl⟩
        exact done
  | cons instr rest induction =>
      simp only [List.cons_append, Module.linearAll, bind_succeeds_iff, pure_succeeds_iff,
        induction, linearSizes, Nat.add_assoc]
      constructor
      · rintro ⟨head, done, _, ⟨middle, tail, doneMiddle, doneTail, rfl⟩, rfl⟩
        exact ⟨head ++ middle, tail, ⟨head, done, middle, doneMiddle, rfl⟩, doneTail, by simp⟩
      · rintro ⟨_, tail, ⟨head, done, middle, doneMiddle, rfl⟩, doneTail, rfl⟩
        exact ⟨head, done, _, ⟨middle, tail, doneMiddle, doneTail, rfl⟩, by simp⟩

mutual

/-- Code without `unreachable` whose branches leave only bodies inside it and the given number of
bodies around it. -/
def Contained (bodies : Nat) : Instr → Prop
  | unreachable => False
  | branch depth | branchIf depth => depth < bodies
  | cond body orelse => AllContained (bodies + 1) body ∧ AllContained (bodies + 1) orelse
  | block body | loop body => AllContained (bodies + 1) body
  | const _ | localGet _ | localSet _ | globalGet _ | globalSet _ | call _ | binary _ | drop
  | ret => True

def AllContained (bodies : Nat) : List Instr → Prop
  | [] => True
  | first :: rest => Contained bodies first ∧ AllContained bodies rest

end

theorem all_contained_append (bodies : Nat) (first second : List Instr) :
    AllContained bodies (first ++ second) ↔
      AllContained bodies first ∧ AllContained bodies second := by
  induction first with
  | nil => simp [AllContained]
  | cons head tail induction => simp [AllContained, induction, and_assoc]

def Outward (targets : List Nat) (bodies next : Nat) : Prop :=
  ∃ depth < bodies, targets[depth]? = some next

theorem outward_cons (targets : List Nat) (bodies stop next : Nat)
    (outward : Outward (stop :: targets) (bodies + 1) next) :
    next = stop ∨ Outward targets bodies next := by
  obtain ⟨depth, bound, found⟩ := outward
  cases depth with
  | zero =>
      cases found
      exact .inl rfl
  | succ depth => exact .inr ⟨depth, Nat.lt_of_succ_lt_succ bound, found⟩

section Stretches

variable {module : Module} {func : Func} {linear : LinearFunc}

mutual

/-- The linear code of contained code is a stretch that is left by its outward branches only. -/
theorem stretch_of_contained (targets : List Nat) (bodies here : Nat) (instr : Instr)
    (piece : List LinearInstr) (lowered : module.linear func targets here instr = .ok piece)
    (holds : linear.Holds here piece) (contained : instr.Contained bodies) :
    linear.Stretch (Outward targets bodies) here (here + instr.linearSize) := by
  cases instr with
  | unreachable => cases contained
  | const _ | binary _ | drop =>
      cases lowered
      exact LinearFunc.stretch_single _ holds.fetched (by simp) fun _ => .inl
  | ret =>
      cases lowered
      exact LinearFunc.stretch_single _ holds.fetched (by simp) fun _ nowhere => nowhere.elim
  | localGet _ | localSet _ | globalGet _ | globalSet _ =>
      simp only [Module.linear, bind_succeeds_iff, pure_succeeds_iff] at lowered
      obtain ⟨place, found, rfl⟩ := lowered
      exact LinearFunc.stretch_single _ holds.fetched (by simp) fun _ => .inl
  | call name =>
      simp only [Module.linear] at lowered
      split at lowered <;> cases lowered <;>
        exact LinearFunc.stretch_single _ holds.fetched (by simp) fun _ => .inl
  | branch depth =>
      simp only [Module.linear, bind_succeeds_iff, Module.target_succeeds_iff, pure_succeeds_iff]
        at lowered
      obtain ⟨target, found, rfl⟩ := lowered
      exact LinearFunc.stretch_single _ holds.fetched (by simp)
        fun next goes => .inr ⟨depth, contained, goes ▸ found⟩
  | branchIf depth =>
      simp only [Module.linear, bind_succeeds_iff, Module.target_succeeds_iff, pure_succeeds_iff]
        at lowered
      obtain ⟨target, found, rfl⟩ := lowered
      exact LinearFunc.stretch_single _ holds.fetched (by simp)
        fun next goes => goes.elim (fun jumps => .inr ⟨depth, contained, jumps ▸ found⟩) .inl
  | block body =>
      refine (stretch_of_all_contained _ (bodies + 1) here body piece lowered holds contained).close
        fun next outward => (outward_cons _ _ _ _ outward).imp_left ?_
      rintro rfl
      exact ⟨Nat.le_add_right _ _, Nat.le_refl _⟩
  | loop body =>
      refine (stretch_of_all_contained _ (bodies + 1) here body piece lowered holds contained).close
        fun next outward => (outward_cons _ _ _ _ outward).imp_left ?_
      rintro rfl
      exact ⟨Nat.le_refl _, Nat.le_add_right _ _⟩
  | cond body orelse =>
      simp only [Module.linear, bind_succeeds_iff, pure_succeeds_iff] at lowered
      obtain ⟨first, firstDone, second, secondDone, rfl⟩ := lowered
      rw [List.cons_append, LinearFunc.holds_cons, LinearFunc.holds_append, LinearFunc.holds_cons,
        linear_all_length module func _ _ body first firstDone] at holds
      obtain ⟨tests, holdsFirst, jumps, holdsSecond⟩ := holds
      -- Both jumps of the condition stay inside: one goes to the second arm, the other behind it.
      have firstStretch := stretch_of_all_contained _ (bodies + 1) _ body first firstDone holdsFirst
        contained.1
      have secondStretch := stretch_of_all_contained _ (bodies + 1) _ orelse second secondDone
        holdsSecond contained.2
      have size : here + (cond body orelse).linearSize =
          here + 1 + linearSizes body + 1 + linearSizes orelse := by
        simp only [linearSize]
        omega
      rw [size]
      exact LinearFunc.stretch_cond tests
        (firstStretch.close fun next outward => .inr (outward_cons _ _ _ _ outward)) jumps
        (secondStretch.close fun next outward => .inr (outward_cons _ _ _ _ outward))
        (Nat.le_add_right _ _) (Nat.le_add_right _ _)
termination_by structural instr

theorem stretch_of_all_contained (targets : List Nat) (bodies here : Nat) (instrs : List Instr)
    (piece : List LinearInstr) (lowered : module.linearAll func targets here instrs = .ok piece)
    (holds : linear.Holds here piece) (contained : AllContained bodies instrs) :
    linear.Stretch (Outward targets bodies) here (here + linearSizes instrs) := by
  cases instrs with
  | nil => exact LinearFunc.stretch_empty
  | cons first rest =>
      simp only [Module.linearAll, bind_succeeds_iff, pure_succeeds_iff] at lowered
      obtain ⟨head, headDone, tail, tailDone, rfl⟩ := lowered
      rw [LinearFunc.holds_append, linear_length module func _ _ first head headDone] at holds
      have headStretch := stretch_of_contained targets bodies here first head headDone holds.1
        contained.1
      have tailStretch := stretch_of_all_contained targets bodies _ rest tail tailDone holds.2
        contained.2
      have whole := headStretch.append tailStretch (Nat.le_add_right _ _) (Nat.le_add_right _ _)
      rwa [Nat.add_assoc] at whole
termination_by structural instrs

end

end Stretches

end Instr

end ScriptWasm
