import ScriptWasm.Proofs.Machine.Stretches
import ScriptWasm.Proofs.Typing.Tails

/-!
Functions that must return do return. Where every tail position of a body holds a return, control
never comes to the end of the body, so the trap behind it is not run. A call of such a function
returns from its body or traps for a reason of its own, unless a call that it makes traps or it goes
on forever.
-/

namespace ScriptWasm

set_option autoImplicit false

namespace Expr

mutual

theorem code_contained (vars : VarTable) (bodies : Nat) (expr : Expr) :
    Instr.AllContained bodies (expr.code vars) := by
  cases expr with
  | lit note value | attr note value member | construct note className => 
      simp [code, Instr.AllContained, Instr.Contained]
  | name note word =>
      simp only [code, VarTable.load]
      split <;> exact ⟨trivial, trivial⟩
  | call note func args =>
      exact (Instr.all_contained_append _ _ _).mpr
        ⟨codes_contained vars bodies args, trivial, trivial⟩
  | binary note op left right =>
      have first := code_contained vars bodies left
      have second := code_contained vars bodies right
      simp only [code]
      split
      · simp [Instr.all_contained_append, first, second, Instr.AllContained, Instr.Contained]
      · simp [Instr.all_contained_append, first, Instr.AllContained, Instr.Contained]
  | unary note op operand =>
      have inner := code_contained vars bodies operand
      cases op <;>
        simp [code, Instr.all_contained_append, inner, Instr.AllContained, Instr.Contained]
  | paren note inner => exact code_contained vars bodies inner
termination_by structural expr

theorem codes_contained (vars : VarTable) (bodies : Nat) (args : List Expr) :
    Instr.AllContained bodies (codeAll vars args) := by
  cases args with
  | nil => trivial
  | cons first rest =>
      exact (Instr.all_contained_append _ _ _).mpr
        ⟨code_contained vars bodies first, codes_contained vars bodies rest⟩
termination_by structural args

end

end Expr

namespace Stmt

theorem store_contained (vars : VarTable) (bodies : Nat) (name : String) :
    (vars.store name).Contained bodies := by
  unfold VarTable.store
  split <;> trivial

mutual

/-- The branches of a loop leave its own bodies only. -/
theorem code_contained (vars : VarTable) (topLevel : Bool) (bodies : Nat) (stmt : Stmt) :
    Instr.AllContained bodies (stmt.code vars topLevel) := by
  cases stmt with
  | assign span target value =>
      exact (Instr.all_contained_append _ _ _).mpr
        ⟨value.code_contained vars bodies, store_contained vars bodies target, trivial⟩
  | expr span value =>
      refine (Instr.all_contained_append _ _ _).mpr
        ⟨value.code_contained vars bodies, ?_, trivial⟩
      cases topLevel <;> trivial
  | pass span | fieldAssign span object field value => trivial
  | ret span value =>
      exact (Instr.all_contained_append _ _ _).mpr
        ⟨value.code_contained vars bodies, trivial, trivial⟩
  | cond span test body orelse =>
      exact (Instr.all_contained_append _ _ _).mpr
        ⟨test.code_contained vars bodies, ⟨codes_contained vars topLevel (bodies + 1) body,
          codes_contained vars topLevel (bodies + 1) orelse⟩, trivial⟩
  | loop span test body =>
      have tested := test.code_contained vars (bodies + 2)
      have again := codes_contained vars topLevel (bodies + 2) body
      simp [code, Instr.all_contained_append, tested, again, Instr.AllContained, Instr.Contained]
termination_by structural stmt

theorem codes_contained (vars : VarTable) (topLevel : Bool) (bodies : Nat) (stmts : List Stmt) :
    Instr.AllContained bodies (codeAll vars topLevel stmts) := by
  cases stmts with
  | nil => trivial
  | cons first rest =>
      exact (Instr.all_contained_append _ _ _).mpr
        ⟨code_contained vars topLevel bodies first, codes_contained vars topLevel bodies rest⟩
termination_by structural stmts

end

end Stmt

def LinearFunc.Carries (linear : LinearFunc) (module : Module) (func : Func) (targets : List Nat)
    (here : Nat) (instrs : List Instr) : Prop :=
  ∃ piece, module.linearAll func targets here instrs = .ok piece ∧ linear.Holds here piece

section Carried

variable {module : Module} {func : Func} {linear : LinearFunc} {targets : List Nat}
  {here stop : Nat}

theorem carries_append (first second : List Instr) :
    linear.Carries module func targets here (first ++ second) ↔
      linear.Carries module func targets here first ∧
        linear.Carries module func targets (here + Instr.linearSizes first) second := by
  simp only [LinearFunc.Carries, Instr.linear_all_append]
  constructor
  · rintro ⟨_, ⟨head, tail, headDone, tailDone, rfl⟩, holds⟩
    rw [LinearFunc.holds_append, Instr.linear_all_length _ _ _ _ _ head headDone] at holds
    exact ⟨⟨head, headDone, holds.1⟩, tail, tailDone, holds.2⟩
  · rintro ⟨⟨head, headDone, holdsHead⟩, tail, tailDone, holdsTail⟩
    refine ⟨_, ⟨head, tail, headDone, tailDone, rfl⟩, ?_⟩
    rw [LinearFunc.holds_append, Instr.linear_all_length _ _ _ _ _ head headDone]
    exact ⟨holdsHead, holdsTail⟩

theorem stretch_of_carried (instrs : List Instr) (contained : Instr.AllContained 0 instrs)
    (carries : linear.Carries module func targets here instrs) :
    linear.Stretch (fun _ => False) here (here + Instr.linearSizes instrs) := by
  obtain ⟨piece, lowered, holds⟩ := carries
  have stretch := Instr.stretch_of_all_contained targets 0 here instrs piece lowered holds contained
  apply stretch.close
  rintro next ⟨depth, bound, _⟩
  exact absurd bound (Nat.not_lt_zero depth)

theorem passes_contained (instrs : List Instr) (contained : Instr.AllContained 0 instrs)
    (carries : linear.Carries module func targets here instrs)
    (behind : linear.StaysBefore stop (here + Instr.linearSizes instrs)) :
    linear.StaysBefore stop here :=
  (stretch_of_carried instrs contained carries).stays_before (Nat.le_add_right _ _) behind

/-- The positions in the linear form of a condition. -/
theorem carries_cond (body orelse : List Instr)
    (carries : linear.Carries module func targets here [.cond body orelse]) :
    ∃ stop, linear.code[here]? = some (.jumpIfZero (here + 1 + Instr.linearSizes body + 1)) ∧
      linear.Carries module func (stop :: targets) (here + 1) body ∧
      linear.Carries module func (stop :: targets) (here + 1 + Instr.linearSizes body + 1)
        orelse := by
  obtain ⟨piece, lowered, holds⟩ := carries
  simp only [Module.linearAll, Module.linear, bind_succeeds_iff, pure_succeeds_iff] at lowered
  obtain ⟨_, ⟨first, firstDone, second, secondDone, rfl⟩, _, rfl, rfl⟩ := lowered
  rw [List.append_nil, List.cons_append, LinearFunc.holds_cons, LinearFunc.holds_append,
    LinearFunc.holds_cons, Instr.linear_all_length module func _ _ body first firstDone] at holds
  obtain ⟨tests, holdsFirst, _, holdsSecond⟩ := holds
  exact ⟨_, tests, ⟨first, firstDone, holdsFirst⟩, second, secondDone, holdsSecond⟩

mutual

/-- Control that comes to a statement with a return in every tail position stays before its end. -/
theorem Stmt.returns_stay (vars : VarTable) (stmt : Stmt) (returns : stmt.Returns)
    (targets : List Nat) (here stop : Nat)
    (carries : linear.Carries module func targets here (stmt.code vars false))
    (bound : here + Instr.linearSizes (stmt.code vars false) ≤ stop) :
    linear.StaysBefore stop here := by
  -- A statement that returns on all paths is a return, or a condition both arms of which return.
  cases stmt with
  | assign _ _ _ | expr _ _ | pass _ | fieldAssign _ _ _ _ | loop _ _ _ => cases returns
  | ret span value =>
      obtain ⟨evaluates, piece, lowered, holds⟩ := (carries_append _ _).mp carries
      cases lowered
      have found := holds.fetched
      have size : (Instr.linearSizes ((ret span value).code vars false)) =
          Instr.linearSizes (value.code vars) + 1 := Instr.linear_sizes_append _ _
      refine passes_contained _ (value.code_contained vars 0) evaluates
        (LinearFunc.stays_before_of_leads (by omega) ?_)
      rintro next ⟨other, there, lead⟩
      cases found.symm.trans there
      cases lead
  | cond span test body orelse =>
      obtain ⟨evaluates, condition⟩ := (carries_append _ _).mp carries
      obtain ⟨_, found, first, second⟩ := carries_cond _ _ condition
      have size : (Instr.linearSizes ((cond span test body orelse).code vars false)) =
          Instr.linearSizes (test.code vars) +
            (Instr.linearSizes (Stmt.codeAll vars false body) +
              Instr.linearSizes (Stmt.codeAll vars false orelse) + 2) :=
        Instr.linear_sizes_append _ _
      refine passes_contained _ (test.code_contained vars 0) evaluates
        (LinearFunc.stays_before_of_leads (by omega) ?_)
      rintro next ⟨other, there, lead⟩
      cases found.symm.trans there
      rcases lead with rfl | rfl
      · exact Stmt.blocks_stay vars orelse returns.2 _ _ stop second (by omega)
      · exact Stmt.blocks_stay vars body returns.1 _ _ stop first (by omega)
termination_by structural stmt

theorem Stmt.blocks_stay (vars : VarTable) (stmts : List Stmt) (returns : Stmt.BlockReturns stmts)
    (targets : List Nat) (here stop : Nat)
    (carries : linear.Carries module func targets here (Stmt.codeAll vars false stmts))
    (bound : here + Instr.linearSizes (Stmt.codeAll vars false stmts) ≤ stop) :
    linear.StaysBefore stop here := by
  cases stmts with
  | nil => cases returns
  | cons first rest =>
      have later := fun returns => Stmt.blocks_stay vars rest returns targets
      have size : Instr.linearSizes (Stmt.codeAll vars false (first :: rest)) =
          Instr.linearSizes (first.code vars false) +
            Instr.linearSizes (Stmt.codeAll vars false rest) := Instr.linear_sizes_append _ _
      obtain ⟨head, tail⟩ := (carries_append _ _).mp carries
      cases rest with
      | nil => exact Stmt.returns_stay vars first returns targets here stop head (by omega)
      | cons second others =>
          exact passes_contained _ (first.code_contained vars false 0) head
            (later returns _ stop tail (by omega))
termination_by structural stmts

end

end Carried

theorem carries_body (module : Module) (func : Func) (linear : LinearFunc)
    (form : module.linearFunc func = .ok linear) :
    linear.Carries module func [Instr.linearSizes func.body] 0 func.body ∧
      linear.code[Instr.linearSizes func.body]? = some .ret ∧
      linear.code.size = Instr.linearSizes func.body + 1 := by
  simp only [Module.linear_func_eq, bind_succeeds_iff, pure_succeeds_iff] at form
  obtain ⟨code, done, rfl⟩ := form
  have size := Instr.linear_all_length _ _ _ _ _ code done
  refine ⟨⟨code, done, fun index instr found => ?_⟩, ?_, ?_⟩
  · simp [List.getElem?_append_left (List.getElem?_eq_some_iff.mp found).1, found]
  · simp [← size]
  · simp [size]

theorem FuncDef.init_code_contained (func : FuncDef) :
    Instr.AllContained 0 func.initCode := by
  unfold FuncDef.initCode
  induction func.locals with
  | nil => trivial
  | cons var rest induction => exact ⟨trivial, trivial, induction⟩

/-- In the linear form of a compiled function that returns in every tail position, control does not
come to the trap behind the body, and there is no trap before. -/
theorem compiled_function_returns (module : Module) (func : FuncDef) (vars : VarTable)
    (linear : LinearFunc) (form : module.linearFunc (func.compiled vars) = .ok linear)
    (returns : Stmt.BlockReturns func.body) :
    ∃ stop, linear.code.size = stop + 3 ∧ linear.code[stop]? = some .unreachable ∧
      (∀ position, linear.Reaches position → position < stop) ∧
      ∀ position < stop, linear.code[position]? ≠ some .unreachable := by
  obtain ⟨carries, _, size⟩ := carries_body module _ linear form
  have body : (func.compiled vars).body =
      func.initCode ++ Stmt.codeAll vars false func.body ++ [.unreachable, .const 0] := rfl
  rw [body, carries_append] at carries
  obtain ⟨inside, piece, lowered, holds⟩ := carries
  cases lowered
  have contained := (Instr.all_contained_append 0 _ _).mpr
    ⟨func.init_code_contained, Stmt.codes_contained vars false 0 func.body⟩
  have stretch := stretch_of_carried _ contained inside
  rw [Nat.zero_add] at stretch holds
  refine ⟨_, ?_, holds.fetched, ?_,
    fun position before => stretch.safe position (Nat.zero_le _) before⟩
  · rw [size, body, Instr.linear_sizes_append]
    rfl
  · obtain ⟨inits, stmts⟩ := (carries_append _ _).mp inside
    refine passes_contained _ func.init_code_contained inits
      (Stmt.blocks_stay vars func.body returns _ _ _ stmts ?_)
    rw [Instr.linear_sizes_append, Nat.zero_add]

theorem entry_is_safe (module : Module) (globals : VarTable) (stmts : List Stmt)
    (linear : LinearFunc) (form : module.linearFunc (entryFunc globals stmts) = .ok linear) :
    linear.Safe := by
  obtain ⟨carries, last, size⟩ := carries_body module _ linear form
  have contained : Instr.AllContained 0 (entryFunc globals stmts).body := by
    have inner := Stmt.codes_contained globals true 0 stmts
    simp [entryFunc, Instr.all_contained_append, inner, Instr.AllContained, Instr.Contained]
  have stretch := stretch_of_carried _ contained carries
  rw [Nat.zero_add] at stretch
  intro position _ trap
  rcases Nat.lt_trichotomy position (Instr.linearSizes (entryFunc globals stmts).body) with
    before | rfl | behind
  · exact stretch.safe position (Nat.zero_le _) before trap
  · cases last.symm.trans trap
  · have bound := (Array.getElem?_eq_some_iff.mp trap).1
    omega

/-- In all steps of a run no frame of a function comes to the end of the body at `stop`, and every
call of the function stays open or ends before it. -/
structure Run.ReturnsFrom (run : Run) (func : LinearFunc) (stop : Nat) : Prop where
  inside : ∀ steps state, run.advance steps = .running state →
    ∀ frame ∈ state.frames, frame.func = func → frame.position < stop
  calls : ∀ steps state, run.advance steps = .running state → state.frame.func = func →
    ∀ more, state.CallComesTo stop more

theorem Run.returns_from {run : Run} (sound : run.Sound) (placed : run.Placed) (func : LinearFunc)
    (stop : Nat) (inside : ∀ position, func.Reaches position → position < stop)
    (safe : ∀ position < stop, func.code[position]? ≠ some .unreachable) :
    run.ReturnsFrom func stop := by
  constructor
  · rintro steps state advanced frame member rfl
    exact inside _ (placed.advanced steps state advanced frame member)
  · rintro steps state advanced rfl more
    have kept := sound.advance_kept steps
    rw [advanced] at kept
    exact kept.1.call_comes_to (placed.advanced steps state advanced) stop inside safe more

section Programs

variable {program : Program} {analysis : Analysis} {code : LinearModule}

theorem function_has_linear_form (linearized : analysis.compiled.linearize = .ok code)
    (index : Nat) (func : FuncDef) (found : analysis.program.funcs[index]? = some func) :
    ∃ linear, code.functions[index]? = some linear ∧
      analysis.compiled.linearFunc (func.compiled (analysis.scopeOf func)) = .ok linear := by
  apply linearized_functions analysis.compiled code linearized index
  have bound := (List.getElem?_eq_some_iff.mp found).1
  rw [Module.allFunctions, List.getElem?_append_left (by simpa [Analysis.compiled] using bound)]
  simp [Analysis.compiled, found]

theorem must_return_stays (analysed : program.analyze = .ok analysis)
    (linearized : analysis.compiled.linearize = .ok code) (index : Nat) (func : FuncDef)
    (found : program.funcs[index]? = some func) (must : func.MustReturn) :
    ∃ linear stop, code.functions[index]? = some linear ∧ linear.code.size = stop + 3 ∧
      linear.code[stop]? = some .unreachable ∧
      (∀ position, linear.Reaches position → position < stop) ∧
      ∀ position < stop, linear.code[position]? ≠ some .unreachable := by
  have wellTyped :=
    analyze_well_typed program analysis analysed func (List.mem_of_getElem? found)
  obtain ⟨typed, place, same⟩ := found_but_for_annotations _ _
    (analyze_funcs program analysis analysed).symm index func found
  obtain ⟨linear, present, form⟩ := function_has_linear_form linearized index typed place
  obtain ⟨stop, facts⟩ := compiled_function_returns analysis.compiled typed _ linear form
    (same.mpr (must.returns wellTyped))
  exact ⟨linear, stop, present, facts⟩

theorem function_count (analysed : program.analyze = .ok analysis) :
    analysis.compiled.functions.length = program.funcs.length := by
  have lengths := congrArg List.length (analyze_funcs program analysis analysed)
  rw [List.length_map, List.length_map] at lengths
  rw [Analysis.compiled, List.length_map, lengths]

theorem other_functions_are_safe (analysed : program.analyze = .ok analysis)
    (linearized : analysis.compiled.linearize = .ok code) (index : Nat) (linear : LinearFunc)
    (behind : program.funcs.length ≤ index) (present : code.functions[index]? = some linear) :
    linear.Safe := by
  rw [← function_count analysed] at behind
  cases found : analysis.compiled.allFunctions[index]? with
  | none =>
      rw [linearized_functions_absent analysis.compiled code linearized index found] at present
      cases present
  | some func =>
      obtain ⟨_, presentToo, form⟩ :=
        linearized_functions analysis.compiled code linearized index func found
      cases present.symm.trans presentToo
      rw [Module.allFunctions, List.getElem?_append_right behind] at found
      cases List.mem_singleton.mp (List.mem_of_getElem? found)
      exact entry_is_safe analysis.compiled _ _ linear form

/-- A run of the entry of an analysed program, whatever calls came before, is sound. It begins at the
start of a safe function, with a single frame. -/
theorem entry_run_begins (analysed : program.analyze = .ok analysis)
    (linearized : analysis.compiled.linearize = .ok code) {loaded machine : Machine}
    (sameCode : loaded.code = code) (sound : loaded.Sound) (reached : loaded.Reached machine)
    {run : Run} (starts : machine.start entryExport [] = .ok run) :
    run.Sound ∧ run.code = code ∧ run.frame.position = 0 ∧ run.callers = [] ∧
      run.frame.func.Safe := by
  subst sameCode
  obtain ⟨soundMachine, sameCode, _⟩ := reached.kept sound linearized
  rw [← sameCode] at linearized
  have started := soundMachine.start_kept linearized
  rw [starts] at started
  obtain ⟨soundRun, runCode, _⟩ := started
  obtain ⟨entered, start, alone⟩ := Machine.started_run
    (entry_exported analysis machine.code linearized) starts
  exact ⟨soundRun, runCode.trans sameCode, start, alone, other_functions_are_safe analysed linearized
    _ _ (function_count analysed).ge entered⟩

end Programs

/-- In an analysed program without objects among its parameters and results, a function that must
return does. However many frames may be open and whatever calls of the entry came before, no run of
the entry comes to the trap behind the body of the function. Every call of the function returns from
its body, traps for another reason, ends by a trap in a call that it makes, or stays open forever. A
run that calls only such functions does not end because code was reached which must not be. -/
theorem functions_that_must_return_do_return (program : Program) (analysis : Analysis)
    (analysed : program.analyze = .ok analysis) (plain : program.Plain) :
    ∃ module, analysis.generate = .ok module ∧ ∀ limit, ∃ loaded,
      Machine.load module limit = .ok loaded ∧ ∀ machine, loaded.Reached machine →
        ∀ run, machine.start entryExport [] = .ok run →
          (∀ (index : Nat) (func : FuncDef), program.funcs[index]? = some func →
            func.MustReturn → ∃ (linear : LinearFunc) (stop : Nat),
              run.code.functions[index]? = some linear ∧ linear.code.size = stop + 3 ∧
                linear.code[stop]? = some .unreachable ∧ run.ReturnsFrom linear stop) ∧
          ((∀ (before : Nat) (state : Run) (index : Nat) (func : FuncDef),
              run.advance before = .running state → state.fetched = some (.call index) →
              program.funcs[index]? = some func → func.MustReturn) →
            ∀ steps store, run.advance steps ≠ .finished (.error .unreachable) store) := by
  obtain ⟨typed, _, _⟩ := analyze_typed program analysis analysed
  have plainAfter := analyze_plain program analysis analysed plain
  obtain ⟨code, linearized⟩ :=
    linearize_of_resolved analysis.compiled (typed.compiled_resolved plainAfter)
  have measured := measured_of_linearize analysis.compiled code linearized
    (typed.compiled_valid plainAfter)
  refine ⟨analysis.compiled, generate_typed analysis typed plainAfter, fun limit =>
    ⟨⟨code, limit, ⟨(code.globals.map Prod.snd).toArray, #[]⟩⟩, ?_,
      fun machine reached run starts => ?_⟩⟩
  · simp only [Machine.load, linearized, ok_bind]
    rfl
  · obtain ⟨sound, rfl, start, alone, safeEntry⟩ :=
      entry_run_begins analysed linearized rfl ⟨measured, by simp⟩ reached starts
    have placed : run.Placed := Run.each_of_start _ start alone .refl
    constructor
    · intro index func found must
      obtain ⟨linear, stop, present, size, trap, inside, safe⟩ :=
        must_return_stays analysed linearized index func found must
      exact ⟨linear, stop, present, size, trap,
        Run.returns_from sound placed linear stop inside safe⟩
    -- A run that calls such functions only comes to no unreachable, neither in the entry nor in
    -- what it calls.
    · intro called
      apply sound.never_unreachable placed (Run.each_of_start _ start alone safeEntry)
      intro before state index callee advanced fetched present
      cases found : program.funcs[index]? with
      | none =>
          exact other_functions_are_safe analysed linearized index callee
            (List.getElem?_eq_none_iff.mp found) present
      | some func =>
          obtain ⟨linear, stop, presentToo, _, _, inside, safe⟩ := must_return_stays analysed
            linearized index func found (called before state index func advanced fetched found)
          cases present.symm.trans presentToo
          exact fun position reached => safe position (inside position reached)

def earlyReturnSource : List Char :=
  ("def f(n: int) -> int:\n    while n > 1:\n        return n\n" ++
    "    if n == 1:\n        return 5\n    else:\n        return 0\nf(2)\n").toList

theorem early_returns_do_return :
    ∃ program analysis module loaded run, Program.ofSource earlyReturnSource = .ok program ∧
      program.analyze = .ok analysis ∧ program.Plain ∧ program.funcs.length = 1 ∧
      (∀ func ∈ program.funcs, func.MustReturn) ∧ analysis.generate = .ok module ∧
      Machine.load module 5 = .ok loaded ∧ loaded.start entryExport [] = .ok run ∧
      (∃ linear stop, run.code.functions[0]? = some linear ∧
        linear.code[stop]? = some .unreachable ∧ run.ReturnsFrom linear stop) ∧
      ∀ steps store, run.advance steps ≠ .finished (.error .unreachable) store := by
  have computed : ((Program.ofSource earlyReturnSource).toOption.bind fun program =>
      program.analyze.toOption.bind fun analysis => analysis.generate.toOption.bind fun module =>
        (Machine.load module 5).toOption.bind fun loaded =>
          (loaded.start entryExport []).toOption.map fun _ =>
            (program.funcs.length, program.funcs.all fun func => decide func.MustReturn)) =
      some (1, true) := by
    decide +kernel
  simp only [Option.bind_eq_some_iff, Option.map_eq_some_iff, to_option_eq_some_iff, Prod.mk.injEq]
    at computed
  obtain ⟨program, read, analysis, analysed, module, generated, loaded, load, run, starts, single,
    kinds⟩ := computed
  have plain := program_of_source_plain _ program read
  have must : ∀ func ∈ program.funcs, func.MustReturn := by simpa using kinds
  obtain ⟨other, generatedToo, machines⟩ :=
    functions_that_must_return_do_return program analysis analysed plain
  cases generated.symm.trans generatedToo
  obtain ⟨loadedToo, loadToo, safe⟩ := machines 5
  cases load.symm.trans loadToo
  obtain ⟨returns, never⟩ := safe loaded .loaded run starts
  obtain ⟨linear, stop, present, _, trap, returnsFrom⟩ :=
    returns 0 program.funcs[0] (List.getElem?_eq_getElem _) (must _ (List.getElem_mem _))
  exact ⟨program, analysis, module, loaded, run, read, analysed, plain, single, must, generated,
    load, starts, ⟨linear, stop, present, trap, returnsFrom⟩,
    never fun _ _ _ func _ _ found => must func (List.mem_of_getElem? found)⟩

end ScriptWasm
