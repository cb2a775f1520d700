import ScriptWasm.Machine.Linear
import ScriptWasm.Proofs.Outcome

/-!
What the translation to linear code comes to. The number of linear instructions of a structured one
is known beforehand, so the linear code of a body can be given with all its targets at once. The
translation gives the same code and fails for the same reasons: if every jump that waits is pointed
at the target of its label, each instruction adds just the code that it has by itself.
-/

namespace ScriptWasm

set_option autoImplicit false

namespace Instr

mutual

def linearSize : Instr → Nat
  | cond body orelse => linearSizes body + linearSizes orelse + 2
  | block body => linearSizes body
  | loop body => linearSizes body
  | _ => 1

def linearSizes : List Instr → Nat
  | [] => 0
  | first :: rest => linearSize first + linearSizes rest

end

end Instr

namespace Module

def targetOrError (targets : List Nat) (depth : Nat) : Except RuntimeError Nat :=
  match targets[depth]? with
  | some target => .ok target
  | none => .error (.invalidBranch depth)

theorem target_succeeds_iff (targets : List Nat) (depth target : Nat) :
    targetOrError targets depth = .ok target ↔ targets[depth]? = some target := by
  unfold targetOrError
  cases targets[depth]? <;> simp

mutual

/-- The linear code of an instruction that starts at the position `here`. A branch to a condition or
a block goes past its end, and a branch to a loop goes to its start. -/
def linear (module : Module) (func : Func) (targets : List Nat) (here : Nat) :
    Instr → Except RuntimeError (List LinearInstr)
  | .const value => return [.const value]
  | .localGet name => return [.localGet (← slotOrError func name)]
  | .localSet name => return [.localSet (← slotOrError func name)]
  | .globalGet name => return [.globalGet (← module.globalOrError name)]
  | .globalSet name => return [.globalSet (← module.globalOrError name)]
  | .call name =>
      match module.callee? name with
      | some (.function index) => return [.call index]
      | some (.primitive primitive) => return [.callHost primitive]
      | none => .error (.unknownFunction name)
  | .binary op => return [.binary op]
  | .drop => return [.drop]
  | .ret => return [.ret]
  | .unreachable => return [.unreachable]
  | .cond body orelse => do
      let otherwise := here + 1 + Instr.linearSizes body + 1
      let stop := otherwise + Instr.linearSizes orelse
      let body ← linearAll module func (stop :: targets) (here + 1) body
      let orelse ← linearAll module func (stop :: targets) otherwise orelse
      return .jumpIfZero otherwise :: body ++ .jump stop :: orelse
  | .block body => linearAll module func ((here + Instr.linearSizes body) :: targets) here body
  | .loop body => linearAll module func (here :: targets) here body
  | .branch depth => return [.jump (← targetOrError targets depth)]
  | .branchIf depth => return [.jumpUnlessZero (← targetOrError targets depth)]

def linearAll (module : Module) (func : Func) (targets : List Nat) (here : Nat) :
    List Instr → Except RuntimeError (List LinearInstr)
  | [] => return []
  | first :: rest => do
      let code ← linear module func targets here first
      return code ++ (← linearAll module func targets (here + first.linearSize) rest)

end

end Module

namespace Instr

mutual

theorem linear_length (module : Module) (func : Func) (targets : List Nat) (here : Nat)
    (instr : Instr) (code : List LinearInstr)
    (linear : module.linear func targets here instr = .ok code) :
    code.length = instr.linearSize := by
  cases instr with
  | cond body orelse =>
      simp only [Module.linear, bind_succeeds_iff, pure_succeeds_iff] at linear
      obtain ⟨first, firstDone, second, secondDone, rfl⟩ := linear
      have firstLength := linear_all_length module func _ _ body first firstDone
      have secondLength := linear_all_length module func _ _ orelse second secondDone
      simp only [List.cons_append, List.length_cons, List.length_append, linearSize]
      omega
  | block body =>
      rw [Module.linear] at linear
      exact linear_all_length module func _ _ body code linear
  | loop body =>
      rw [Module.linear] at linear
      exact linear_all_length module func _ _ body code linear
  | call name =>
      rw [Module.linear] at linear
      split at linear <;> cases linear <;> rfl
  | localGet name | localSet name | globalGet name | globalSet name | branch depth
    | branchIf depth =>
      simp only [Module.linear, bind_succeeds_iff, pure_succeeds_iff] at linear
      obtain ⟨_, _, rfl⟩ := linear
      rfl
  | const value | binary op | drop | ret | unreachable =>
      cases linear
      rfl
termination_by structural instr

theorem linear_all_length (module : Module) (func : Func) (targets : List Nat) (here : Nat)
    (instrs : List Instr) (code : List LinearInstr)
    (linear : module.linearAll func targets here instrs = .ok code) :
    code.length = linearSizes instrs := by
  cases instrs with
  | nil =>
      cases linear
      rfl
  | cons first rest =>
      simp only [Module.linearAll, bind_succeeds_iff, pure_succeeds_iff] at linear
      obtain ⟨head, headDone, tail, tailDone, rfl⟩ := linear
      rw [List.length_append, linear_length module func _ _ first head headDone,
        linear_all_length module func _ _ rest tail tailDone]
      rfl
termination_by structural instrs

end

end Instr

/-! ### Jumps that wait -/

def Label.patches : Label → List Nat
  | forward patches => patches
  | loop _ => []

/-- Points the jumps at the given positions at a target. -/
def retargetAll (target : Nat) (patches : List Nat) (code : List LinearInstr) : List LinearInstr :=
  patches.foldl (fun code position => code.modify position (.retarget target)) code

/-- The code in which no jump waits any more, where the targets of the labels are given. -/
def settle : List Label → List Nat → List LinearInstr → List LinearInstr
  | label :: labels, target :: targets, code =>
      settle labels targets (retargetAll target label.patches code)
  | _, _, code => code

section Code

theorem modify_before_end (change : LinearInstr → LinearInstr) (code later : List LinearInstr)
    (position : Nat) (bound : position < code.length) :
    (code ++ later).modify position change = code.modify position change ++ later := by
  have within : position ≤ code.length := Nat.le_of_lt bound
  rw [List.modify_eq_take_drop, List.modify_eq_take_drop, List.take_append_of_le_length within,
    List.drop_append_of_le_length within, List.append_assoc]
  cases parts : code.drop position with
  | nil => exact absurd (List.drop_eq_nil_iff.mp parts) (Nat.not_le.mpr bound)
  | cons head tail => rfl

variable (instr : LinearInstr) (change : LinearInstr → LinearInstr)

theorem modify_at_length (code later : List LinearInstr) :
    (code ++ instr :: later).modify code.length change = code ++ change instr :: later := by
  rw [List.modify_eq_take_drop, List.take_left, List.drop_left]
  rfl

variable (target : Nat)

theorem retarget_all_cons (position : Nat) (patches : List Nat) (code : List LinearInstr) :
    retargetAll target (position :: patches) code =
      retargetAll target patches (code.modify position (.retarget target)) :=
  rfl

theorem retarget_all_concat (patches : List Nat) (position : Nat) (code : List LinearInstr) :
    retargetAll target (patches ++ [position]) code =
      (retargetAll target patches code).modify position (.retarget target) :=
  List.foldl_concat _ _ _ _

theorem retarget_all_length (patches : List Nat) (code : List LinearInstr) :
    (retargetAll target patches code).length = code.length := by
  induction patches generalizing code with
  | nil => rfl
  | cons position rest induction => rw [retarget_all_cons, induction, List.length_modify]

theorem retarget_all_append (patches : List Nat) (code : List LinearInstr)
    (bound : ∀ position ∈ patches, position < code.length) :
    retargetAll target patches (code ++ [instr]) = retargetAll target patches code ++ [instr] := by
  induction patches generalizing code with
  | nil => rfl
  | cons position rest induction =>
      obtain ⟨first, others⟩ := List.forall_mem_cons.mp bound
      rw [retarget_all_cons, retarget_all_cons, modify_before_end _ code [instr] position first]
      apply induction
      rw [List.length_modify]
      exact others

theorem retarget_all_modify (patches : List Nat) (code : List LinearInstr) (position : Nat)
    (elsewhere : position ∉ patches) :
    retargetAll target patches (code.modify position change) =
      (retargetAll target patches code).modify position change := by
  induction patches generalizing code with
  | nil => rfl
  | cons first rest induction =>
      rw [List.mem_cons, not_or] at elsewhere
      rw [retarget_all_cons, retarget_all_cons, List.modify_modify_ne _ _ _ elsewhere.1,
        induction _ elsewhere.2]

end Code

/-- A label whose jumps were all written, and that goes to the target if it is a loop. -/
structure Label.Fits (size : Nat) (label : Label) (target : Nat) : Prop where
  written : ∀ position ∈ label.patches, position < size
  known : ∀ start, label = .loop start → start = target

/-- A label to which the code from `start` up to `stop` may have added jumps that wait. -/
structure Label.Grows (start stop : Nat) (before after : Label) : Prop where
  added : ∀ position ∈ after.patches,
    position ∈ before.patches ∨ start ≤ position ∧ position < stop
  kept : ∀ position, after = .loop position ↔ before = .loop position

theorem fits_of_grown {start stop : Nat} (later : start ≤ stop) {before after : List Label}
    (grown : List.Forall₂ (Label.Grows start stop) before after) {targets : List Nat}
    (fits : List.Forall₂ (Label.Fits start) before targets) :
    List.Forall₂ (Label.Fits stop) after targets := by
  induction grown generalizing targets with
  | nil =>
      cases fits
      exact .nil
  | cons grows _ induction =>
      cases fits with
      | cons fits others =>
          refine .cons ⟨?_, ?_⟩ (induction others)
          · intro position member
            rcases grows.added position member with earlier | between
            · exact Nat.lt_of_lt_of_le (fits.written position earlier) later
            · exact between.2
          · intro start isLoop
            exact fits.known start ((grows.kept start).mp isLoop)

theorem grown_by_nothing (start stop : Nat) (labels : List Label) :
    List.Forall₂ (Label.Grows start stop) labels labels :=
  List.forall₂_same.mpr fun _ _ => ⟨fun _ member => .inl member, fun _ => .rfl⟩

theorem grown_trans {start middle stop : Nat} (first : start ≤ middle) (second : middle ≤ stop)
    {before between after : List Label}
    (grown : List.Forall₂ (Label.Grows start middle) before between)
    (further : List.Forall₂ (Label.Grows middle stop) between after) :
    List.Forall₂ (Label.Grows start stop) before after := by
  induction grown generalizing after with
  | nil =>
      cases further
      exact .nil
  | cons grows _ induction =>
      cases further with
      | cons growsOn others =>
          refine .cons ⟨?_, fun position => (growsOn.kept position).trans (grows.kept position)⟩
            (induction others)
          intro position member
          rcases growsOn.added position member with old | new
          · rcases grows.added position old with older | newer
            · exact .inl older
            · exact .inr ⟨newer.1, Nat.lt_of_lt_of_le newer.2 second⟩
          · exact .inr ⟨Nat.le_trans first new.1, new.2⟩

theorem grown_by_registering {start stop position depth : Nat} {labels : List Label}
    {patches : List Nat} (found : labels[depth]? = some (.forward patches))
    (within : start ≤ position ∧ position < stop) :
    List.Forall₂ (Label.Grows start stop) labels
      (labels.set depth (.forward (patches ++ [position]))) := by
  induction labels generalizing depth with
  | nil => exact .nil
  | cons label labels induction =>
      cases depth with
      | zero =>
          cases found
          refine .cons ⟨?_, fun _ => ⟨nofun, nofun⟩⟩ (grown_by_nothing _ _ _)
          intro other member
          rcases List.mem_append.mp member with earlier | last
          · exact .inl earlier
          · exact .inr (List.mem_singleton.mp last ▸ within)
      | succ depth =>
          rw [List.set_cons_succ]
          exact .cons ⟨fun _ member => .inl member, fun _ => .rfl⟩ (induction found)

section Settling

variable {labels : List Label} {targets : List Nat} {code : List LinearInstr}

theorem settle_length : (settle labels targets code).length = code.length := by
  induction labels generalizing targets code with
  | nil => rfl
  | cons label labels induction =>
      cases targets with
      | nil => rfl
      | cons target targets => rw [settle, induction, retarget_all_length]

theorem settle_append (fits : List.Forall₂ (Label.Fits code.length) labels targets)
    (instr : LinearInstr) :
    settle labels targets (code ++ [instr]) = settle labels targets code ++ [instr] := by
  induction labels generalizing targets code with
  | nil => rfl
  | cons label labels induction =>
      cases fits with
      | cons fits others =>
          rw [settle, settle, retarget_all_append _ _ _ _ fits.written]
          apply induction
          rw [retarget_all_length]
          exact others

theorem settle_modify (position : Nat) (change : LinearInstr → LinearInstr)
    (elsewhere : ∀ label ∈ labels, position ∉ label.patches) :
    settle labels targets (code.modify position change) =
      (settle labels targets code).modify position change := by
  induction labels generalizing targets code with
  | nil => rfl
  | cons label labels induction =>
      obtain ⟨here, others⟩ := List.forall_mem_cons.mp elsewhere
      cases targets with
      | nil => rfl
      | cons target targets =>
          rw [settle, settle, retarget_all_modify _ _ _ _ _ here, induction others]

/-- A jump that is registered as it is written goes to the target of its label. -/
theorem settle_registered (fits : List.Forall₂ (Label.Fits code.length) labels targets)
    (jump : LinearInstr) (depth target : Nat) (patches : List Nat)
    (found : labels[depth]? = some (.forward patches)) (aimed : targets[depth]? = some target) :
    settle (labels.set depth (.forward (patches ++ [code.length]))) targets (code ++ [jump]) =
      settle labels targets code ++ [jump.retarget target] := by
  -- The labels are settled from the innermost one outwards, and the jump belongs to the one at its
  -- depth.
  induction labels generalizing targets code depth with
  | nil => cases found
  | cons label labels induction =>
      cases fits with
      | cons fits others =>
          cases depth with
          | zero =>
              cases found
              cases aimed
              have pointed : retargetAll target (patches ++ [code.length]) (code ++ [jump]) =
                  retargetAll target patches code ++ [jump.retarget target] := by
                rw [retarget_all_concat, retarget_all_append jump target patches code fits.written,
                  ← retarget_all_length target patches code]
                exact modify_at_length jump _ _ []
              rw [List.set_cons_zero, settle, settle, Label.patches, Label.patches, pointed]
              apply settle_append
              rw [retarget_all_length]
              exact others
          | succ depth =>
              rw [List.set_cons_succ, settle, settle, retarget_all_append _ _ _ _ fits.written,
                ← retarget_all_length _ label.patches code]
              apply induction _ depth found aimed
              rw [retarget_all_length]
              exact others

end Settling

/-! ### Steps of a translation -/

namespace Translation

/-- The code so far, where the jumps that wait go to the given targets. -/
def settled (translation : Translation) (targets : List Nat) : List LinearInstr :=
  settle translation.labels targets translation.code.toList

def Fits (translation : Translation) (targets : List Nat) : Prop :=
  List.Forall₂ (Label.Fits translation.here) translation.labels targets

/-- The translation goes on by the given code, with the same bodies open. -/
structure Adds (before : Translation) (targets : List Nat) (code : List LinearInstr)
    (after : Translation) : Prop where
  labels : List.Forall₂ (Label.Grows before.here after.here) before.labels after.labels
  settled : after.settled targets = before.settled targets ++ code

variable {before middle after : Translation} {targets : List Nat} {code : List LinearInstr}

theorem settled_length (translation : Translation) (targets : List Nat) :
    (translation.settled targets).length = translation.here :=
  settle_length

theorem Adds.here (adds : before.Adds targets code after) :
    after.here = before.here + code.length := by
  rw [← after.settled_length targets, adds.settled, List.length_append, settled_length]

theorem Adds.fits (adds : before.Adds targets code after) (fits : before.Fits targets) :
    after.Fits targets :=
  fits_of_grown (adds.here ▸ Nat.le_add_right _ _) adds.labels fits

/-- Jumps that wait after a piece of code waited before it or stand in it. -/
theorem Adds.elsewhere (adds : before.Adds targets code after) (position : Nat)
    (earlier : position < before.here)
    (free : ∀ label ∈ before.labels, position ∉ label.patches) :
    ∀ label ∈ after.labels, position ∉ label.patches := by
  intro label member waits
  obtain ⟨index, bound, rfl⟩ := List.getElem_of_mem member
  have within : index < before.labels.length := adds.labels.length_eq ▸ bound
  rcases (adds.labels.get within bound).added position waits with old | new
  · exact free _ (List.getElem_mem within) old
  · exact absurd new.1 (Nat.not_le.mpr earlier)

theorem Adds.nothing : before.Adds targets [] before :=
  ⟨grown_by_nothing _ _ _, (List.append_nil _).symm⟩

theorem Adds.trans {more : List LinearInstr} (first : before.Adds targets code middle)
    (second : middle.Adds targets more after) : before.Adds targets (code ++ more) after := by
  constructor
  · exact grown_trans (first.here ▸ Nat.le_add_right _ _) (second.here ▸ Nat.le_add_right _ _)
      first.labels second.labels
  · rw [second.settled, first.settled, List.append_assoc]

theorem emit_adds (fits : before.Fits targets) (instr : LinearInstr) :
    before.Adds targets [instr] (before.emit instr) := by
  constructor
  · exact grown_by_nothing _ _ _
  · unfold settled emit
    rw [Array.toList_push]
    exact settle_append fits instr

/-- An instruction that is pointed elsewhere right after it was written. -/
theorem emit_retarget (instr : LinearInstr) (target : Nat) :
    (before.emit instr).retarget before.here target = before.emit (instr.retarget target) := by
  unfold emit retarget here
  congr 1
  apply Array.toList_inj.mp
  rw [Array.toList_modify, Array.toList_push, Array.toList_push]
  exact modify_at_length instr _ _ []

theorem retarget_here (position target : Nat) :
    (before.retarget position target).here = before.here :=
  Array.size_modify

theorem retarget_settled (position target : Nat)
    (free : ∀ label ∈ before.labels, position ∉ label.patches) :
    (before.retarget position target).settled targets =
      (before.settled targets).modify position (.retarget target) := by
  unfold settled retarget
  rw [Array.toList_modify]
  exact settle_modify position _ free

/-- A jump that is aimed as it is written, at a loop or at a body that is still open. -/
theorem aim_adds (fits : before.Fits targets) (jump : LinearInstr) (depth : Nat) :
    Tallies (fun code after => before.Adds targets code after)
      (Module.targetOrError targets depth >>= fun target => pure [jump.retarget target])
      ((before.emit jump).aim depth before.here) := by
  have labels : (before.emit jump).labels = before.labels := rfl
  have sameLength : before.labels.length = targets.length := fits.length_eq
  unfold Module.targetOrError aim
  rw [labels]
  cases found : before.labels[depth]? with
  | none =>
      rw [List.getElem?_eq_none (sameLength ▸ List.getElem?_eq_none_iff.mp found)]
      exact rfl
  | some label =>
      obtain ⟨bound, atDepth⟩ := List.getElem?_eq_some_iff.mp found
      have within : depth < targets.length := sameLength ▸ bound
      have aimed : targets[depth]? = some targets[depth] := List.getElem?_eq_getElem within
      rw [aimed]
      -- The start of a loop is known when the jump is written. A jump to an open body keeps its
      -- placeholder and is registered with the label.
      cases label with
      | loop start =>
          have same : start = targets[depth] := (fits.get bound within).known start atDepth
          change before.Adds targets _ ((before.emit jump).retarget before.here start)
          rw [emit_retarget, same]
          exact emit_adds fits _
      | forward patches =>
          constructor
          · apply grown_by_registering found
            exact ⟨Nat.le_refl _, (emit_adds fits jump).here ▸ Nat.lt_succ_self _⟩
          · unfold settled emit
            rw [Array.toList_push]
            exact settle_registered fits jump depth targets[depth] patches found aimed

theorem retarget_fold_labels (patches : List Nat) (target : Nat) :
    (patches.foldl (fun closed position => closed.retarget position target) before).labels =
      before.labels := by
  induction patches generalizing before with
  | nil => rfl
  | cons position rest induction => exact induction

theorem retarget_fold_code (patches : List Nat) (target : Nat) :
    (patches.foldl (fun closed position => closed.retarget position target) before).code.toList =
      retargetAll target patches before.code.toList := by
  induction patches generalizing before with
  | nil => rfl
  | cons position rest induction =>
      rw [List.foldl_cons, induction, retarget_all_cons, retarget, Array.toList_modify]

theorem drop_label_of_cons {label : Label} {outer : List Label}
    (labels : after.labels = label :: outer) : after.dropLabel = { after with labels := outer } := by
  unfold dropLabel
  rw [labels]

section Closing

variable {patches : List Nat} {outer : List Label}
  (labels : after.labels = .forward patches :: outer)

include labels

theorem close_label_labels : after.closeLabel.labels = outer := by
  unfold closeLabel
  rw [labels, drop_label_of_cons labels]
  exact retarget_fold_labels patches after.here

theorem close_label_code :
    after.closeLabel.code.toList = retargetAll after.here patches after.code.toList := by
  unfold closeLabel
  rw [labels, drop_label_of_cons labels]
  exact retarget_fold_code patches after.here

theorem close_label_here : after.closeLabel.here = after.here := by
  unfold here
  rw [← Array.length_toList, close_label_code labels, retarget_all_length, Array.length_toList]

/-- A jump to the end of the innermost body waits for that end only. -/
theorem aim_innermost (position : Nat) :
    ∃ aimed, after.aim 0 position = .ok aimed ∧
      aimed.closeLabel = after.closeLabel.retarget position after.here := by
  unfold aim
  rw [labels]
  refine ⟨_, rfl, ?_⟩
  unfold closeLabel
  rw [labels, drop_label_of_cons labels]
  exact List.foldl_concat _ _ _ _

end Closing

/-- A body that is closed where its label was taken to end. -/
theorem Adds.closed (adds : (before.openLabel (.forward [])).Adds (after.here :: targets) code after) :
    (∃ patches outer, after.labels = .forward patches :: outer) ∧
      before.Adds targets code after.closeLabel := by
  have grown := adds.labels
  have settled := adds.settled
  unfold Translation.settled at settled
  generalize split : after.labels = labels at grown settled
  cases grown with
  | cons grows others =>
      rename_i head outer
      cases head with
      | loop start => exact absurd ((grows.kept start).mp rfl) nofun
      | forward patches =>
          refine ⟨⟨patches, outer, rfl⟩, ?_, ?_⟩
          · rw [close_label_labels split, close_label_here split]
            exact others
          · unfold Translation.settled
            rw [close_label_labels split, close_label_code split]
            exact settled

/-- A loop that is left. No jump waits for its start. -/
theorem Adds.left {start target : Nat}
    (adds : (before.openLabel (.loop start)).Adds (target :: targets) code after) :
    before.Adds targets code after.dropLabel := by
  have grown := adds.labels
  have settled := adds.settled
  unfold Translation.settled at settled
  generalize split : after.labels = labels at grown settled
  cases grown with
  | cons grows others =>
      rename_i head outer
      have isLoop : head = .loop start := (grows.kept start).mpr rfl
      rw [isLoop] at settled
      rw [drop_label_of_cons split]
      exact ⟨others, settled⟩

theorem Adds.retargeted (adds : before.Adds targets code after) (position target : Nat)
    (earlier : position < before.here)
    (free : ∀ label ∈ before.labels, position ∉ label.patches) :
    (before.retarget position target).Adds targets code (after.retarget position target) := by
  constructor
  · rw [retarget_here, retarget_here]
    exact adds.labels
  · rw [retarget_settled _ _ free, retarget_settled _ _ (adds.elsewhere position earlier free),
      adds.settled]
    apply modify_before_end
    rw [settled_length]
    exact earlier

theorem Adds.pointed {first rest : List LinearInstr} {jump : LinearInstr}
    (adds : before.Adds targets (first ++ jump :: rest) after) (position target : Nat)
    (there : position = before.here + first.length)
    (free : ∀ label ∈ after.labels, position ∉ label.patches) :
    before.Adds targets (first ++ jump.retarget target :: rest)
      (after.retarget position target) := by
  constructor
  · rw [retarget_here]
    exact adds.labels
  · have length : position = (before.settled targets ++ first).length := by
      rw [there, List.length_append, settled_length]
    rw [retarget_settled _ _ free, adds.settled, length, ← List.append_assoc, modify_at_length,
      List.append_assoc]

theorem Fits.opened (fits : before.Fits targets) (stop : Nat) :
    (before.openLabel (.forward [])).Fits (stop :: targets) :=
  .cons ⟨nofun, nofun⟩ fits

theorem Fits.free (fits : before.Fits targets) :
    ∀ label ∈ before.labels, before.here ∉ label.patches := by
  intro label member waits
  obtain ⟨index, bound, rfl⟩ := List.getElem_of_mem member
  have within : index < targets.length := fits.length_eq ▸ bound
  exact Nat.lt_irrefl _ ((fits.get bound within).written _ waits)

end Translation

/-! ### Instructions -/

namespace Module

variable (module : Module) (func : Func)

def TranslatesAll (instrs : List Instr) : Prop :=
  ∀ (before : Translation) (targets : List Nat), before.Fits targets →
    Tallies (fun code after => before.Adds targets code after)
      (module.linearAll func targets before.here instrs)
      (module.translateAll func before instrs)

def Translates (instr : Instr) : Prop :=
  ∀ (before : Translation) (targets : List Nat), before.Fits targets →
    Tallies (fun code after => before.Adds targets code after)
      (module.linear func targets before.here instr)
      (module.translate func before instr)

variable {module func}

/-- An instruction that becomes a linear one without a target. -/
theorem simple_translates {Value : Type} {before : Translation} {targets : List Nat}
    (fits : before.Fits targets) (resolved : Except RuntimeError Value)
    (instr : Value → LinearInstr) :
    Tallies (fun code after => before.Adds targets code after)
      (resolved >>= fun value => pure [instr value])
      (resolved >>= fun value => pure (before.emit (instr value))) := by
  cases resolved with
  | error error => exact rfl
  | ok value => exact Translation.emit_adds fits (instr value)

theorem call_translates (name : String) : module.Translates func (.call name) := by
  intro before targets fits
  rw [linear, translate, callOrError]
  cases module.callee? name with
  | none => exact rfl
  | some callee =>
      cases callee with
      | function index => exact Translation.emit_adds fits (.call index)
      | primitive primitive => exact Translation.emit_adds fits (.callHost primitive)

theorem branch_translates (depth : Nat) : module.Translates func (.branch depth) := by
  intro before targets fits
  rw [linear, translate]
  exact Translation.aim_adds fits (.jump 0) depth

theorem branch_if_translates (depth : Nat) : module.Translates func (.branchIf depth) := by
  intro before targets fits
  rw [linear, translate]
  exact Translation.aim_adds fits (.jumpUnlessZero 0) depth

theorem block_translates (body : List Instr) (bodies : module.TranslatesAll func body) :
    module.Translates func (.block body) := by
  intro before targets fits
  rw [linear, translate, ← bind_pure (module.linearAll func _ _ body)]
  apply tallies_bind (bodies _ _ (fits.opened _))
  intro code after done adds
  have stop : after.here = before.here + Instr.linearSizes body :=
    Instr.linear_all_length module func _ _ body code done ▸ adds.here
  rw [← stop] at adds
  exact adds.closed.2

theorem loop_translates (body : List Instr) (bodies : module.TranslatesAll func body) :
    module.Translates func (.loop body) := by
  intro before targets fits
  have opened : (before.openLabel (.loop before.here)).Fits (before.here :: targets) :=
    .cons ⟨nofun, fun _ same => by cases same; rfl⟩ fits
  rw [linear, translate, ← bind_pure (module.linearAll func _ _ body)]
  apply tallies_bind (bodies _ _ opened)
  intro code after _ adds
  exact adds.left

section Conditions

variable {before atSkip atStop : Translation} {targets : List Nat} {otherwise : Nat}
  {bodyCode elseCode : List LinearInstr}

/-- When the body of a condition was written, the jump over it is pointed behind the jump at its
end. -/
theorem body_skipped {stop : Nat} (fits : before.Fits targets)
    (inBody : ((before.emit (.jumpIfZero 0)).openLabel (.forward [])).Adds (stop :: targets)
      bodyCode atSkip) :
    ((before.emit (.jumpIfZero otherwise)).openLabel (.forward [])).Adds (stop :: targets)
      (bodyCode ++ [.jump 0]) ((atSkip.emit (.jump 0)).retarget before.here otherwise) := by
  have started := Translation.emit_adds fits (.jumpIfZero 0)
  have inside := inBody.fits ((started.fits fits).opened stop)
  have jumped := inBody.trans (Translation.emit_adds inside (.jump 0))
  have pointed : ((before.emit (.jumpIfZero 0)).openLabel (.forward [])).retarget before.here
      otherwise = (before.emit (.jumpIfZero otherwise)).openLabel (.forward []) :=
    congrArg (·.openLabel (.forward [])) (Translation.emit_retarget (.jumpIfZero 0) otherwise)
  rw [← pointed]
  -- The test was written before the label of the condition was opened, so no patch list holds its
  -- position.
  apply jumped.retargeted
  · exact started.here ▸ Nat.lt_succ_self _
  · exact List.forall_mem_cons.mpr ⟨nofun, fits.free⟩

/-- When a condition is closed, the jump at the end of its body is pointed to the end of the
whole. -/
theorem cond_closed (fits : before.Fits targets)
    (inBody : ((before.emit (.jumpIfZero 0)).openLabel (.forward [])).Adds
      (atStop.here :: targets) bodyCode atSkip)
    (inElse : ((atSkip.emit (.jump 0)).retarget before.here otherwise).Adds
      (atStop.here :: targets) elseCode atStop) :
    ∃ aimed, atStop.aim 0 atSkip.here = .ok aimed ∧
      before.Adds targets (.jumpIfZero otherwise :: bodyCode ++ .jump atStop.here :: elseCode)
        aimed.closeLabel := by
  have started := Translation.emit_adds fits (.jumpIfZero otherwise)
  have placeholder := Translation.emit_adds fits (.jumpIfZero 0)
  have inside := inBody.fits ((placeholder.fits fits).opened atStop.here)
  obtain ⟨⟨patches, outer, labels⟩, closed⟩ := ((body_skipped fits inBody).trans inElse).closed
  obtain ⟨aimed, done, same⟩ := Translation.aim_innermost labels atSkip.here
  refine ⟨aimed, done, ?_⟩
  have whole := started.trans closed
  rw [List.append_assoc, ← List.append_assoc] at whole
  rw [same]
  -- The jump stands where the body ended, and no label of the bodies around waits for it.
  apply whole.pointed atSkip.here atStop.here
  · rw [inBody.here]
    change (before.emit (.jumpIfZero 0)).here + _ = _
    rw [placeholder.here, List.length_append, Nat.add_assoc]
    rfl
  · intro label member
    rw [Translation.close_label_labels labels] at member
    apply inElse.elsewhere atSkip.here _ inside.free label
    · rw [labels]
      exact List.mem_cons_of_mem _ member
    · rw [Translation.retarget_here, (Translation.emit_adds inside (.jump 0)).here]
      exact Nat.lt_succ_self _

end Conditions

theorem cond_translates (body orelse : List Instr) (bodies : module.TranslatesAll func body)
    (elses : module.TranslatesAll func orelse) :
    module.Translates func (.cond body orelse) := by
  intro before targets fits
  rw [linear, translate]
  -- The positions that the translation finds out later are named here, and identified as soon as
  -- the arms are written.
  generalize isOtherwise : before.here + 1 + Instr.linearSizes body + 1 = otherwise
  generalize isStop : otherwise + Instr.linearSizes orelse = stop
  have started := Translation.emit_adds fits (.jumpIfZero 0)
  have opened := (started.fits fits).opened stop
  rw [← show (before.emit (.jumpIfZero 0)).here = before.here + 1 from started.here]
  apply tallies_bind (bodies _ _ opened)
  intro bodyCode atSkip bodyDone inBody
  have jumped : (atSkip.emit (.jump 0)).here = otherwise := by
    rw [(Translation.emit_adds (inBody.fits opened) (.jump 0)).here, inBody.here,
      Instr.linear_all_length module func _ _ body bodyCode bodyDone, ← isOtherwise]
    exact congrArg (· + Instr.linearSizes body + 1) started.here
  dsimp only
  rw [jumped]
  have reopened := ((Translation.emit_adds fits (.jumpIfZero otherwise)).fits fits).opened stop
  have inElses := elses _ _ ((body_skipped fits inBody).fits reopened)
  rw [Translation.retarget_here, jumped] at inElses
  apply tallies_bind inElses
  intro elseCode atStop elseDone inElse
  have stopped : atStop.here = stop := by
    rw [inElse.here, Translation.retarget_here, jumped,
      Instr.linear_all_length module func _ _ orelse elseCode elseDone, isStop]
  subst stopped
  obtain ⟨aimed, done, adds⟩ := cond_closed fits inBody inElse
  rw [done]
  exact adds

variable (module func)

mutual

theorem translates (instr : Instr) : module.Translates func instr := by
  cases instr with
  | cond body orelse => exact cond_translates body orelse (translates_all body) (translates_all orelse)
  | block body => exact block_translates body (translates_all body)
  | loop body => exact loop_translates body (translates_all body)
  | branch depth => exact branch_translates depth
  | branchIf depth => exact branch_if_translates depth
  | call name => exact call_translates name
  | localGet name => exact fun _ _ fits => simple_translates fits (slotOrError func name) .localGet
  | localSet name => exact fun _ _ fits => simple_translates fits (slotOrError func name) .localSet
  | globalGet name =>
      exact fun _ _ fits => simple_translates fits (module.globalOrError name) .globalGet
  | globalSet name =>
      exact fun _ _ fits => simple_translates fits (module.globalOrError name) .globalSet
  | const value => exact fun _ _ fits => Translation.emit_adds fits (.const value)
  | binary op => exact fun _ _ fits => Translation.emit_adds fits (.binary op)
  | drop => exact fun _ _ fits => Translation.emit_adds fits .drop
  | ret => exact fun _ _ fits => Translation.emit_adds fits .ret
  | unreachable => exact fun _ _ fits => Translation.emit_adds fits .unreachable
termination_by structural instr

theorem translates_all (instrs : List Instr) : module.TranslatesAll func instrs := by
  intro before targets fits
  cases instrs with
  | nil => exact .nothing
  | cons first rest =>
      rw [linearAll, translateAll]
      apply tallies_bind (translates first before targets fits)
      intro code middle done adds
      have here : before.here + first.linearSize = middle.here :=
        Instr.linear_length module func _ _ first code done ▸ adds.here.symm
      rw [here]
      rw [← bind_pure (module.translateAll func middle rest)]
      apply tallies_bind (translates_all rest middle targets (adds.fits fits))
      intro more after _ addsMore
      exact adds.trans addsMore
termination_by structural instrs

end

/-- The translation of a function gives its linear code and a return behind it. No jump waits any
more. -/
theorem linear_func_eq :
    module.linearFunc func = (do
      let code ← module.linearAll func [Instr.linearSizes func.body] 0 func.body
      return {
        name := (func.id.or func.exportName).getD ""
        params := func.params.length
        locals := func.locals.length
        code := (code ++ [LinearInstr.ret]).toArray }) := by
  have fits : (Translation.mk #[] []).Fits [] := .nil
  apply tallies_eq
  rw [← bind_pure (module.linearAll _ _ _ _)]
  apply tallies_bind (translates_all module func func.body _ _ (fits.opened _))
  intro code body done adds
  have stop : body.here = Instr.linearSizes func.body := by
    rw [adds.here, Instr.linear_all_length module func _ _ func.body code done]
    exact Nat.zero_add _
  rw [← stop] at adds
  have closed := adds.closed.2
  -- Every label was closed, so nothing is left to settle.
  have none : body.closeLabel.labels = [] := List.forall₂_nil_left_iff.mp closed.labels
  have settled : body.closeLabel.code.toList = code := by
    have whole := closed.settled
    unfold Translation.settled at whole
    rwa [none] at whole
  have returned : (body.closeLabel.emit .ret).code = (code ++ [LinearInstr.ret]).toArray := by
    apply Array.toList_inj.mp
    rw [← settled]
    exact Array.toList_push
  rw [returned]
  exact rfl

end Module

end ScriptWasm
