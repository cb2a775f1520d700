import ScriptWasm.Proofs.Code.Emission

/-!
The frames of a draft. Whatever is opened, written and closed, there is an innermost frame to write
to, and a frame that is closed gives back what was written since it was opened, apart from the
frames that were closed in between.
-/

namespace ScriptWasm

set_option autoImplicit false

inductive FrameOp where
  | emit (instr : Instr)
  | push
  | pop

namespace FrameOp

def isPush : FrameOp → Bool
  | push => true
  | _ => false

def isPop : FrameOp → Bool
  | pop => true
  | _ => false

/-- The operations on a stack of frames, the innermost first. Unlike a draft, a stack can be empty,
and then an instruction that is written is lost. -/
def onStack (stack : List (List Instr)) :
    FrameOp → Except CodeError (List Instr) × List (List Instr)
  | emit instr => (.ok [], stack.modifyHead (· ++ [instr]))
  | push => (.ok [], [] :: stack)
  | pop =>
      if stack.length < 2 then (.error (.unbalancedFrames stack.length), stack)
      else
        match stack with
        | [] => (.error (.unbalancedFrames 0), [])
        | body :: rest => (.ok body, rest)

/-- The operations after which every frame that they opened is closed again, with the instructions
that they leave in the frame around them. -/
inductive Balanced : List FrameOp → List Instr → Prop where
  | nil : Balanced [] []
  | emit (ops : List FrameOp) (own : List Instr) (instr : Instr) :
      Balanced ops own → Balanced (ops ++ [.emit instr]) (own ++ [instr])
  | nested (ops inside : List FrameOp) (own body : List Instr) :
      Balanced ops own → Balanced inside body →
        Balanced (ops ++ .push :: inside ++ [.pop]) own

end FrameOp

namespace Draft

open FrameOp

def frames (draft : Draft) : List (List Instr) :=
  draft.inner :: draft.outer

/-- Carries out an operation. Only the closing of a frame has a body to answer with. -/
def perform (draft : Draft) : FrameOp → Except CodeError (List Instr) × Draft
  | .emit instr => (.ok [], draft.emit instr)
  | .push => (.ok [], draft.pushFrame)
  | .pop =>
      match draft.popFrame with
      | .ok (body, after) => (.ok body, after)
      | .error error => (.error error, draft)

def performAll (draft : Draft) (ops : List FrameOp) : Draft :=
  ops.foldl (fun draft op => (draft.perform op).2) draft

def closings (draft : Draft) : List FrameOp → Nat
  | [] => 0
  | op :: rest =>
      (if op.isPop && (draft.perform op).1.isOk then 1 else 0) + (draft.perform op).2.closings rest

theorem perform_all_append (draft : Draft) (first second : List FrameOp) :
    draft.performAll (first ++ second) = (draft.performAll first).performAll second :=
  List.foldl_append

/-! ### The stack -/

/-- A draft goes through the same frames as a stack, with the same answers. -/
theorem perform_on_stack (draft : Draft) (op : FrameOp) :
    op.onStack draft.frames = ((draft.perform op).1, (draft.perform op).2.frames) := by
  cases op with
  | emit instr => rfl
  | push => rfl
  | pop =>
      cases around : draft.outer with
      | nil => simp [onStack, perform, popFrame, frames, around]
      | cons frame rest => simp [onStack, perform, popFrame, frames, around]

theorem perform_all_on_stack (draft : Draft) (ops : List FrameOp) :
    ops.foldl (fun stack op => (op.onStack stack).2) draft.frames =
      (draft.performAll ops).frames := by
  induction ops generalizing draft with
  | nil => rfl
  | cons op rest induction =>
      rw [List.foldl_cons, perform_on_stack]
      exact induction (draft.perform op).2

theorem perform_counts (draft : Draft) (op : FrameOp) :
    (draft.perform op).2.frameCount + (if op.isPop && (draft.perform op).1.isOk then 1 else 0) =
      draft.frameCount + [op].countP isPush := by
  cases op with
  | emit instr => rfl
  | push => rfl
  | pop =>
      cases around : draft.outer with
      | nil =>
          simp [perform, popFrame, frameCount, isPush, isPop, around, Except.isOk, Except.toBool]
      | cons frame rest =>
          simp [perform, popFrame, frameCount, isPush, isPop, around, Except.isOk, Except.toBool]

theorem perform_all_counts (draft : Draft) (ops : List FrameOp) :
    (draft.performAll ops).frameCount + draft.closings ops =
      draft.frameCount + ops.countP isPush := by
  induction ops generalizing draft with
  | nil => rfl
  | cons op rest induction =>
      have first := perform_counts draft op
      have others := induction (draft.perform op).2
      have counted : (op :: rest).countP isPush = [op].countP isPush + rest.countP isPush := by
        rw [← List.countP_append, List.singleton_append]
      rw [closings, counted]
      change ((draft.perform op).2.performAll rest).frameCount + _ = _
      omega

/-! ### What a frame holds when it is closed -/

/-- Balanced operations leave the frames around the innermost one alone. -/
theorem perform_all_balanced {ops : List FrameOp} {own : List Instr} (balanced : Balanced ops own)
    (draft : Draft) : draft.performAll ops = draft.append own := by
  induction balanced generalizing draft with
  | nil => exact (append_nil draft).symm
  | emit ops own instr balanced before =>
      rw [perform_all_append, before draft, ← append_append]
      rfl
  | nested ops inside own body balanced enclosed before within =>
      have opened : (draft.append own).performAll (.push :: inside) =
          (draft.append own).pushFrame.append body :=
        within (draft.append own).pushFrame
      have closed : ((draft.append own).pushFrame.append body).performAll [.pop] =
          draft.append own := by
        change (((draft.append own).pushFrame.append body).perform .pop).2 = draft.append own
        rw [perform, pop_frame_after_push]
      rw [perform_all_append, perform_all_append, before draft, opened, closed]

theorem perform_all_opened (draft : Draft) (earlier : List FrameOp) {inside : List FrameOp}
    {body : List Instr} (balanced : Balanced inside body) :
    draft.performAll (earlier ++ .push :: inside) =
      (draft.performAll earlier).pushFrame.append body := by
  rw [perform_all_append]
  exact perform_all_balanced balanced (draft.performAll earlier).pushFrame

/-- The operations leave a frame open that they opened. The last such frame is opened by a push that
is followed by balanced operations only. -/
def LeavesOpen (ops : List FrameOp) : Prop :=
  ∃ earlier inside body, ops = earlier ++ .push :: inside ∧ Balanced inside body

theorem leaves_open_after_emit {ops : List FrameOp} (still : LeavesOpen ops) (instr : Instr) :
    LeavesOpen (ops ++ [.emit instr]) := by
  obtain ⟨earlier, inside, body, rfl, balanced⟩ := still
  exact ⟨earlier, inside ++ [.emit instr], body ++ [instr], by simp,
    .emit inside body instr balanced⟩

theorem leaves_open_after_nested {ops inside : List FrameOp} {body : List Instr}
    (still : LeavesOpen ops) (enclosed : Balanced inside body) :
    LeavesOpen (ops ++ .push :: inside ++ [.pop]) := by
  obtain ⟨earlier, before, own, rfl, balanced⟩ := still
  exact ⟨earlier, before ++ .push :: inside ++ [.pop], own, by simp,
    .nested before inside own body balanced enclosed⟩

/-- Either only the body of the function is open, or there is a push that opened the innermost
frame. A pop at the end takes back all of a shorter run, so the induction is on the length. -/
theorem body_only_or_leaves_open (draft : Draft) (fresh : draft.outer = []) (ops : List FrameOp) :
    (draft.performAll ops).outer = [] ∨ LeavesOpen ops := by
  induction size : ops.length using Nat.strong_induction_on generalizing ops with
  | _ size induction =>
      subst size
      cases List.eq_nil_or_concat' ops with
      | inl none =>
          rw [none]
          exact Or.inl fresh
      | inr some =>
          obtain ⟨before, op, rfl⟩ := some
          have shorter := induction before.length (by simp) before rfl
          cases op with
          | push => exact Or.inr ⟨before, [], [], rfl, .nil⟩
          | emit instr =>
              apply shorter.imp
              · intro closed
                rw [perform_all_append]
                exact closed
              · intro still
                exact leaves_open_after_emit still instr
          | pop =>
              cases shorter with
              | inl closed =>
                  apply Or.inl
                  rw [perform_all_append]
                  change ((draft.performAll before).perform .pop).2.outer = []
                  simp [perform, popFrame, closed]
              | inr still =>
                  obtain ⟨earlier, inside, body, rfl, balanced⟩ := still
                  have back : draft.performAll (earlier ++ .push :: inside ++ [.pop]) =
                      draft.performAll earlier := by
                    rw [perform_all_append, perform_all_opened draft earlier balanced]
                    change (((draft.performAll earlier).pushFrame.append body).perform .pop).2 = _
                    rw [perform, pop_frame_after_push]
                  rw [back]
                  apply (induction earlier.length (by simp) earlier rfl).imp_right
                  intro before
                  exact leaves_open_after_nested before balanced

/-- What a pop gives back is what was written since the push that it matches, without what inner
frames took away, and the draft is again as it was before that push. -/
theorem pop_frame_after_run (draft : Draft) (fresh : draft.outer = []) (ops : List FrameOp)
    (body : List Instr) (after : Draft) :
    (draft.performAll ops).popFrame = .ok (body, after) ↔
      ∃ earlier inside, ops = earlier ++ .push :: inside ∧ Balanced inside body ∧
        after = draft.performAll earlier := by
  constructor
  · intro popped
    cases body_only_or_leaves_open draft fresh ops with
    | inl closed =>
        simp [popFrame, closed] at popped
    | inr still =>
        obtain ⟨earlier, inside, written, rfl, balanced⟩ := still
        rw [perform_all_opened draft earlier balanced, pop_frame_after_push] at popped
        cases popped
        exact ⟨earlier, inside, rfl, balanced, rfl⟩
  · rintro ⟨earlier, inside, rfl, balanced, rfl⟩
    rw [perform_all_opened draft earlier balanced, pop_frame_after_push]

theorem perform_all_refused (draft : Draft) (ops : List FrameOp) (error : CodeError)
    (refused : (draft.performAll ops).popFrame = .error error) :
    draft.performAll (ops ++ [.pop]) = draft.performAll ops := by
  rw [perform_all_append]
  change ((draft.performAll ops).perform .pop).2 = _
  rw [perform, refused]

theorem build_succeeds_iff (draft : Draft) (id exportName : Option String) :
    (∃ func, draft.build id exportName = .ok func) ↔ draft.frameCount = 1 := by
  cases around : draft.outer with
  | nil => simp [build, frameCount, around]
  | cons frame rest => simp [build, frameCount, around]

/-- A function can be finished exactly when as many frames were closed as were opened. -/
theorem build_after_run (draft : Draft) (fresh : draft.outer = []) (ops : List FrameOp)
    (id exportName : Option String) :
    (∃ func, (draft.performAll ops).build id exportName = .ok func) ↔
      draft.closings ops = ops.countP isPush := by
  have counts := perform_all_counts draft ops
  have one : draft.frameCount = 1 := by
    rw [frameCount, fresh]
    rfl
  rw [build_succeeds_iff]
  omega

end Draft

end ScriptWasm
