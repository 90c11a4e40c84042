import GraphReduction.Proofs.Heap.Exactness
import GraphReduction.Proofs.Machine.Reached

/-!
# What an evaluation is made of

Whatever is evaluated, and however that ends, the machine does nothing but edits and changes of its
registers, none of which grows past its limit. What all of these keep is kept by every evaluation.
-/

namespace GraphReduction

namespace Machine

/-!
## Turns of the loops
-/

/-- The relation also holds across every change of the stack that stays within the limit. -/
structure AllowsStack (R : Machine → Machine → Prop) : Prop extends Allows R where
  stack : ∀ (m : Machine) {stack : Array Nat}, stack.size ≤ max m.stackLimit m.stack.size →
    R m { m with stack }

section Turns

variable {R : Machine → Machine → Prop} {ev : Evaluators} {fuel base : Nat} (hR : AllowsStack R)

include hR

theorem leaves_push (id : Nat) : Leaves R (push id) := by
  intro m
  rw [meets_push]
  split
  · exact hR.refl m
  · exact hR.stack m (by simp; omega)

theorem leaves_setEntry (i id : Nat) : Leaves R (setEntry i id) := fun m => hR.stack m (by simp)

theorem leaves_truncate (n : Nat) : Leaves R (truncate n) := fun m => hR.stack m (by simp)

theorem leaves_afterRule (t n : Nat) (r : Fired) : Leaves R (afterRule t n r) := by
  cases r with
  | waitingFor a => exact hR.pure _
  | yes =>
    have hcount : Leaves R (modify fun m => { m with stats := { m.stats with steps := m.stats.steps + 1 } } :
        Run Unit) := fun _ => hR.edit (.count (Nat.le_succ _))
    exact hR.bind hcount fun _ => hR.bind (leaves_truncate hR _) fun _ => hR.pure _

theorem leaves_step (hperform : ∀ id, Leaves R (ev.perform id))
    (hnormalize : ∀ id, Leaves R (ev.normalize id)) (base : Nat) : Leaves R (step ev base) := by
  refine hR.read .top fun t => hR.read (.entry t) fun id => hR.read (.cell id) fun c => ?_
  split
  · exact hR.bind (leaves_push hR _) fun _ => hR.pure _
  · have hgo := fun u => hR.bind (leaves_setEntry hR t u) fun _ => hR.pure Progress.again
    exact .ite (hR.bind (hR.malformed _) fun _ => hgo _) (hgo _)
  · split
    · exact .ite (hR.bind (leaves_fire hR.toAllows _ _) fun r => leaves_afterRule hR _ _ r) (hR.pure _)
    · exact hR.pure _
  · exact .ite (hR.pure _) (hR.bind (leaves_fireStrict hR.toAllows hperform hnormalize _ _) fun r =>
      leaves_afterRule hR _ _ r)
  · exact .ite (hR.pure _) (hR.read (.describe _) fun _ => hR.fail _)
  · exact hR.malformed _

theorem leaves_handOver (t : Nat) (takesResult : Bool) (result : Nat) :
    Leaves R (handOver t takesResult result) :=
  hR.bind (leaves_truncate hR t) fun _ => .ite (hR.read (.entry _) fun _ =>
    hR.bind (hR.app _ _) fun _ => leaves_setEntry hR _ _) (hR.pure _)

theorem leaves_pushAll (ids : List Nat) : Leaves R (pushAll ids) := by
  induction ids with
  | nil => exact hR.pure _
  | cons id ids ih => exact hR.bind ih fun _ => leaves_push hR id

theorem leaves_performFrom (hwhnf : ∀ id, Leaves R (whnf fuel id))
    (hnormalize : ∀ id, Leaves R (normalize fuel id)) (h : ∀ binds, Leaves R (performFrom fuel binds))
    (binds : List Bool) : Leaves R (performFrom (fuel + 1) binds) := by
  have hfinish : ∀ t result, Leaves R (finishAction fuel t binds result) := by
    intro t result
    cases binds with
    | nil => exact hR.pure _
    | cons b binds => exact hR.bind (leaves_handOver hR _ _ _) fun _ => h _
  have hoperands : ∀ t x y, Leaves R (do setEntry t y; push x : Run Unit) := fun t x y =>
    hR.bind (leaves_setEntry hR t y) fun _ => leaves_push hR x
  rw [performFrom_succ]
  refine hR.bind hR.safePoint fun _ => hR.read .top fun t => hR.read (.entry t) fun id =>
    hR.bind (hwhnf id) fun action => hR.bind (leaves_setEntry hR _ _) fun _ => hR.bind hR.get fun m => ?_
  cases actionForm m.heap action with
  | result x => exact hfinish _ x
  | bind x k => exact hR.bind (hoperands _ x k) fun _ => h _
  | sequence x y => exact hR.bind (hoperands _ x y) fun _ => h _
  | primitive p => exact hR.bind (leaves_execute hR.toAllows hwhnf hnormalize p _) fun _ => hfinish _ _
  | other => exact hR.read (.describe _) fun _ => hR.fail _

theorem leaves_normalizeFrom (hwhnf : ∀ id, Leaves R (whnf fuel id))
    (h : ∀ pending, Leaves R (normalizeFrom base fuel pending)) (pending : List OpenValue) :
    Leaves R (normalizeFrom base (fuel + 1) pending) := by
  rw [normalizeFrom_succ]
  refine hR.bind hR.get fun m => .ite (hR.bind (hR.malformed _) fun _ => ?_) ?_
  all_goals
    refine hR.read .top fun t => hR.read (.entry t) fun id => hR.bind (hwhnf id) fun v =>
      hR.bind (leaves_truncate hR t) fun _ => hR.bind hR.get fun m => ?_
    cases valueForm m.heap v with
    | inr form => exact hR.bind (leaves_pushAll hR _) fun _ => h _
    | inl value =>
      rw [addValue]
      cases closeValue value pending with
      | inl value => exact hR.pure value
      | inr pending => exact h pending

end Turns

/-!
## The moves of a machine
-/

/-- Some number of edits and changes of the registers, which do not grow past their limits. -/
inductive Moves : Machine → Machine → Prop
  | refl (m : Machine) : Moves m m
  | trans {m m1 m2 : Machine} : Moves m m1 → Moves m1 m2 → Moves m m2
  | edit {m m' : Machine} : Edit m m' → Moves m m'
  | registers {m : Machine} {stack frames : Array Nat} {depth : Nat} :
    stack.size ≤ max m.stackLimit m.stack.size → depth ≤ max m.depthLimit m.depth →
    Moves m { m with stack, frames, depth }

theorem allows_moves : AllowsStack Moves where
  refl := .refl
  trans := .trans
  edit := .edit
  stack _ _ h := .registers h (le_max_right _ _)

/-- The limits are the same, and a register that has grown has not grown past its limit. -/
structure Within (m m' : Machine) : Prop where
  stackLimit : m'.stackLimit = m.stackLimit
  depthLimit : m'.depthLimit = m.depthLimit
  stack : m'.stack.size ≤ max m.stackLimit m.stack.size
  depth : m'.depth ≤ max m.depthLimit m.depth

variable {m m1 m2 m' : Machine}

theorem Within.refl (m : Machine) : Within m m := ⟨rfl, rfl, le_max_right _ _, le_max_right _ _⟩

theorem Within.trans (h1 : Within m m1) (h2 : Within m1 m2) : Within m m2 := by
  have hstack := h2.stack
  have hdepth := h2.depth
  rw [h1.stackLimit] at hstack
  rw [h1.depthLimit] at hdepth
  exact ⟨h2.stackLimit.trans h1.stackLimit, h2.depthLimit.trans h1.depthLimit,
    hstack.trans (max_le (le_max_left _ _) h1.stack), hdepth.trans (max_le (le_max_left _ _) h1.depth)⟩

theorem within_of_moves (h : Moves m m') : Within m m' := by
  induction h with
  | refl m => exact .refl m
  | trans _ _ h1 h2 => exact h1.trans h2
  | edit h => cases h <;> exact ⟨rfl, rfl, le_max_right _ _, le_max_right _ _⟩
  | registers hstack hdepth => exact ⟨rfl, rfl, hstack, hdepth⟩

theorem steps_le_of_moves (h : Moves m m') : m.stats.steps ≤ m'.stats.steps := by
  induction h with
  | refl | registers => exact Nat.le_refl _
  | trans _ _ h1 h2 => exact h1.trans h2
  | edit h =>
    cases h with
    | count h => exact h
    | _ => exact Nat.le_refl _

theorem moving_enter : Leaves Moves enter := by
  intro m
  rw [meets_enter]
  split
  · exact .refl m
  · exact .registers (le_max_right _ _) (by omega)

theorem moving_suspend (base id : Nat) : Leaves Moves (suspend base id) := by
  have hframes : Leaves Moves (modify fun m => { m with frames := m.frames.push base } : Run Unit) :=
    fun m => .registers (le_max_right _ _) (le_max_right _ _)
  exact allows_moves.bind moving_enter fun _ => allows_moves.bind hframes fun _ =>
    allows_moves.bind (leaves_push allows_moves id) fun _ => allows_moves.reads .top

theorem moving_resume (base : Nat) : Leaves Moves (resume base) := by
  have hframes : Leaves Moves (modify fun m => { m with frames := m.frames.pop, depth := m.depth - 1 } :
      Run Unit) := fun m => .registers (le_max_right _ _) (by simp)
  exact allows_moves.bind (leaves_truncate allows_moves base) fun _ => allows_moves.bind allows_moves.get
    fun _ => allows_moves.bind hframes fun _ => allows_moves.pure _

/-- Setting the registers back is a move: an evaluation that was not too deep to start may end. -/
theorem moving_nested {α : Type} {id : Nat} {body : Nat → Run α} (h : ∀ base, Leaves Moves (body base)) :
    Leaves Moves (nested id body) := by
  intro m
  have hback : ∀ m', Moves m m' → m.depth ≤ max m'.depthLimit m'.depth →
      Moves m (m'.restore m.stack.size m.frames.size m.depth) := fun m' h' hd =>
    h'.trans (.registers (by simp) hd)
  simp only [meets_nested, meets_bind, meets_enter]
  split
  · exact hback m (.refl m) (le_max_right _ _)
  · have hbody := allows_moves.bind (leaves_push allows_moves id) fun _ => h m.stack.size
    have hstart : Moves m { m with depth := m.depth + 1 } := .registers (le_max_right _ _) (by omega)
    have hend : ∀ m', Moves { m with depth := m.depth + 1 } m' →
        Moves m (m'.restore m.stack.size m.frames.size m.depth) := fun m' h' =>
      hback m' (hstart.trans h') (by have := (within_of_moves h').depthLimit; simp only at this; omega)
    have hrun := hbody { m with depth := m.depth + 1 }
    rw [meets_bind] at hrun
    exact hrun.mono (fun _ m1 h1 => h1.mono (fun _ m' => hend m') fun _ m' => hend m') fun _ m' => hend m'

/-- The loops are made of moves. -/
structure LoopsMove (fuel : Nat) : Prop where
  unwind : ∀ outer base, Leaves Moves (unwind outer fuel base)
  perform : ∀ binds, Leaves Moves (performFrom fuel binds)
  normalize : ∀ base pending, Leaves Moves (normalizeFrom base fuel pending)

namespace LoopsMove

variable {fuel : Nat}

theorem whnfs (h : LoopsMove fuel) (id : Nat) : Leaves Moves (whnf fuel id) :=
  moving_nested fun _ => allows_moves.bind allows_moves.get fun _ => h.unwind _ _

theorem performs (h : LoopsMove fuel) (id : Nat) : Leaves Moves (Machine.perform fuel id) :=
  moving_nested fun _ => h.perform _

theorem normalizes (h : LoopsMove fuel) (id : Nat) : Leaves Moves (Machine.normalize fuel id) :=
  moving_nested fun _ => h.normalize _ _

theorem unwind_succ (h : LoopsMove fuel) (outer base : Nat) :
    Leaves Moves (Machine.unwind outer (fuel + 1) base) := by
  rw [Machine.unwind_succ]
  refine allows_moves.bind allows_moves.safePoint fun _ =>
    allows_moves.bind (leaves_step allows_moves h.performs h.normalizes base) fun r => ?_
  cases r with
  | again => exact h.unwind _ _
  | force id => exact allows_moves.bind (moving_suspend _ _) fun _ => h.unwind _ _
  | done =>
    exact allows_moves.bind allows_moves.get fun _ => .ite (allows_moves.reads (.entry _))
      (allows_moves.bind (moving_resume _) fun _ => h.unwind _ _)

end LoopsMove

theorem loops_move (fuel : Nat) : LoopsMove fuel := by
  induction fuel with
  | zero => exact ⟨fun _ _ m => .refl m, fun _ m => .refl m, fun _ _ m => .refl m⟩
  | succ fuel h =>
    exact ⟨h.unwind_succ, leaves_performFrom allows_moves h.whnfs h.normalizes h.perform,
      fun base => leaves_normalizeFrom allows_moves h.whnfs (h.normalize base)⟩

theorem moving_whnf (fuel id : Nat) : Leaves Moves (whnf fuel id) := (loops_move fuel).whnfs id

theorem moving_perform (fuel id : Nat) : Leaves Moves (perform fuel id) := (loops_move fuel).performs id

theorem moving_normalize (fuel id : Nat) : Leaves Moves (normalize fuel id) :=
  (loops_move fuel).normalizes id

theorem moving_call (call : EntryPoint) (fuel id : Nat) : Leaves Moves (call.call fuel id) :=
  leaves_call allows_moves.toAllows (moving_whnf fuel) (moving_perform fuel) (moving_normalize fuel) call id

/-- **All that a machine does is made of moves**, but for loads. -/
theorem moves_of_leads {a a' : Activity} (h : Leads a m a' m') :
    Moves m m' ∨ ∃ x, m' = (m.load x).2 := by
  have hstep : ∀ fuel base, Leaves Moves (step ⟨perform fuel, normalize fuel⟩ base) := fun fuel base =>
    leaves_step allows_moves (moving_perform fuel) (moving_normalize fuel) base
  have hstart : ∀ id, Leaves Moves (do enter; push id : Run Unit) := fun id =>
    allows_moves.bind moving_enter fun _ => leaves_push allows_moves id
  have hoperands : ∀ i x y, Leaves Moves (do setEntry i y; push x : Run Unit) := fun i x y =>
    allows_moves.bind (leaves_setEntry allows_moves i y) fun _ => leaves_push allows_moves x
  cases h with
  | loadProgram _ | loadImage _ | loadProgramFails _ | loadImageFails _ => exact .inr ⟨_, rfl⟩
  | callReturns call _ h => exact .inl ((moving_call call _ _ m).ok h)
  | callStops call _ h | callFails call _ h => exact .inl ((moving_call call _ _ m).error h)
  | runPerform _ h | runNormalize _ h => exact .inl ((moving_whnf _ _ m).ok h)
  | runResult _ h1 h2 =>
    exact .inl (((moving_whnf _ _ m).ok h1).trans ((moving_perform _ _ _).ok h2))
  | startWhnf h | startPerform h | startNormalize h => exact .inl ((hstart _ m).ok h)
  | safePoint h | makeRoom h | evaluateAction h | resultRoom h =>
    exact .inl ((allows_moves.reserve _ m).ok h)
  | again h => exact .inl ((hstep _ _ m).ok h)
  | force h1 h2 => exact .inl (((hstep _ _ m).ok h1).trans ((moving_suspend _ _ _).ok h2))
  | resume h1 _ h2 => exact .inl (((hstep _ _ m).ok h1).trans ((moving_resume _ _).ok h2))
  | act h1 h2 =>
    exact .inl ((((allows_moves.safePoint m).ok h1).trans ((moving_whnf _ _ _).ok h2)).trans
      (allows_moves.stack _ (by simp)))
  | bind _ h | sequence _ h => exact .inl ((hoperands _ _ _ m).ok h)
  | result _ h => exact .inl ((leaves_handOver allows_moves _ _ _ m).ok h)
  | executed h1 h2 =>
    exact .inl (((leaves_execute allows_moves.toAllows (moving_whnf _) (moving_normalize _) _ _ m).ok
      h1).trans ((leaves_handOver allows_moves _ _ _ _).ok h2))
  | argEvaluated _ h => exact .inl ((moving_whnf _ _ m).ok h)
  | argNormalized _ h => exact .inl ((moving_normalize _ _ m).ok h)
  | operation h => exact .inl ((allows_moves.onWorld _ m).ok h)
  | openFields _ h1 _ h2 =>
    exact .inl ((((moving_whnf _ _ m).ok h1).trans (allows_moves.stack _ (by simp))).trans
      ((leaves_pushAll allows_moves _ _).ok h2))
  | closeField _ h _ _ => exact .inl (((moving_whnf _ _ m).ok h).trans (allows_moves.stack _ (by simp)))
  | unwindReturns h => exact .inl (((loops_move _).unwind _ _ m).ok h)
  | unwindFails h => exact .inl (((loops_move _).unwind _ _ m).error h)
  | performReturns h => exact .inl (((loops_move _).perform _ m).ok h)
  | performFails h => exact .inl (((loops_move _).perform _ m).error h)
  | normalizeReturns h => exact .inl (((loops_move _).normalize _ _ m).ok h)
  | normalizeFails h => exact .inl (((loops_move _).normalize _ _ m).error h)
  | _ => exact .inl (.refl m)

/-!
## What all moves keep
-/

section Invariants

variable {p : Primitive}

/-- No cell holds the primitive `p`. -/
def Lacks (p : Primitive) (m : Machine) : Prop := ∀ x, m.heap.get x ≠ .prim p

/-- An allocation changes a cell to what was asked for, if at all. -/
theorem get_alloc {h h' : Heap} {c : Cell} {id : Nat} (ha : Heap.alloc c h = .ok id h') (x : Nat) :
    h'.get x = h.get x ∨ h'.get x = c := by
  unfold Heap.alloc at ha
  cases hfree : h.free with
  | some i =>
    simp only [hfree] at ha
    split at ha
    · cases ha
      simp only [Heap.get, Heap.notePeak, Heap.set, Array.getD_eq_getD_getElem?,
        Array.getElem?_setIfInBounds]
      split
      · split
        · exact .inr rfl
        · rename_i hx hlt
          subst hx
          rw [Array.getElem?_eq_none (by omega)]
          exact .inl rfl
      · exact .inl rfl
    · cases ha
  | none =>
    simp only [hfree] at ha
    split at ha
    · cases ha
      simp only [Heap.get, Heap.notePeak, Array.getD_eq_getD_getElem?, Array.getElem?_push]
      split
      · exact .inr rfl
      · exact .inl rfl
    · cases ha

theorem get_set_or (h : Heap) (i : Nat) (c : Cell) (x : Nat) :
    (h.set i c).get x = h.get x ∨ (h.set i c).get x = c := by
  simp only [Heap.get, Heap.set, Array.getD_eq_getD_getElem?, Array.getElem?_setIfInBounds]
  split
  · split
    · exact .inr rfl
    · rename_i hx hlt
      subst hx
      rw [Array.getElem?_eq_none (by omega)]
      exact .inl rfl
  · exact .inl rfl

/-- No edit brings in a primitive other than `unpack`. -/
theorem lacks_of_edit (hp : p ≠ .unpack) (h : Edit m m') (hm : Lacks p m) : Lacks p m' := by
  cases h with
  | answered | refused | count => exact hm
  | write i hc =>
    intro x hx
    rcases get_set_or m.heap i _ x with h | h
    · exact hm x (h.symm.trans hx)
    · exact hp (hc p (h.symm.trans hx))
  | alloc hc ha =>
    intro x hx
    rcases get_alloc ha x with h | h
    · exact hm x (h.symm.trans hx)
    · exact hp (hc p (h.symm.trans hx))
  | collect =>
    intro x hx
    replace hx : (Heap.collect m.roots m.heap).2.get x = .prim p := hx
    by_cases hr : Reachable m.heap.shortcuts (· ∈ m.roots) x
    · rw [Heap.get_collect hr, Heap.shortcuts] at hx
      cases hc : m.heap.get x with
      | prim q =>
        rw [hc] at hx
        cases hx
        exact hm x hc
      | _ => rw [hc] at hx; cases hx
    · have hfree := Heap.isFree_collect hr
      rw [hx] at hfree
      cases hfree

/-- **No primitive appears that was not there**, except the one that unpacks strings. -/
theorem lacks_of_moves (hp : p ≠ .unpack) (h : Moves m m') (hm : Lacks p m) : Lacks p m' := by
  induction h with
  | refl | registers => exact hm
  | trans _ _ h1 h2 => exact h2 (h1 hm)
  | edit h => exact lacks_of_edit hp h hm

/-- Calls from outside that evaluate definitions, one after the other. -/
inductive Calls : Machine → Machine → Prop
  | none (m : Machine) : Calls m m
  | returned {m m1 m2 : Machine} {fuel id : Nat} (call : EntryPoint) : Calls m m1 → id ∈ m1.pinned →
    call.call fuel id m1 = .ok () m2 → Calls m m2
  | failed {m m1 m2 : Machine} {fuel id : Nat} {e : Halt} (call : EntryPoint) : Calls m m1 →
    id ∈ m1.pinned → call.call fuel id m1 = .error e m2 → Calls m m2

theorem reached_of_calls {config : Config} {world : World} (h0 : Reached config world .idle m)
    (h : Calls m m') : Reached config world .idle m' := by
  induction h with
  | none => exact h0
  | returned call _ hid hcall ih => exact .next ih (.callReturns call hid hcall)
  | failed call _ hid hcall ih => exact .next ih (.callStops call hid hcall)

/-- **A program that lacks a primitive lacks it after any calls**, whether they returned or failed. -/
theorem lacks_of_calls (hp : p ≠ .unpack) (h : Calls m m') (hm : Lacks p m) : Lacks p m' := by
  induction h with
  | none => exact hm
  | returned call _ _ hcall ih => exact lacks_of_moves hp ((moving_call call _ _ _).ok hcall) ih
  | failed call _ _ hcall ih => exact lacks_of_moves hp ((moving_call call _ _ _).error hcall) ih

end Invariants

end Machine

end GraphReduction
