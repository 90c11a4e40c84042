import GraphReduction.Proofs.Machine.Exhaustion
import GraphReduction.Proofs.Machine.Integrity

/-!
# The registers and their limits

A call may be started on any machine, whatever is on its stack, and may end at any depth: with a
result, or with an error that was raised while an argument was forced, an action run or the text of an
error evaluated. It leaves the registers as they were, and on the way none grows past its limit.
-/

namespace GraphReduction

namespace Machine

/-- The suspended spines and the depth are the same. -/
def SameFrames (m m' : Machine) : Prop := m'.frames = m.frames ∧ m'.depth = m.depth

variable {m m1 m' : Machine}

theorem allows_sameFrames : AllowsStack SameFrames where
  refl _ := ⟨rfl, rfl⟩
  trans h1 h2 := ⟨h2.1.trans h1.1, h2.2.trans h1.2⟩
  edit h := by cases h <;> exact ⟨rfl, rfl⟩
  stack _ _ _ := ⟨rfl, rfl⟩

theorem Quiet.sameFrames {α : Type} {x : Run α} (h : Quiet x) : Leaves SameFrames x :=
  fun m => (h m).mono (fun _ _ hs => ⟨hs.frames, hs.depth⟩) fun _ _ hs => ⟨hs.frames, hs.depth⟩

/-- **The I/O loop leaves the suspended spines and the depth alone.** -/
theorem sameFrames_performFrom (fuel : Nat) (binds : List Bool) :
    Leaves SameFrames (performFrom fuel binds) := by
  induction fuel generalizing binds with
  | zero => exact fun _ => ⟨rfl, rfl⟩
  | succ fuel ih =>
    exact leaves_performFrom allows_sameFrames (fun id => (quiet_whnf fuel id).sameFrames)
      (fun id => (quiet_normalize fuel id).sameFrames) ih binds

/-- **Normalisation leaves the suspended spines and the depth alone.** -/
theorem sameFrames_normalizeFrom (base fuel : Nat) (pending : List OpenValue) :
    Leaves SameFrames (normalizeFrom base fuel pending) := by
  induction fuel generalizing pending with
  | zero => exact fun _ => ⟨rfl, rfl⟩
  | succ fuel ih =>
    exact leaves_normalizeFrom allows_sameFrames (fun id => (quiet_whnf fuel id).sameFrames) ih pending

theorem within_load (x : LoadM Loaded) (m : Machine) : Within m (m.load x).2 := by
  unfold load
  cases x m.heap with
  | ok l heap => rw [pin_machine]; exact ⟨rfl, rfl, le_max_right _ _, le_max_right _ _⟩
  | error e heap => exact ⟨rfl, rfl, le_max_right _ _, le_max_right _ _⟩

theorem within_of_leads {a a' : Activity} (h : Leads a m a' m') : Within m m' := by
  rcases moves_of_leads h with hmoves | ⟨x, rfl⟩
  · exact within_of_moves hmoves
  · exact within_load x m

theorem within_of_onward {a a' : Activity} (h : Onward a m a' m') : Within m m' := by
  induction h with
  | here => exact .refl _
  | next hl _ ih => exact (within_of_leads hl).trans ih

/-- **Every call restores the registers**, on any machine and however it ends: the stack with all its
entries, the suspended spines and the depth. In every state that it goes through the stack and the
depth are within their limits, unless they were beyond them before. Neither the I/O loop nor
normalisation leaves a suspended spine behind or drops one, not even when it fails, before any register
is set back. -/
theorem registers_of_call (call : EntryPoint) (fuel id : Nat) (m : Machine) :
    Meets (call.call fuel id) m
      (fun _ m' => m'.stack = m.stack ∧ m'.frames = m.frames ∧ m'.depth = m.depth)
      (fun _ m' => m'.stack = m.stack ∧ m'.frames = m.frames ∧ m'.depth = m.depth) ∧
    (∀ a₀ m₀ a₁ m₁, call.Starts fuel id m a₀ m₀ → Onward a₀ m₀ a₁ m₁ →
      m₁.stack.size ≤ max m.stackLimit m.stack.size ∧ m₁.depth ≤ max m.depthLimit m.depth) ∧
    (∀ binds, Meets (performFrom fuel binds) m
      (fun _ m' => m'.frames = m.frames ∧ m'.depth = m.depth)
      (fun _ m' => m'.frames = m.frames ∧ m'.depth = m.depth)) ∧
    ∀ base pending, Meets (normalizeFrom base fuel pending) m
      (fun _ m' => m'.frames = m.frames ∧ m'.depth = m.depth)
      (fun _ m' => m'.frames = m.frames ∧ m'.depth = m.depth) := by
  refine ⟨?_, fun a₀ m₀ a₁ m₁ hstart hon => ?_, fun binds => ?_, fun base pending => ?_⟩
  · exact (quiet_call call fuel id m).mono (fun _ _ h => ⟨h.stack, h.frames, h.depth⟩)
      fun _ _ h => ⟨h.stack, h.frames, h.depth⟩
  · have hw := (within_of_moves (moves_of_starts hstart)).trans (within_of_onward hon)
    exact ⟨hw.stack, hw.depth⟩
  · exact sameFrames_performFrom fuel binds m
  · exact sameFrames_normalizeFrom base fuel pending m

/-- A negation that waits for its argument, with room for two more entries on the stack. -/
def crowded : Machine := { negating 2 #[0] #[5, 1] with stackLimit := 4 }

/-- Normalising its definition overflows the stack while it unwinds, inside a nested evaluation, and
the suspended spine is still there. -/
theorem registers_of_call_crowded : ∃ m',
    EntryPoint.normalize.call 6 0 crowded = .error (.error (.stackOverflow 4)) m' ∧
      m'.stack = #[5, 1] ∧ m'.frames = #[0] ∧ m'.depth = 2 := by
  have hcall : EntryPoint.normalize.call 6 0 crowded = .error (.error (.stackOverflow 4)) crowded := rfl
  exact ⟨crowded, hcall, (registers_of_call .normalize 6 0 crowded).1.error hcall⟩

end Machine

end GraphReduction
