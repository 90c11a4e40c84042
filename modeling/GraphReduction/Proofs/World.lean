import GraphReduction.World
import Mathlib

/-!
# Errors of the world

Whatever a program asks of the world, the only error it can get is that of a foreign call
(`Operation.failsForeign`).
-/

namespace GraphReduction

/-- An operation on the world that fails with the error of a foreign call only. -/
def FailsForeign {α : Type} (x : WorldM α) : Prop :=
  ∀ w e w', x w = .error e w' → ∃ p cause, e = .foreign p cause

namespace FailsForeign

variable {α β : Type} {x y : WorldM α}

theorem bind {g : α → WorldM β} (hx : FailsForeign x) (hg : ∀ a, FailsForeign (g a)) :
    FailsForeign (x >>= g) := by
  intro w e w' h
  change EStateM.bind x g w = _ at h
  unfold EStateM.bind at h
  cases hr : x w with
  | ok a w1 => rw [hr] at h; exact hg a w1 e w' h
  | error e1 w1 => rw [hr] at h; cases h; exact hx w e w' hr

theorem pure (a : α) : FailsForeign (Pure.pure a : WorldM α) := fun _ _ _ h => by cases h

theorem fail (p : Primitive) (cause : String) : FailsForeign (World.fail p cause : WorldM α) :=
  fun _ _ _ h => by cases h; exact ⟨p, cause, rfl⟩

theorem get : FailsForeign (MonadState.get : WorldM World) := fun _ _ _ h => by cases h

theorem of_modify (g : World → World) : FailsForeign (modify g : WorldM Unit) :=
  fun _ _ _ h => by cases h

theorem ite {c : Prop} [Decidable c] (hx : FailsForeign x) (hy : FailsForeign y) :
    FailsForeign (if c then x else y) := by
  split
  · exact hx
  · exact hy

theorem channel (p : Primitive) (handle : Int64) : FailsForeign (World.channel p handle) := by
  refine get.bind fun w => ?_
  split
  · exact fail _ _
  · split
    · exact fail _ _
    · exact pure _

theorem setChannel (i : Nat) (c : Option Channel) : FailsForeign (World.setChannel i c) :=
  of_modify _

theorem flushSlot (i : Nat) : FailsForeign (World.flushSlot i) := of_modify _

theorem refill (p : Primitive) (ahead : Bytes) (file : Option FileCursor) :
    FailsForeign (World.refill p ahead file) := by
  unfold World.refill
  split
  · refine get.bind fun w => ?_
    split
    · exact fail _ _
    · exact pure _
  · exact pure _

theorem nextByte (p : Primitive) (i : Nat) : FailsForeign (World.nextByte p i) := by
  refine get.bind fun w => ?_
  split
  · refine (refill _ _ _).bind fun r => ?_
    dsimp only
    split
    · exact (setChannel _ _).bind fun _ => pure _
    · exact (setChannel _ _).bind fun _ => pure _
  · exact pure _

theorem nextBytes (p : Primitive) (i n : Nat) : FailsForeign (World.nextBytes p i n) := by
  induction n with
  | zero => exact pure _
  | succ n ih =>
    refine (nextByte _ _).bind fun r => ?_
    split
    · exact fail _ _
    · exact ih.bind fun _ => pure _

theorem flushBelow (n : Nat) : FailsForeign (World.flushBelow n) := by
  induction n with
  | zero => exact pure _
  | succ n ih => exact ih.bind fun _ => flushSlot _

theorem install (c : Channel) : FailsForeign (World.install c) := by
  intro w e w' h
  unfold World.install at h
  split at h <;> cases h

end FailsForeign

/-- **An operation fails with the error of a foreign call only.** -/
theorem Operation.failsForeign (o : Operation) : FailsForeign o.perform := by
  cases o <;>
    simp only [perform, World.getChar, World.putChar, World.flush, World.flushAll, World.openFile,
      World.close, World.malloc, World.free, World.peek, World.poke, World.invalidAddress]
  all_goals
    repeat' with_reducible first
      | apply FailsForeign.fail | apply FailsForeign.pure | apply FailsForeign.get
      | apply FailsForeign.of_modify | apply FailsForeign.channel | apply FailsForeign.setChannel
      | apply FailsForeign.flushSlot | apply FailsForeign.nextByte | apply FailsForeign.nextBytes
      | apply FailsForeign.flushBelow | apply FailsForeign.install
      | refine FailsForeign.bind ?_ fun _ => ?_ | refine FailsForeign.ite ?_ ?_ | split

end GraphReduction
