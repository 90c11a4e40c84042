import GraphReduction.Proofs.Machine.Moves

/-!
# The arguments of a program never change

The arguments are part of the world, and the machine reaches the world through its operations
only. None of them changes the arguments, and so no evaluation does.
-/

namespace GraphReduction

/-- A computation that leaves what `view` shows of the state, however it ends. -/
def Fixes {ε σ α τ : Type} (view : σ → τ) (x : EStateM ε σ α) : Prop :=
  ∀ s, Meets x s (fun _ s' => view s' = view s) (fun _ s' => view s' = view s)

namespace Fixes

variable {ε σ α β τ : Type} {view : σ → τ} {x y : EStateM ε σ α}

theorem bind {g : α → EStateM ε σ β} (hx : Fixes view x) (hg : ∀ a, Fixes view (g a)) :
    Fixes view (x >>= g) := by
  intro s
  refine (hx s).bind fun a s1 h1 => ?_
  exact (hg a s1).mono (fun _ _ h2 => h2.trans h1) (fun _ _ h2 => h2.trans h1)

theorem ite {c : Prop} [Decidable c] (hx : Fixes view x) (hy : Fixes view y) :
    Fixes view (if c then x else y) := by
  split
  · exact hx
  · exact hy

theorem pure (a : α) : Fixes view (Pure.pure a : EStateM ε σ α) := fun _ => rfl

theorem throw (e : ε) : Fixes view (throw e : EStateM ε σ α) := fun _ => rfl

theorem get : Fixes view (MonadState.get : EStateM ε σ σ) := fun _ => rfl

theorem of_modify {g : σ → σ} (h : ∀ s, view (g s) = view s) :
    Fixes view (modify g : EStateM ε σ Unit) := h

end Fixes

/-!
## Operations
-/

namespace World

theorem fixes_fail {α : Type} (p : Primitive) (cause : String) :
    Fixes args (fail p cause : WorldM α) := .throw _

theorem fixes_channel (p : Primitive) (handle : Int64) : Fixes args (channel p handle) := by
  refine Fixes.get.bind fun w => ?_
  split
  · exact fixes_fail _ _
  · split
    · exact fixes_fail _ _
    · exact .pure _

theorem fixes_setChannel (i : Nat) (c : Option Channel) : Fixes args (setChannel i c) :=
  .of_modify fun _ => rfl

theorem fixes_flushSlot (i : Nat) : Fixes args (flushSlot i) := by
  refine .of_modify fun w => ?_
  split
  · split <;> rfl
  · rfl

theorem fixes_refill (p : Primitive) (ahead : Bytes) (file : Option FileCursor) :
    Fixes args (refill p ahead file) := by
  unfold refill
  split
  · refine Fixes.get.bind fun w => ?_
    split
    · exact fixes_fail _ _
    · exact .pure _
  · exact .pure _

theorem fixes_nextByte (p : Primitive) (i : Nat) : Fixes args (nextByte p i) := by
  refine Fixes.get.bind fun w => ?_
  split
  · refine (fixes_refill _ _ _).bind fun r => ?_
    dsimp only
    split
    · exact (fixes_setChannel _ _).bind fun _ => .pure _
    · exact (fixes_setChannel _ _).bind fun _ => .pure _
  · exact .pure _

theorem fixes_nextBytes (p : Primitive) (i n : Nat) : Fixes args (nextBytes p i n) := by
  induction n with
  | zero => exact .pure _
  | succ n ih =>
    refine (fixes_nextByte _ _).bind fun r => ?_
    split
    · exact fixes_fail _ _
    · exact ih.bind fun _ => .pure _

theorem fixes_flushBelow (n : Nat) : Fixes args (flushBelow n) := by
  induction n with
  | zero => exact .pure _
  | succ n ih => exact ih.bind fun _ => fixes_flushSlot _

theorem fixes_install (c : Channel) : Fixes args (install c) := by
  intro w
  unfold Meets install
  cases w.handles.findIdx? Option.isNone <;> rfl

theorem fixes_pushPending (i : Nat) (c : Char) : Fixes args (modify fun w =>
    match (w.handles[i]?).join with
    | some (.output pending file append) =>
      { w with handles := w.handles.setIfInBounds i (some (.output (pending.push c) file append)) }
    | _ => w : WorldM Unit) := by
  refine .of_modify fun w => ?_
  split <;> rfl

theorem fixes_putChar (handle : Int64) (c : Char) : Fixes args (putChar handle c) := by
  refine (fixes_channel _ _).bind fun ⟨i, ch⟩ => ?_
  dsimp only
  split
  · exact fixes_fail _ _
  · exact .of_modify fun _ => rfl
  · exact .of_modify fun _ => rfl
  · exact .ite ((fixes_flushSlot i).bind fun _ => fixes_pushPending i c) (fixes_pushPending i c)

end World

/-- **No operation changes the arguments of the program.** -/
theorem Operation.fixes_args (o : Operation) : Fixes World.args o.perform := by
  cases o with
  | putChar handle c => exact World.fixes_putChar handle c
  | malloc words =>
    have hrest : Fixes World.args (do
        modify fun w => { w with blocks := w.blocks.push (some ⟨words.toInt.toNat, ∅⟩) }
        return UInt64.ofNat ((← get).blocks.size * UInt32.size) : WorldM UInt64) :=
      .bind (.of_modify fun _ => rfl) fun _ => .bind .get fun _ => .pure _
    exact .ite (.bind (World.fixes_fail _ _) fun _ => hrest) hrest
  | _ =>
    simp only [perform, World.getChar, World.flush, World.flushAll, World.openFile,
      World.close, World.free, World.peek, World.poke, World.invalidAddress]
    repeat' with_reducible first
      | apply World.fixes_fail | apply Fixes.pure | apply Fixes.get
      | apply World.fixes_channel | apply World.fixes_setChannel
      | apply World.fixes_flushSlot | apply World.fixes_nextByte | apply World.fixes_nextBytes
      | apply World.fixes_flushBelow | apply World.fixes_install
      | exact Fixes.of_modify fun _ => rfl
      | refine Fixes.bind ?_ fun _ => ?_ | refine Fixes.ite ?_ ?_ | split

namespace Machine

variable {a a' : Activity} {m m' : Machine}

theorem args_of_edit (h : Edit m m') : m'.world.args = m.world.args := by
  cases h with
  | answered h => exact (Operation.fixes_args _ _).ok h
  | refused h => exact (Operation.fixes_args _ _).error h
  | _ => rfl

theorem args_of_moves (h : Moves m m') : m'.world.args = m.world.args := by
  induction h with
  | refl | registers => rfl
  | trans _ _ h1 h2 => exact h2.trans h1
  | edit h => exact args_of_edit h

theorem args_load (x : LoadM Loaded) : (m.load x).2.world.args = m.world.args := by
  unfold load
  split
  · rw [pin_machine]
  · rfl

theorem args_of_leads (h : Leads a m a' m') : m'.world.args = m.world.args := by
  rcases moves_of_leads h with hmoves | ⟨x, rfl⟩
  · exact args_of_moves hmoves
  · exact args_load x

/-- **The arguments are those of the world that the machine was made with**, in every state. -/
theorem args_of_reached {config : Config} {world : World} (h : Reached config world a m) :
    m.world.args = world.args := by
  induction h with
  | start => rfl
  | next _ hl ih => exact (args_of_leads hl).trans ih

end Machine

end GraphReduction
