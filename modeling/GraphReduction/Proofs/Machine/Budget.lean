import GraphReduction.Proofs.Machine.Safe

/-!
# How many cells a rule takes

Allocation never collects, so what a rule allocates has to fit into the room that the last safe point
has left. A rule first reads, then allocates, and at last overwrites its redex: while it allocates, the
free list stays intact, and no allocation fails as long as there is room.
-/

namespace GraphReduction

/-- The free list is intact, and there is room for `n` cells. -/
def Heap.Stocked (h : Heap) (n : Nat) : Prop := h.FreeList (fun _ => False) ∧ n ≤ h.freeCells

theorem Heap.Stocked.mono {h : Heap} {n k : Nat} (hs : h.Stocked n) (hk : k ≤ n) : h.Stocked k :=
  ⟨hs.1, hk.trans hs.2⟩

theorem Heap.Stocked.alloc {h : Heap} {n : Nat} (hs : h.Stocked (n + 1)) (c : Cell) :
    ∃ id h', Heap.alloc c h = .ok id h' ∧ h'.Stocked n := by
  obtain ⟨hf, hn⟩ := hs
  rcases Heap.alloc_cases hf (fun _ hx => hx.elim) c with ⟨-, hzero⟩ | ⟨id, h', hal, -, hspec, hf'⟩
  · omega
  · have := hspec.freeCells
    exact ⟨id, h', hal, hf'.mono fun _ hx => hx.elim, by omega⟩

/-- An error that is not about memory. -/
def Halt.NotMemory : Halt → Prop
  | .error (.outOfMemory _) => False
  | _ => True

theorem Halt.IsMistake.notMemory {e : Halt} (h : e.IsMistake) : e.NotMemory := by
  unfold IsMistake at h
  split at h <;> trivial

namespace Machine

variable {α β : Type} {m : Machine} {n k top : Nat} {x : Run α} {g : α → Run β}

theorem Safe.stocked {held : List Nat} (h : m.Safe held) (hn : n ≤ m.heap.freeCells) :
    m.heap.Stocked n := by
  obtain ⟨G, hG, -⟩ := h
  exact ⟨hG.free.mono fun _ hx => hx.elim, hn⟩

/-!
## Allocating
-/

/-- **A part of a rule that takes at most `n` cells**: with room for them it does not run out of
memory, and leaves the rest of the room. -/
def Takes (n : Nat) (x : Run α) : Prop :=
  ∀ k m, m.heap.Stocked (n + k) → Meets x m (fun _ m' => m'.heap.Stocked k) fun e _ => e.NotMemory

/-- The last part of a rule, which takes at most `n` cells. -/
def Ends (n : Nat) (x : Run α) : Prop :=
  ∀ m, m.heap.Stocked n → Meets x m (fun _ _ => True) fun e _ => e.NotMemory

theorem Reads.takes (hx : Reads x) : Takes 0 x := fun k m hm =>
  (hx m).mono (fun _ _ e => e ▸ hm.mono (by omega)) fun _ _ he => he.1.notMemory

theorem takes_alloc (c : Cell) : Takes 1 (alloc c) := by
  intro k m hm
  obtain ⟨id, h', hal, hs⟩ := (hm.mono (k := k + 1) (by omega)).alloc c
  unfold Meets alloc
  rw [hal]
  exact hs

theorem Takes.bind {x : Run α} {g : α → Run β} (hx : Takes n x) (hg : ∀ a, Takes k (g a)) :
    Takes (n + k) (x >>= g) := by
  intro j m hm
  exact (hx (k + j) m (by rwa [← Nat.add_assoc])).bind fun a m' h' => hg a j m' h'

theorem Takes.ends_bind (hx : Takes n x) (hg : ∀ a, Ends k (g a)) : Ends (n + k) (x >>= g) := by
  intro m hm
  exact (hx k m hm).bind fun a m' h' => hg a m' h'

theorem Takes.ends (hx : Takes n x) : Ends n x := fun m hm =>
  (hx 0 m hm).imp fun _ _ _ => trivial

theorem Reads.ends_bind (hx : Reads x) (hg : ∀ a, Ends n (g a)) : Ends n (x >>= g) := by
  have := hx.takes.ends_bind hg
  rwa [Nat.zero_add] at this

theorem Ends.mono (hx : Ends n x) (hn : n ≤ k) : Ends k x := fun m hm => hx m (hm.mono hn)

theorem ends_alloc_bind {c : Cell} {g : Nat → Run α} (hg : ∀ id, Ends n (g id)) :
    Ends (n + 1) (alloc c >>= g) := by
  rw [Nat.add_comm]
  exact (takes_alloc c).ends_bind hg

theorem ends_app_bind {f a : Nat} {g : Nat → Run α} (hg : ∀ id, Ends n (g id)) :
    Ends (n + 1) (app f a >>= g) := ends_alloc_bind hg

theorem ends_fail {e : RuntimeError} (he : Halt.NotMemory (.error e)) : Ends n (fail e : Run α) :=
  fun _ _ => he

theorem ends_overwrite (redex : Nat) (c : Cell) : Ends n (overwrite redex c) := fun _ _ => trivial

theorem notMemory_forward (redex target : Nat) (m : Machine) :
    Meets (forward redex target) m (fun _ _ => True) fun e _ => e.NotMemory := by
  simp only [forward, updateInd, meets_bind, meets_resolve, meets_ite, meets_malformed, meets_setCell,
    meets_pure]
  split <;> trivial

theorem ends_forward (redex target : Nat) : Ends n (forward redex target) :=
  fun m _ => notMemory_forward redex target m

/-!
## Rules
-/

theorem takes_applyAll (f : Nat) (args : List Nat) : Takes args.length (applyAll f args) := by
  induction args generalizing f with
  | nil => exact (Reads.pure f).takes
  | cons a args ih =>
    rw [List.length_cons, Nat.add_comm]
    exact (takes_alloc _).bind fun fa => ih fa

/-- **No combinator but a case takes more than three cells.** -/
theorem ends_fire {c : Combinator} (hc : ∀ n, c ≠ .caseOf n) (top : Nat) : Ends 3 (fire c top) := by
  cases c with
  | caseOf n => exact absurd rfl (hc n)
  | con _ _ | ioBind | ioThen | ioReturn => exact ends_fail trivial
  | _ =>
    simp only [fire]
    repeat' first
      | with_reducible exact ends_overwrite _ _
      | with_reducible exact ends_forward _ _
      | with_reducible refine (Reads.arg _ _).ends_bind fun _ => ?_
      | with_reducible refine (Reads.entry _).ends_bind fun _ => ?_
      | with_reducible refine ends_app_bind fun _ => ?_

theorem ends_overwrite_string (redex : Nat) (s : String) :
    Ends 2 (do overwrite redex (← stringCell s)) := by
  unfold stringCell
  simp only [bind_assoc, pure_bind]
  exact ends_alloc_bind fun _ => ends_alloc_bind fun _ => ends_overwrite _ _

theorem ends_fireUnpack (top : Nat) : Ends 5 (fireUnpack top) := by
  refine (Reads.arg _ _).ends_bind fun a => (Reads.resolve a).ends_bind fun s =>
    (Reads.entry _).ends_bind fun redex => (Reads.cell s).ends_bind fun c => ?_
  split
  · exact ends_overwrite _ _
  · exact ends_alloc_bind fun head => ends_alloc_bind fun rest => (Reads.entry _).ends_bind fun unpack =>
      ends_app_bind fun rest => ends_alloc_bind fun cons => ends_app_bind fun cell => ends_overwrite _ _
  · exact (Reads.mismatch _ _ _).takes.ends.mono (by omega)

/-- **No primitive takes more than five cells**, but for those that start an evaluation. -/
theorem ends_firePrimitive (ev : Evaluators) {p : Primitive} (hperform : p ≠ .perform)
    (herror : p ≠ .error) (top : Nat) : Ends 5 (firePrimitive ev p top) := by
  cases p with
  | perform => exact absurd rfl hperform
  | error => exact absurd rfl herror
  | unpack => exact (Reads.entry _).ends_bind fun _ => ends_fireUnpack top
  | tick =>
    refine (Reads.entry _).ends_bind fun redex => (Reads.intArg _ _ _).ends_bind fun n m hm => ?_
    rw [meets_bind]
    exact (Reads.arg _ _).ends_bind (fun a => ends_forward redex a) _ hm
  | showInt =>
    exact (Reads.entry _).ends_bind fun redex => (Reads.intArg _ _ _).ends_bind fun n =>
      (ends_overwrite_string _ _).mono (by omega)
  | showDouble =>
    exact (Reads.entry _).ends_bind fun redex => (Reads.doubleArg _ _ _).ends_bind fun x =>
      (ends_overwrite_string _ _).mono (by omega)
  | _ =>
    -- the other rules read their arguments, and fail or overwrite the redex with a leaf
    simp only [firePrimitive, intRule, divisionRule, doubleRule]
    refine (Reads.entry _).ends_bind fun redex => ?_
    repeat' first
      | with_reducible exact ends_overwrite _ _
      | with_reducible exact ends_forward _ _
      | with_reducible refine (Reads.intArg _ _ _).ends_bind fun _ => ?_
      | with_reducible refine (Reads.charArg _ _ _).ends_bind fun _ => ?_
      | with_reducible refine (Reads.doubleArg _ _ _).ends_bind fun _ => ?_
      | with_reducible refine (Reads.ptrArg _ _ _).ends_bind fun _ => ?_
      | with_reducible refine (Reads.arg _ _).ends_bind fun _ => ?_
      | exact ends_fail trivial
      | split

theorem takes_argumentCells (unpack cons nil : Nat) (args : List String) :
    Takes (4 * args.length) (argumentCells unpack cons nil args) := by
  induction args with
  | nil => exact (Reads.pure nil).takes
  | cons s args ih =>
    rw [List.length_cons, Nat.mul_add]
    exact ih.bind fun list => (takes_alloc _).bind (k := 3) fun text => (takes_alloc _).bind (k := 2)
      fun string => (takes_alloc _).bind (k := 1) fun cell => takes_alloc _

end Machine

end GraphReduction
