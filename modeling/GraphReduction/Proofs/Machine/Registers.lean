import GraphReduction.Proofs.Machine.Contraction
import GraphReduction.Proofs.Machine.Edits

/-!
# Registers

The stack, the list of suspended spines and the depth are shared by all evaluations that are
nested in each other. Rules and actions leave them alone (`Quiet`), and so does every nested
evaluation, because it only works above the place where it started (`Keeps`) and sets the
registers back there however it ends.
-/

namespace GraphReduction

open List

namespace Machine

/-!
## What stays the same
-/

/-- What no evaluation changes: the definitions and the limits. -/
structure SameSetup (m m' : Machine) : Prop where
  pinned : m'.pinned = m.pinned
  globals : m'.globals = m.globals
  stackLimit : m'.stackLimit = m.stackLimit
  depthLimit : m'.depthLimit = m.depthLimit
  gcStress : m'.gcStress = m.gcStress

/-- Only the heap, the world and the statistics may differ. -/
structure Steady (m m' : Machine) : Prop extends SameSetup m m' where
  stack : m'.stack = m.stack
  frames : m'.frames = m.frames
  depth : m'.depth = m.depth

/-- The stack below position `s` and the first `f` suspended spines are the same. -/
structure Keeps (s f : Nat) (m m' : Machine) : Prop extends SameSetup m m' where
  stack : m'.stack.toList.take s = m.stack.toList.take s
  frames : m'.frames.toList.take f = m.frames.toList.take f

variable {m m1 m2 m' : Machine} {s s' f f' : Nat} {id : Nat}

theorem SameSetup.refl (m : Machine) : SameSetup m m := ⟨rfl, rfl, rfl, rfl, rfl⟩

theorem SameSetup.trans (h1 : SameSetup m m1) (h2 : SameSetup m1 m2) : SameSetup m m2 :=
  ⟨h2.pinned.trans h1.pinned, h2.globals.trans h1.globals, h2.stackLimit.trans h1.stackLimit,
    h2.depthLimit.trans h1.depthLimit, h2.gcStress.trans h1.gcStress⟩

theorem Steady.refl (m : Machine) : Steady m m := ⟨.refl m, rfl, rfl, rfl⟩

theorem Steady.trans (h1 : Steady m m1) (h2 : Steady m1 m2) : Steady m m2 :=
  ⟨h1.toSameSetup.trans h2.toSameSetup, h2.stack.trans h1.stack, h2.frames.trans h1.frames,
    h2.depth.trans h1.depth⟩

theorem Steady.keeps (h : Steady m m') : Keeps s f m m' :=
  ⟨h.toSameSetup, by rw [h.stack], by rw [h.frames]⟩

theorem Keeps.refl (m : Machine) : Keeps s f m m := ⟨.refl m, rfl, rfl⟩

theorem Keeps.trans (h1 : Keeps s f m m1) (h2 : Keeps s f m1 m2) : Keeps s f m m2 :=
  ⟨h1.toSameSetup.trans h2.toSameSetup, h2.stack.trans h1.stack, h2.frames.trans h1.frames⟩

theorem Keeps.mono (h : Keeps s f m m') (hs : s' ≤ s) (hf : f' ≤ f) : Keeps s' f' m m' := by
  refine ⟨h.toSameSetup, ?_, ?_⟩
  · have := congrArg (take s') h.stack
    simpa [take_take, Nat.min_eq_left hs] using this
  · have := congrArg (take f') h.frames
    simpa [take_take, Nat.min_eq_left hf] using this

/-!
## Computations that leave the registers alone
-/

/-- A computation that leaves the registers alone, however it ends. -/
def Quiet {α : Type} (x : Run α) : Prop :=
  ∀ m, Meets x m (fun _ m' => Steady m m') (fun _ m' => Steady m m')

theorem allows_steady : Allows Steady where
  refl := .refl
  trans := .trans
  edit h := by cases h <;> exact ⟨⟨rfl, rfl, rfl, rfl, rfl⟩, rfl, rfl, rfl⟩

namespace Quiet

theorem alloc (c : Cell) : Quiet (Machine.alloc c) := by
  intro m
  unfold Meets Machine.alloc
  cases Heap.alloc c m.heap <;> exact ⟨⟨rfl, rfl, rfl, rfl, rfl⟩, rfl, rfl, rfl⟩

theorem onWorld (o : Operation) : Quiet (Machine.onWorld o) := allows_steady.onWorld o

theorem app (g a : Nat) : Quiet (Machine.app g a) := allows_steady.app g a

theorem reserve (n : Nat) : Quiet (Machine.reserve n) := allows_steady.reserve n

theorem safePoint : Quiet Machine.safePoint := allows_steady.safePoint

end Quiet

theorem quiet_fire (c : Combinator) (top : Nat) : Quiet (fire c top) := leaves_fire allows_steady c top

theorem quiet_fireStrict {ev : Evaluators} {p : Primitive} {top : Nat}
    (hperform : ∀ id, Quiet (ev.perform id)) (hnormalize : ∀ id, Quiet (ev.normalize id)) :
    Quiet (fireStrict ev p top) := leaves_fireStrict allows_steady hperform hnormalize p top

theorem quiet_execute {whnf : Nat → Run Nat} {normalize : Nat → Run Value}
    (hwhnf : ∀ id, Quiet (whnf id)) (hnormalize : ∀ id, Quiet (normalize id)) (p : Primitive)
    (top : Nat) : Quiet (execute whnf normalize p top) :=
  leaves_execute allows_steady hwhnf hnormalize p top

/-!
## A look at a spine
-/

/-- The spine that starts at `base` may have changed, and nothing below it. -/
structure Above (base : Nat) (m m' : Machine) : Prop extends SameSetup m m' where
  stack : m'.stack.toList.take base = m.stack.toList.take base
  base_lt : base < m'.stack.size
  frames : m'.frames = m.frames
  depth : m'.depth = m.depth

section Step

variable {ev : Evaluators} {base : Nat} {n : Nat}

theorem Steady.above (h : Steady m m') (hb : base < m.stack.size) : Above base m m' :=
  ⟨h.toSameSetup, by rw [h.stack], by rw [h.stack]; exact hb, h.frames, h.depth⟩

theorem Above.keeps (h : Above base m m') : Keeps base f m m' :=
  ⟨h.toSameSetup, h.stack, by rw [h.frames]⟩

theorem above_setEntry (hb : base < m.stack.size) {i : Nat} (hi : base ≤ i) :
    Above base m { m with stack := m.stack.setIfInBounds i id } := by
  refine ⟨⟨rfl, rfl, rfl, rfl, rfl⟩, ?_, by simpa using hb, rfl, rfl⟩
  simp [take_set_of_le hi]

theorem above_push (hb : base < m.stack.size) :
    Above base m { m with stack := m.stack.push id } := by
  refine ⟨⟨rfl, rfl, rfl, rfl, rfl⟩, ?_, by simp; omega, rfl, rfl⟩
  rw [Array.toList_push, take_append_of_le_length (by simp; omega)]

theorem above_truncate (hb : base < m.stack.size) (hn : base < n) :
    Above base m { m with stack := m.stack.shrink n } := by
  refine ⟨⟨rfl, rfl, rfl, rfl, rfl⟩, ?_, by simp; omega, rfl, rfl⟩
  simp [take_take, Nat.min_eq_left (Nat.le_of_lt hn)]

theorem Above.trans (h1 : Above base m m1) (h2 : Above base m1 m2) : Above base m m2 :=
  ⟨h1.toSameSetup.trans h2.toSameSetup, h2.stack.trans h1.stack, h2.base_lt,
    h2.frames.trans h1.frames, h2.depth.trans h1.depth⟩

theorem above_afterRule (hb : base < m.stack.size) (hn : n ≤ m.stack.size - 1 - base) (r : Fired) :
    Meets (afterRule (m.stack.size - 1) n r) m (fun _ m' => Above base m m')
      (fun _ m' => Above base m m') := by
  cases r with
  | waitingFor a => exact (Steady.refl m).above hb
  | yes =>
    simp only [afterRule, meets_bind, meets_modify, meets_truncate, meets_pure]
    have htrunc := above_truncate hb (n := m.stack.size - 1 - n + 1) (by omega)
    exact ⟨⟨rfl, rfl, rfl, rfl, rfl⟩, htrunc.stack, htrunc.base_lt, rfl, rfl⟩

theorem above_rule {x : Run Fired} (hx : Quiet x) (hb : base < m.stack.size)
    (hn : n ≤ m.stack.size - 1 - base) :
    Meets (do afterRule (m.stack.size - 1) n (← x)) m (fun _ m' => Above base m m')
      (fun _ m' => Above base m m') := by
  rw [meets_bind]
  refine (hx m).mono (fun r m1 h1 => ?_) (fun _ _ h => h.above hb)
  have hb1 : base < m1.stack.size := by rw [h1.stack]; exact hb
  have := above_afterRule hb1 (n := n) (by rw [h1.stack]; exact hn) r
  rw [h1.stack] at this
  exact this.mono (fun _ _ h => (h1.above hb).trans h) (fun _ _ h => (h1.above hb).trans h)

theorem above_step (hperform : ∀ id, Quiet (ev.perform id))
    (hnormalize : ∀ id, Quiet (ev.normalize id)) (hb : base < m.stack.size) :
    Meets (step ev base) m (fun _ m' => Above base m m') (fun _ m' => Above base m m') := by
  have hsame := (Steady.refl m).above hb
  refine meets_step fun x hx => ?_
  cases hx with
  | app =>
    simp only [meets_bind, meets_push, meets_pure]
    split
    · exact hsame
    · exact above_push hb
  | ind => exact above_setEntry hb (by omega)
  | comb _ _ hle => exact above_rule (quiet_fire _ _) hb hle
  | prim _ _ hle => exact above_rule (quiet_fireStrict hperform hnormalize) hb hle
  | loop | done | scalar | free => exact hsame

end Step

/-!
## Nested evaluations
-/

section Nested

variable {α : Type} {id : Nat} {body : Nat → Run α}

theorem meets_nested {Q : α → Machine → Prop} {E : Halt → Machine → Prop} :
    Meets (nested id body) m Q E ↔ Meets (do enter; push id; body m.stack.size) m
      (fun a m' => Q a (m'.restore m.stack.size m.frames.size m.depth))
      (fun e m' => E e (m'.restore m.stack.size m.frames.size m.depth)) := by
  simp only [Meets, nested]
  cases (do enter; push id; body m.stack.size : Run α) m <;> rfl

theorem Keeps.restore (h : Keeps m.stack.size m.frames.size m m') :
    Steady m (m'.restore m.stack.size m.frames.size m.depth) := by
  refine ⟨⟨h.pinned, h.globals, h.stackLimit, h.depthLimit, h.gcStress⟩, ?_, ?_, rfl⟩
  · apply Array.ext'
    have := h.stack
    simp only [Machine.restore, Array.toList_shrink, this]
    exact take_of_length_le (by simp)
  · apply Array.ext'
    have := h.frames
    simp only [Machine.restore, Array.toList_shrink, this]
    exact take_of_length_le (by simp)

/-- **A nested evaluation that keeps what is below it restores the registers.** -/
theorem quiet_nested (h : ∀ m, 0 < m.stack.size → Meets (body (m.stack.size - 1)) m
      (fun _ m' => Keeps (m.stack.size - 1) m.frames.size m m')
      (fun _ m' => Keeps (m.stack.size - 1) m.frames.size m m')) : Quiet (nested id body) := by
  intro m
  simp only [meets_nested, meets_bind, meets_enter, meets_push]
  have hsame : Steady m (m.restore m.stack.size m.frames.size m.depth) := (Keeps.refl m).restore
  split
  · exact hsame
  · split
    · exact Keeps.restore ⟨⟨rfl, rfl, rfl, rfl, rfl⟩, rfl, rfl⟩
    · have hstart : Keeps m.stack.size m.frames.size m
          { m with depth := m.depth + 1, stack := m.stack.push id } :=
        ⟨⟨rfl, rfl, rfl, rfl, rfl⟩, by simp [take_of_length_le], rfl⟩
      have hrun := h { m with depth := m.depth + 1, stack := m.stack.push id } (by simp)
      simp only [Array.size_push, Nat.add_sub_cancel] at hrun
      exact hrun.mono (fun _ _ hk => (hstart.trans hk).restore) (fun _ _ hk => (hstart.trans hk).restore)

end Nested

/-!
## The loops
-/

section Loops

variable {fuel outer base : Nat} {low : Nat} {binds : List Bool} {pending : List OpenValue}

/-- How unwinding goes on after a step. -/
def goOn (outer fuel base : Nat) : Progress → Run Nat
  | .again => unwind outer fuel base
  | .force id => do
    let base ← suspend base id
    unwind outer fuel base
  | .done => do
    if (← get).frames.size = outer then entry base
    else
      let base ← resume base
      unwind outer fuel base

theorem unwind_succ : unwind outer (fuel + 1) base = (do
    safePoint
    goOn outer fuel base (← step ⟨perform fuel, normalize fuel⟩ base)) := rfl

/-- How the I/O loop goes on after an action at stack position `top` has given a result. -/
def finishAction (fuel top : Nat) (binds : List Bool) (result : Nat) : Run Nat :=
  match binds with
  | [] => return result
  | takesResult :: binds => do
    handOver top takesResult result
    performFrom fuel binds

/-- How the I/O loop runs an action in weak head normal form at stack position `top`. -/
def act (fuel top : Nat) (binds : List Bool) (action : Nat) : ActionForm → Run Nat
  | .result x => finishAction fuel top binds x
  | .bind x k => do
    (do setEntry top k; push x : Run Unit)
    performFrom fuel (true :: binds)
  | .sequence x y => do
    (do setEntry top y; push x : Run Unit)
    performFrom fuel (false :: binds)
  | .primitive p => do finishAction fuel top binds (← execute (whnf fuel) (normalize fuel) p top)
  | .other => do fail (.notAnAction (← describe action))

theorem performFrom_succ : performFrom (fuel + 1) binds = (do
    safePoint
    let top ← top
    let action ← whnf fuel (← entry top)
    setEntry top action
    act fuel top binds action (actionForm (← get).heap action)) := rfl

/-- How normalisation goes on with what it has found in weak head normal form. -/
def addValue (base fuel : Nat) (pending : List OpenValue) :
    Value ⊕ (UInt32 × List Nat) → Run Value
  | .inr (tag, fields) => do
    pushAll fields
    normalizeFrom base fuel (⟨tag, fields.length, []⟩ :: pending)
  | .inl value =>
    match closeValue value pending with
    | .inl value => return value
    | .inr pending => normalizeFrom base fuel pending

theorem normalizeFrom_succ :
    normalizeFrom base (fuel + 1) pending = (do
      if (← get).stack.size ≤ base then malformed .nothingToNormalize
      let top ← top
      let v ← whnf fuel (← entry top)
      truncate top
      addValue base fuel pending (valueForm (← get).heap v)) := rfl

/-- The spines of one evaluation, which are the suspended ones after the first `outer` and the one
at `base`, lie on the stack in this order. -/
structure Unwinding (outer base : Nat) (m : Machine) : Prop where
  outer_le : outer ≤ m.frames.size
  ascending : (m.frames.toList.drop outer ++ [base]).Pairwise (· < ·)
  base_lt : base < m.stack.size

/-- Where the first of these spines starts. -/
def lowest (outer base : Nat) (m : Machine) : Nat := (m.frames.toList.drop outer).headD base

theorem Unwinding.lowest_le (h : Unwinding outer base m) : lowest outer base m ≤ base := by
  have hasc := h.ascending
  unfold lowest
  cases hl : m.frames.toList.drop outer with
  | nil => exact Nat.le_refl _
  | cons b bs =>
    rw [hl] at hasc
    exact Nat.le_of_lt ((pairwise_cons.1 hasc).1 base (by simp))

/-- The spines of an evaluation that has gone from `m` to `m'`: the first is still at `low`, and
below it nothing has changed. -/
structure Spans (low outer base : Nat) (m m' : Machine) : Prop where
  unwinding : Unwinding outer base m'
  lowest_eq : lowest outer base m' = low
  keeps : Keeps low outer m m'

theorem Spans.trans {base' : Nat} (h : Spans low outer base m m1)
    (h' : Spans (lowest outer base m1) outer base' m1 m') : Spans low outer base' m m' := by
  rw [h.lowest_eq] at h'
  exact ⟨h'.unwinding, h'.lowest_eq, h.keeps.trans h'.keeps⟩

section

variable (h : Unwinding outer base m)
include h

theorem Unwinding.above (ha : Above base m m') :
    Spans (lowest outer base m) outer base m m' := by
  refine ⟨⟨?_, ?_, ha.base_lt⟩, ?_, ha.keeps.mono h.lowest_le (Nat.le_refl _)⟩
  · rw [ha.frames]; exact h.outer_le
  · rw [ha.frames]; exact h.ascending
  · unfold lowest; rw [ha.frames]

theorem Unwinding.drop_push (b : Nat) :
    (m.frames.push b).toList.drop outer = m.frames.toList.drop outer ++ [b] := by
  rw [Array.toList_push, drop_append_of_le_length (by simpa using h.outer_le)]

theorem Unwinding.exists_frame (hne : m.frames.size ≠ outer) :
    ∃ l b, m.frames.toList = l ++ [b] ∧ outer ≤ l.length ∧ m.frames.pop.toList = l ∧
      m.frames.back?.getD base = b := by
  obtain ⟨l, b, hl⟩ : ∃ l b, m.frames.toList = l ++ [b] := by
    rcases eq_nil_or_concat m.frames.toList with hnil | ⟨l, b, hl⟩
    · have := h.outer_le
      have hz : m.frames.size = 0 := by rw [← Array.length_toList, hnil]; rfl
      omega
    · exact ⟨l, b, by rw [hl, concat_eq_append]⟩
  have hsize : m.frames.size = l.length + 1 := by rw [← Array.length_toList, hl]; simp
  refine ⟨l, b, hl, ?_, ?_, ?_⟩
  · have := h.outer_le; omega
  · rw [Array.toList_pop, hl]; simp
  · rw [← Array.getLast?_toList, hl]; simp


/-- Suspending changes the registers only from the lowest base up. -/
theorem Unwinding.suspend (id : Nat) :
    Meets (suspend base id) m (fun base' => Spans (lowest outer base m) outer base' m)
      fun _ => Keeps (lowest outer base m) outer m := by
  have hdrop := h.drop_push base
  have htake : (m.frames.push base).toList.take outer = m.frames.toList.take outer := by
    rw [Array.toList_push, take_append_of_le_length (by simpa using h.outer_le)]
  have hlow := h.lowest_le
  have hb := h.base_lt
  simp only [Machine.suspend, meets_bind, meets_enter, meets_modify, meets_push, meets_top]
  split
  · exact .refl m
  · split
    · exact ⟨⟨rfl, rfl, rfl, rfl, rfl⟩, rfl, htake⟩
    · refine ⟨⟨?_, ?_, ?_⟩, ?_, ⟨⟨rfl, rfl, rfl, rfl, rfl⟩, ?_, htake⟩⟩
      · have := h.outer_le; simp; omega
      · rw [hdrop, pairwise_append]
        refine ⟨h.ascending, by simp, ?_⟩
        intro b hmem b' hb'
        rw [mem_singleton] at hb'
        subst hb'
        have hbase : b ≤ base := by
          rcases mem_append.1 hmem with hm | hm
          · exact Nat.le_of_lt ((pairwise_append.1 h.ascending).2.2 b hm base (by simp))
          · simp at hm; omega
        simp; omega
      · simp
      · unfold lowest; rw [hdrop]
        cases m.frames.toList.drop outer <;> rfl
      · rw [Array.toList_push, take_append_of_le_length (by simp; omega)]

/-- Resuming changes them only from there up, too. -/
theorem Unwinding.resume (hne : m.frames.size ≠ outer) :
    Meets (resume base) m (fun base' => Spans (lowest outer base m) outer base' m)
      fun _ => Keeps (lowest outer base m) outer m := by
  obtain ⟨l, b, hl, hle, hpop, hback⟩ := h.exists_frame hne
  have hsize : m.frames.size = l.length + 1 := by rw [← Array.length_toList, hl]; simp
  have hdrop : m.frames.toList.drop outer = l.drop outer ++ [b] := by
    rw [hl, drop_append_of_le_length hle]
  have hasc := h.ascending
  rw [hdrop] at hasc
  have hbb : b < base := (pairwise_append.1 hasc).2.2 b (by simp) base (by simp)
  have hb := h.base_lt
  have hlow := h.lowest_le
  simp only [Machine.resume, meets_bind, meets_truncate, meets_get, meets_modify, meets_pure, hback]
  refine ⟨⟨?_, ?_, ?_⟩, ?_, ⟨⟨rfl, rfl, rfl, rfl, rfl⟩, ?_, ?_⟩⟩
  · simp; omega
  · rw [hpop]; exact (pairwise_append.1 hasc).1
  · simp; omega
  · unfold lowest; rw [hpop, hdrop]
    cases l.drop outer <;> rfl
  · simp only [Array.toList_shrink, take_take, Nat.min_eq_left hlow]
  · show m.frames.pop.toList.take outer = _
    rw [hpop, hl, take_append_of_le_length hle]

end

/-- The operands of the actions that are being run lie on the stack above position `low`, and
nothing has changed below it. -/
structure Operands (low : Nat) (binds : List Bool) (m m' : Machine) : Prop where
  size : m'.stack.size = low + binds.length + 1
  frames : m'.frames = m.frames
  keeps : Keeps low m.frames.size m m'

namespace Operands

variable {low : Nat} {b : Bool} {binds : List Bool}

theorem steady (h : Operands low binds m m1) (h' : Steady m1 m') : Operands low binds m m' :=
  ⟨by rw [h'.stack]; exact h.size, h'.frames.trans h.frames, h.keeps.trans h'.keeps⟩

theorem setEntry (h : Operands low binds m m') {i : Nat} (hi : low ≤ i) :
    Operands low binds m { m' with stack := m'.stack.setIfInBounds i id } := by
  refine ⟨by simpa using h.size, h.frames, h.keeps.trans ⟨⟨rfl, rfl, rfl, rfl, rfl⟩, ?_, rfl⟩⟩
  simp [take_set_of_le hi]

theorem setLast (h : Operands low binds m m') (hs : m'.stack = m1.stack) (id : Nat) :
    Operands low binds m { m' with stack := m'.stack.setIfInBounds (m1.stack.size - 1) id } ∧
      m1.stack.size - 1 =
        { m' with stack := m'.stack.setIfInBounds (m1.stack.size - 1) id }.stack.size - 1 := by
  rw [← hs]
  exact ⟨h.setEntry (by have := h.size; omega), by simp⟩

theorem operands (h : Operands low binds m m') (b : Bool) (x y : Nat) :
    Meets (do Machine.setEntry (m'.stack.size - 1) y; push x) m'
      (fun _ m'' => Operands low (b :: binds) m m'') (fun _ m'' => Keeps low m.frames.size m m'') := by
  have hset : Operands low binds m
      { m' with stack := m'.stack.setIfInBounds (m'.stack.size - 1) y } :=
    h.setEntry (by have := h.size; omega)
  simp only [meets_bind, meets_setEntry, meets_push]
  split
  · exact hset.keeps
  · refine ⟨?_, hset.frames, hset.keeps.trans ⟨⟨rfl, rfl, rfl, rfl, rfl⟩, ?_, rfl⟩⟩
    · have := hset.size
      simp only [Array.size_push, length_cons] at this ⊢; omega
    · rw [Array.toList_push, take_append_of_le_length]
      rw [Array.length_toList, hset.size]; omega

theorem handOver (h : Operands low (b :: binds) m m') {takesResult : Bool} {result : Nat} :
    Meets (handOver (m'.stack.size - 1) takesResult result) m'
      (fun _ m'' => Operands low binds m m'') (fun _ m'' => Keeps low m.frames.size m m'') := by
  have hsize := h.size
  have htrunc : Operands low binds m
      { m' with stack := m'.stack.shrink (m'.stack.size - 1) } := by
    refine ⟨?_, h.frames, h.keeps.trans ⟨⟨rfl, rfl, rfl, rfl, rfl⟩, ?_, rfl⟩⟩
    · simp only [Array.size_shrink, length_cons] at hsize ⊢; omega
    · simp only [Array.toList_shrink, take_take]
      rw [Nat.min_eq_left (by simp at hsize; omega)]
  simp only [Machine.handOver, meets_bind, meets_truncate, meets_ite, meets_pure, meets_entry]
  split
  · refine (Quiet.app _ _ _).mono (fun next m1 h1 => ?_) (fun _ _ h1 => htrunc.keeps.trans h1.keeps)
    rw [meets_setEntry]
    exact (htrunc.steady h1).setEntry (by simp at hsize; omega)
  · exact htrunc

end Operands

theorem operands_of_steady (hsize : m.stack.size = low + binds.length + 1) (h : Steady m m') :
    Operands low binds m m' :=
  ⟨by rw [h.stack]; exact hsize, h.frames, h.keeps⟩

theorem pushAll_keeps (ids : List Nat) (hs : s ≤ m.stack.size) : Meets (pushAll ids) m
      (fun _ m' => s ≤ m'.stack.size ∧ m'.frames = m.frames ∧ Keeps s f m m')
      (fun _ m' => Keeps s f m m') := by
  induction ids with
  | nil => exact ⟨hs, rfl, .refl m⟩
  | cons id ids ih =>
    simp only [pushAll]
    refine ih.bind fun _ m1 h1 => ?_
    obtain ⟨hs1, hframes, hk⟩ := h1
    rw [meets_push]
    split
    · exact hk
    · refine ⟨by simp; omega, hframes, hk.trans ⟨⟨rfl, rfl, rfl, rfl, rfl⟩, ?_, rfl⟩⟩
      rw [Array.toList_push, take_append_of_le_length (by simpa using hs1)]

/-- The registers of the three loops: each keeps what was there when it started in `m`. -/
structure LoopsKeep (fuel : Nat) : Prop where
  unwind : ∀ {low outer base m m'}, Spans low outer base m m' →
    Meets (unwind outer fuel base) m' (fun _ => Keeps low outer m) fun _ => Keeps low outer m
  perform : ∀ {low binds m m'}, Operands low binds m m' → Meets (performFrom fuel binds) m'
    (fun _ => Keeps low m.frames.size m) fun _ => Keeps low m.frames.size m
  normalize : ∀ {base m m'} (pending), m'.frames = m.frames → Keeps base m.frames.size m m' →
    Meets (normalizeFrom base fuel pending) m' (fun _ => Keeps base m.frames.size m)
      fun _ => Keeps base m.frames.size m

theorem Unwinding.start (h : 0 < m.stack.size) :
    Unwinding m.frames.size (m.stack.size - 1) m ∧
      lowest m.frames.size (m.stack.size - 1) m = m.stack.size - 1 := by
  have hdrop : m.frames.toList.drop m.frames.size = [] := drop_of_length_le (by simp)
  refine ⟨⟨Nat.le_refl _, by rw [hdrop]; simp, by omega⟩, ?_⟩
  unfold lowest; rw [hdrop]; rfl

namespace LoopsKeep

section

variable (h : LoopsKeep fuel)
include h

theorem quiet_whnf (id : Nat) : Quiet (whnf fuel id) :=
  quiet_nested fun m hm =>
    h.unwind ⟨(Unwinding.start hm).1, (Unwinding.start hm).2, .refl m⟩

theorem quiet_perform (id : Nat) : Quiet (Machine.perform fuel id) :=
  quiet_nested fun m hm => h.perform (operands_of_steady (by simp; omega) (.refl m))

theorem quiet_normalize (id : Nat) : Quiet (Machine.normalize fuel id) :=
  quiet_nested fun m _ => h.normalize [] rfl (.refl m)

theorem unwind_succ (hs : Spans low outer base m m') :
    Meets (Machine.unwind outer (fuel + 1) base) m' (fun _ => Keeps low outer m)
      fun _ => Keeps low outer m := by
  rw [Machine.unwind_succ, meets_bind]
  refine (Quiet.safePoint m').mono (fun _ m1 h1 => ?_) fun _ _ h1 => hs.keeps.trans h1.keeps
  have hs1 := hs.trans (hs.unwinding.above (h1.above hs.unwinding.base_lt))
  rw [meets_bind]
  refine (above_step h.quiet_perform h.quiet_normalize hs1.unwinding.base_lt).mono
    (fun r m2 h2 => ?_) fun _ _ h2 => (hs1.trans (hs1.unwinding.above h2)).keeps
  have hs2 := hs1.trans (hs1.unwinding.above h2)
  have hkeeps : ∀ m3, Keeps (lowest outer base m2) outer m2 m3 → Keeps low outer m m3 :=
    fun _ hk => hs2.keeps.trans (hs2.lowest_eq ▸ hk)
  cases r with
  | again => exact h.unwind hs2
  | force id =>
    rw [goOn, meets_bind]
    exact (hs2.unwinding.suspend id).mono (fun _ _ hs3 => h.unwind (hs2.trans hs3))
      fun _ _ hk => hkeeps _ hk
  | done =>
    simp only [goOn, meets_bind, meets_get, meets_ite, meets_entry]
    split
    · exact hs2.keeps
    · exact (hs2.unwinding.resume ‹_›).mono (fun _ _ hs3 => h.unwind (hs2.trans hs3))
        fun _ _ hk => hkeeps _ hk

theorem finishAction (ho : Operands low binds m m') (result : Nat) :
    Meets (Machine.finishAction fuel (m'.stack.size - 1) binds result) m'
      (fun _ => Keeps low m.frames.size m) fun _ => Keeps low m.frames.size m := by
  cases binds with
  | nil => exact ho.keeps
  | cons b binds => exact ho.handOver.bind fun _ _ ho1 => h.perform ho1

theorem perform_succ (ho : Operands low binds m m') :
    Meets (performFrom (fuel + 1) binds) m'
      (fun _ => Keeps low m.frames.size m) fun _ => Keeps low m.frames.size m := by
  rw [performFrom_succ, meets_bind]
  refine (Quiet.safePoint m').mono (fun _ m1 h1 => ?_) fun _ _ h1 => (ho.steady h1).keeps
  have ho1 := ho.steady h1
  simp only [meets_bind, meets_top, meets_entry]
  refine (h.quiet_whnf _ m1).mono (fun action m2 h2 => ?_) fun _ _ h2 => (ho1.steady h2).keeps
  rw [meets_setEntry]
  obtain ⟨ho3, hlast⟩ := (ho1.steady h2).setLast h2.stack action
  generalize hm3 : { m2 with stack := m2.stack.setIfInBounds (m1.stack.size - 1) action } = m3 at *
  simp only [meets_get, hlast]
  cases actionForm m3.heap action with
  | result x => exact h.finishAction ho3 x
  | bind x k => exact (ho3.operands true x k).bind fun _ _ ho4 => h.perform ho4
  | sequence x y => exact (ho3.operands false x y).bind fun _ _ ho4 => h.perform ho4
  | primitive p =>
    rw [act, meets_bind]
    refine (quiet_execute h.quiet_whnf h.quiet_normalize p _ m3).mono (fun result m4 h4 => ?_)
      fun _ _ h4 => (ho3.steady h4).keeps
    rw [← h4.stack]
    exact h.finishAction (ho3.steady h4) result
  | other => exact ho3.keeps

theorem normalize_succ (hframes : m'.frames = m.frames)
    (hkeeps : Keeps base m.frames.size m m') :
    Meets (normalizeFrom base (fuel + 1) pending) m' (fun _ => Keeps base m.frames.size m)
      fun _ => Keeps base m.frames.size m := by
  simp only [normalizeFrom_succ, meets_bind, meets_get, meets_ite, meets_malformed]
  split
  · exact hkeeps
  simp only [meets_top, meets_entry]
  refine (h.quiet_whnf _ m').mono (fun v m1 h1 => ?_) fun _ _ h1 => hkeeps.trans h1.keeps
  have hk : Keeps base m.frames.size m { m1 with stack := m1.stack.shrink (m'.stack.size - 1) } := by
    refine (hkeeps.trans h1.keeps).trans ⟨⟨rfl, rfl, rfl, rfl, rfl⟩, ?_, rfl⟩
    simp only [Array.toList_shrink, take_take]
    rw [Nat.min_eq_left (by omega)]
  have hsize : base ≤ (m1.stack.shrink (m'.stack.size - 1)).size := by
    rw [Array.size_shrink, h1.stack]; omega
  have hf := h1.frames.trans hframes
  simp only [meets_truncate]
  cases valueForm m1.heap v with
  | inr form =>
    rw [addValue, meets_bind]
    refine (pushAll_keeps _ hsize).mono (fun _ m2 h2 => ?_) fun _ _ h2 => hk.trans h2
    obtain ⟨-, hframes2, hk2⟩ := h2
    exact h.normalize _ (hframes2.trans hf) (hk.trans hk2)
  | inl value =>
    rw [addValue]
    cases closeValue value pending with
    | inl value => exact hk
    | inr pending => exact h.normalize pending hf hk

end

end LoopsKeep

/-- **The loops keep everything below the place where they started.** -/
theorem loops_keep (fuel : Nat) : LoopsKeep fuel := by
  induction fuel with
  | zero =>
    exact ⟨fun hs => hs.keeps, fun ho => ho.keeps, fun _ _ hk => hk⟩
  | succ fuel ih =>
    exact ⟨fun hs => ih.unwind_succ hs, fun ho => ih.perform_succ ho,
      fun _ hf hk => ih.normalize_succ hf hk⟩

theorem quiet_whnf (fuel id : Nat) : Quiet (whnf fuel id) := (loops_keep fuel).quiet_whnf id

theorem quiet_perform (fuel id : Nat) : Quiet (perform fuel id) := (loops_keep fuel).quiet_perform id

theorem quiet_normalize (fuel id : Nat) : Quiet (normalize fuel id) :=
  (loops_keep fuel).quiet_normalize id

end Loops

end Machine

end GraphReduction
