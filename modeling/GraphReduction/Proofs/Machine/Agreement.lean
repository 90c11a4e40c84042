import GraphReduction.Proofs.Machine.Lockstep
import GraphReduction.Proofs.Machine.Loops

/-!
# Twins evaluate alike

What twin machines evaluate comes to the same, in the three loops and in what is built from them,
unless one of the machines is exhausted.

The machines need not be at the same turn of a loop: where one has an indirection on top of its
stack, it goes on alone. So the induction is on the sum of the two bounds.
-/

namespace GraphReduction

open List

namespace Machine

/-!
## Spines that do not fit
-/

section Overflow

variable {m : Machine} {fuel outer base a y : Nat} {args : List Nat}

theorem unwinds_reserve (hm : m.Safe []) {i : Nat} (hi : i < m.stack.size)
    (hu : Unwinds m.heap.get (m.stack.getD i 0) args y) (k : Nat) :
    Meets (reserve k) m (fun _ m1 => m1.Safe [] ∧ Steady m m1 ∧ ∃ args', args'.length = args.length ∧
      Unwinds m1.heap.get (m.stack.getD i 0) args' y) fun e _ => e.Exhausted := by
  have hs : Meets (reserve k) m (fun _ m1 => ∃ args', args'.length = args.length ∧
      Unwinds m1.heap.get (m.stack.getD i 0) args' y) fun e _ => e.Exhausted := by
    obtain ⟨G, hG, -⟩ := hm
    refine meets_reserve hG (fun _ _ => ⟨args, rfl, hu⟩) (fun h' hc _ _ => ?_) fun _ _ _ => trivial
    exact ⟨_, length_map _, (hu.collect hG.closed hG.roots hc (hG.kept_entry hi)).1⟩
  refine ((hs.and (safe_reserve hm k)).and (Quiet.reserve k m)).mono (fun _ _ h => ?_)
    fun _ _ h => h.1.1
  exact ⟨h.1.2, h.2, h.1.1⟩

/-- **A spine that does not fit on the stack overflows it.** -/
theorem exhausted_unwind (hm : m.Safe []) (hpos : 0 < m.stack.size)
    (hsize : m.stack.size ≤ m.stackLimit)
    (hu : Unwinds m.heap.get m.onTop args y)
    (hover : m.stackLimit < m.stack.size + args.length) :
    Meets (unwind outer fuel base) m (fun _ _ => False) fun e _ => e.Exhausted := by
  induction fuel generalizing m args with
  | zero => exact trivial
  | succ fuel ih =>
    rw [unwind_succ]
    refine (unwinds_reserve hm (by omega) hu _).bind fun _ m1 h1 => ?_
    obtain ⟨hm1, hst, args1, hlen, hu1⟩ := h1
    rw [← hst.stack] at hu1 hpos hsize hover
    rw [← hst.stackLimit] at hsize hover
    rw [← hlen] at hover
    clear hm hu hlen hst
    rw [meets_bind]
    have htop := hm1.entry (i := m1.stack.size - 1) (by omega)
    cases hc : m1.heap.get m1.onTop with
    | app f a =>
      obtain ⟨args2, rfl, hf⟩ := hu1.of_app hc
      have hsafe := ((htop.app (.head _) hc).push (.head _)).nil
      rw [length_append, length_singleton] at hover
      refine .congr (StepIs.app hc).eq ?_
      simp only [meets_bind, meets_push, meets_pure]
      split
      · trivial
      · have hf' : Unwinds m1.heap.get ((m1.stack.push f).getD ((m1.stack.push f).size - 1) 0)
            args2 y := by
          rw [Array.size_push, Nat.add_sub_cancel, getD_push_eq]
          exact hf
        exact ih hsafe (by simp) (by simp; omega) hf' (by simp; omega)
    | ind t =>
      obtain ⟨hsafe, hne⟩ := htop.ind (.head _) hc
      obtain ⟨z, hz⟩ : ∃ z, Stands m1.heap.get t z := by
        obtain ⟨G, hG, hheld⟩ := hsafe
        exact hG.closed.ends t (hheld t (.head _))
      rw [meets_of_ok (step_of_ind hc hne)]
      refine ih (hsafe.setEntry (.head _) _).nil (by simpa using hpos) (by simpa using hsize) ?_
        (by simpa using hover)
      show Unwinds m1.heap.get ((m1.stack.setIfInBounds (m1.stack.size - 1) t).getD
        ((m1.stack.setIfInBounds (m1.stack.size - 1) t).size - 1) 0) args1 y
      rw [Array.size_setIfInBounds, getD_set_eq (by omega)]
      exact hu1.of_sameEnd ⟨z, .there hc hz, hz⟩
    | comb | prim | scalar | free =>
      -- a head without arguments fits
      obtain ⟨rfl, -⟩ := hu1.unique (.head (.here (by rw [hc]; rfl)) (by rw [hc]; intro f a hf; cases hf))
      simp at hover
      omega

/-- **An argument whose spine does not fit** ends the evaluation that waits for it. -/
theorem exhausted_force (hm : m.Safe [a]) (ho : m.Oversized a) :
    Meets (do let base ← suspend base a; unwind outer fuel base) m (fun _ _ => False)
      fun e _ => e.Exhausted := by
  obtain ⟨args, y, hu, hlen⟩ := ho
  simp only [suspend, meets_bind, meets_enter, meets_modify, meets_push, meets_top]
  split
  · trivial
  split
  · trivial
  rename_i hpush
  have hsafe := (hm.push (.head _)).nil
  have hu' : Unwinds m.heap.get ((m.stack.push a).getD ((m.stack.push a).size - 1) 0) args y := by
    rw [Array.size_push, Nat.add_sub_cancel, getD_push_eq]
    exact hu
  exact exhausted_unwind (hsafe.congr rfl fun x hx => Or.inl hx) (by simp) (by simp; omega) hu'
    (by simp; omega)

end Overflow

/-!
## Actions
-/

/-- Evaluations of the same cell by twins come to the same cell in weak head normal form. -/
def WhnfsAgree (whnf whnf' : Nat → Run Nat) : Prop :=
  ∀ m m' x x', Twins m m' [(x, x')] → Both (whnf x) (whnf' x') m m' fun v v' m1 m1' =>
    Twins m1 m1' [(v, v')] ∧ Rests m1.heap.get v ∧ Settled m.stack.size m m1 ∧ Steady m m1

/-- Twins evaluate the same cell and read the same value off it. -/
def ReadingsAgree {β : Type} (read read' : Nat → Run β) : Prop :=
  ∀ m m' x x', Twins m m' [(x, x')] → Both (read x) (read' x') m m' fun b b' m1 m1' => b' = b ∧
    Twins m1 m1' [] ∧ Settled m.stack.size m m1 ∧ Steady m m1

section Actions

variable {m m' : Machine} {held : List (Nat × Nat)} {top i : Nat} {whnf whnf' : Nat → Run Nat}
  {normalize normalize' : Nat → Run Value}

theorem Rests.hasSpine {x : Nat} (h : Rests m.heap.get x) : m.HasSpine x := by
  obtain ⟨args, y, hu, -⟩ := h
  exact ⟨args, y, hu⟩

theorem WhnfsAgree.value {β : Type} {value : Nat → Run β} {read : Cell → Option β} {p : Primitive}
    {expected : String} (h : WhnfsAgree whnf whnf')
    (hvalue : ∀ id, value id = valueOf read p expected id) (hread : ∀ f a, read (.app f a) = none) :
    ReadingsAgree (fun x => do value (← whnf x)) (fun x => do value (← whnf' x)) := by
  intro m m' x x' htw
  refine (h m m' x x' htw).bind fun v v' m1 m1' h1 => ?_
  obtain ⟨h1, hr, hset, hst⟩ := h1
  rw [hvalue, hvalue]
  refine (agree_valueOf h1 (.head _) hr.hasSpine hread).mono fun b b' m2 m2' h2 => ?_
  obtain ⟨rfl, rfl, rfl⟩ := h2
  exact ⟨rfl, h1.nil, hset, hst⟩

/-- Both machines read the same argument of an action. -/
theorem both_actionArg (h : Twins m m' []) (ht : top < m.stack.size)
    (hr : Rests m.heap.get (m.stack.getD top 0)) :
    Both (actionArg top i) (actionArg top i) m m' fun a a' m1 m1' =>
      m1 = m ∧ m1' = m' ∧ Twins m m' [(a, a')] := by
  obtain ⟨args, y, hu⟩ := hr.hasSpine
  obtain ⟨args', y', hu', hlen, -, htw⟩ := (h.entry ht).unwinds (.head _) hu
  have hsp : spine (m.stack.getD top 0) m = .ok (y, args) m := by rw [← hu.spineOf_eq]; rfl
  have hsp' : spine (m'.stack.getD top 0) m' = .ok (y', args') m' := by rw [← hu'.spineOf_eq]; rfl
  have hone : ∀ {m : Machine} {y : Nat} {args : List Nat},
      spine (m.stack.getD top 0) m = .ok (y, args) m →
      actionArg top i m = .ok (args.getD i (m.stack.getD top 0)) m := by
    intro m y args hsp
    unfold actionArg
    rw [bind_entry, bind_ok hsp]
    rfl
  rw [both_of_ok (hone hsp) (hone hsp')]
  refine ⟨rfl, rfl, htw.mono (forall_mem_singleton.2 ?_)⟩
  by_cases hi : i < args.length
  · simp only [getD_eq_getElem?_getD, getElem?_eq_getElem hi,
      getElem?_eq_getElem (hlen ▸ hi : i < args'.length), Option.getD_some]
    exact mem_append_left _ (.tail _ (mem_zip hi hlen))
  · simp only [getD_eq_getElem?_getD, getElem?_eq_none (by omega : args.length ≤ i),
      getElem?_eq_none (by omega : args'.length ≤ i), Option.getD_none]
    exact mem_append_right _ (.head _)

/-- An argument of an action is evaluated and read, and the rest goes on with twins that have the
same action. -/
theorem ReadingsAgree.bind {β γ γ' : Type} {read read' : Nat → Run β} {g : β → Run γ}
    {g' : β → Run γ'} {S : γ → γ' → Machine → Machine → Prop} (hread : ReadingsAgree read read')
    (h : Twins m m' []) (ht : top < m.stack.size) (hr : Rests m.heap.get (m.stack.getD top 0))
    (hg : ∀ b m1 m1', Twins m1 m1' [] → top < m1.stack.size →
      Rests m1.heap.get (m1.stack.getD top 0) → Both (g b) (g' b) m1 m1' S) :
    Both ((do read (← actionArg top i)) >>= g) ((do read' (← actionArg top i)) >>= g') m m' S := by
  simp only [bind_assoc]
  refine (both_actionArg h ht hr).bind fun a a' m1 m1' h1 => ?_
  obtain ⟨rfl, rfl, h1⟩ := h1
  refine (hread _ _ a a' h1).bind fun b b' m2 m2' h2 => ?_
  obtain ⟨rfl, h2, hset, hst⟩ := h2
  exact hg b' m2 m2' h2 (by rw [hst.stack]; exact ht) (hset top ht hr)

theorem both_resultCell {c : Cell} (h : Twins m m' held) (hc : Cell.Alike (fun _ _ => False) c c) :
    Both (resultCell c) (resultCell c) m m' fun a a' m1 m1' => Twins m1 m1' [(a, a')] :=
  (twins_reserve h _).bind fun _ _ _ _ h1 =>
    (twins_alloc h1 (hc.mono fun _ _ hf => hf.elim)).mono fun _ _ _ _ h2 => h2.1

theorem both_onWorld_bind {γ γ' : Type} {o : Operation} {g : o.Answer → Run γ}
    {g' : o.Answer → Run γ'} {S : γ → γ' → Machine → Machine → Prop} (h : Twins m m' held)
    (hg : ∀ a m1 m1', Twins m1 m1' held → Both (g a) (g' a) m1 m1' S) :
    Both (onWorld o >>= g) (onWorld o >>= g') m m' S := by
  refine (twins_onWorld h o).bind fun a a' m1 m1' h1 => ?_
  obtain ⟨rfl, h1, -⟩ := h1
  exact hg a' m1 m1' h1

theorem both_argumentCells {unpack unpack' cons cons' nil nil' : Nat} (hu : (unpack, unpack') ∈ held)
    (hc : (cons, cons') ∈ held) (hn : (nil, nil') ∈ held) (args : List String)
    (h : Twins m m' held) :
    Both (argumentCells unpack cons nil args) (argumentCells unpack' cons' nil' args) m m'
      fun a a' m1 m1' => Twins m1 m1' ((a, a') :: held) := by
  induction args with
  | nil => exact h.mono (by simp [hn])
  | cons s args ih =>
    refine ih.bind fun list list' m1 m1' h1 => ?_
    refine (twins_alloc h1 (.scalar _)).bind fun text text' m2 m2' h2 => ?_
    refine (twins_alloc h2.1 (.app (.tail _ (.tail _ hu)) (.head _))).bind
      fun string string' m3 m3' h3 => ?_
    refine (twins_alloc h3.1 (.app (.tail _ (.tail _ (.tail _ hc))) (.head _))).bind
      fun cell cell' m4 m4' h4 => ?_
    refine (twins_alloc h4.1 (.app (.head _) (.tail _ (.tail _ (.tail _ (.head _)))))).mono
      fun a a' m5 m5' h5 => ?_
    exact h5.1.mono (forall_mem_cons.2 ⟨.head _, fun q hq =>
      .tail _ (.tail _ (.tail _ (.tail _ (.tail _ hq))))⟩)

theorem both_argumentList (h : Twins m m' held) :
    Both argumentList argumentList m m' fun a a' m1 m1' => Twins m1 m1' [(a, a')] := by
  refine both_onWorld_bind h fun args m1 m1' h1 => ?_
  refine (twins_reserve h1 _).bind fun _ _ m2 m2' h2 => ?_
  refine (twins_alloc h2 (.prim (by decide))).bind fun unpack unpack' m3 m3' h3 => ?_
  refine (twins_alloc h3.1 (.comb _)).bind fun cons cons' m4 m4' h4 => ?_
  refine (twins_alloc h4.1 (.comb _)).bind fun nil nil' m5 m5' h5 => ?_
  refine (both_argumentCells (.tail _ (.tail _ (.head _))) (.tail _ (.head _)) (.head _) args
    h5.1).mono fun a a' m6 m6' h6 => ?_
  exact h6.mono (forall_mem_singleton.2 (.head _))

/-- **The same action asks the same of the world and has the same result.** -/
theorem both_execute (hw : WhnfsAgree whnf whnf') (hn : ReadingsAgree normalize normalize')
    (h : Twins m m' []) (ht : top < m.stack.size) (hr : Rests m.heap.get (m.stack.getD top 0))
    (p : Primitive) :
    Both (execute whnf normalize p top) (execute whnf' normalize' p top) m m'
      fun a a' m1 m1' => Twins m1 m1' [(a, a')] := by
  have hint := fun p => hw.value (intValue_eq p) fun _ _ => rfl
  have hchar := fun p => hw.value (charValue_eq p) fun _ _ => rfl
  have hptr := fun p => hw.value (ptrValue_eq p) fun _ _ => rfl
  cases p with
  | getChar | malloc =>
    exact (hint _).bind h ht hr fun n m1 m1' h1 _ _ => both_onWorld_bind h1 fun a m2 m2' h2 =>
      both_resultCell h2 (.scalar _)
  | flush | close =>
    exact (hint _).bind h ht hr fun n m1 m1' h1 _ _ => both_onWorld_bind h1 fun a m2 m2' h2 =>
      both_resultCell h2 (.comb _)
  | free =>
    exact (hptr _).bind h ht hr fun n m1 m1' h1 _ _ => both_onWorld_bind h1 fun a m2 m2' h2 =>
      both_resultCell h2 (.comb _)
  | peek =>
    exact (hptr _).bind h ht hr fun n m1 m1' h1 _ _ => both_onWorld_bind h1 fun a m2 m2' h2 =>
      both_resultCell h2 (.scalar _)
  | exit =>
    exact (hint _).bind h ht hr fun n m1 m1' h1 _ _ => both_onWorld_bind h1 fun a m2 m2' h2 =>
      both_fail rfl h2.trace
  | putChar =>
    exact (hint _).bind h ht hr fun n m1 m1' h1 ht1 hr1 => (hchar _).bind h1 ht1 hr1
      fun c m2 m2' h2 _ _ => both_onWorld_bind h2 fun a m3 m3' h3 => both_resultCell h3 (.comb _)
  | poke =>
    exact (hptr _).bind h ht hr fun n m1 m1' h1 ht1 hr1 => (hint _).bind h1 ht1 hr1
      fun c m2 m2' h2 _ _ => both_onWorld_bind h2 fun a m3 m3' h3 => both_resultCell h3 (.comb _)
  | openFile =>
    refine ReadingsAgree.bind ?_ h ht hr fun path m1 m1' h1 ht1 hr1 => (hint _).bind h1 ht1 hr1
      fun mode m2 m2' h2 _ _ => both_onWorld_bind h2 fun a m3 m3' h3 => both_resultCell h3 (.scalar _)
    intro m m' x x' htw
    refine (hn m m' x x' htw).bind fun v v' m1 m1' h1 => ?_
    obtain ⟨rfl, h1, hset, hst⟩ := h1
    cases v'.toString? with
    | some s => exact ⟨rfl, h1, hset, hst⟩
    | none => exact both_fail rfl h1.trace
  | getArgs => exact both_argumentList h
  | _ => exact both_fail rfl h.trace

end Actions

/-!
## What is found in weak head normal form
-/

/-- Twins have found the same action. -/
def FormsAlike (m m' : Machine) : ActionForm → ActionForm → Prop
  | .result x, .result x' => Twins m m' [(x, x')]
  | .bind x k, .bind x' k' => Twins m m' [(x, x'), (k, k')]
  | .sequence x y, .sequence x' y' => Twins m m' [(x, x'), (y, y')]
  | .primitive p, .primitive p' => p' = p
  | .other, .other => True
  | _, _ => False

/-- Twins have found the same value or constructor. -/
def ValuesAlike (m m' : Machine) :
    Value ⊕ (UInt32 × List Nat) → Value ⊕ (UInt32 × List Nat) → Prop
  | .inl v, .inl v' => v' = v
  | .inr (tag, fields), .inr (tag', fields') =>
    tag' = tag ∧ fields'.length = fields.length ∧ Twins m m' (fields.zip fields')
  | _, _ => False

section Forms

variable {m m' : Machine} {held : List (Nat × Nat)} {x x' : Nat}

theorem twins_isActionIn (h : Twins m m' held) (hx : (x, x') ∈ held) (hs : m.HasSpine x) :
    isActionIn m'.heap x' = isActionIn m.heap x := by
  obtain ⟨args, y, hu⟩ := hs
  obtain ⟨args', y', hu', -, hy, -⟩ := h.unwinds hx hu
  unfold isActionIn
  rw [hu.spineOf_eq, hu'.spineOf_eq]
  simp only [hy]

/-- Twins at rest are actions of the same form. -/
theorem twins_actionForm (h : Twins m m' held) (hx : (x, x') ∈ held) (hs : m.HasSpine x) :
    FormsAlike m m' (actionForm m.heap x) (actionForm m'.heap x') := by
  obtain ⟨args, y, hu⟩ := hs
  obtain ⟨args', y', hu', hlen, hy, htw⟩ := h.unwinds hx hu
  unfold actionForm
  rw [hu.spineOf_eq, hu'.spineOf_eq]
  simp only [hy]
  cases m.heap.get y with
  | comb c =>
    cases c with
    | ioReturn =>
      match args, args', hlen with
      | [], [], _ => trivial
      | [a], [a'], _ => exact htw.mono (by simp)
      | _ :: _ :: _, _ :: _ :: _, _ => trivial
    | ioBind =>
      match args, args', hlen with
      | [], [], _ => trivial
      | [_], [_], _ => trivial
      | [a, b], [a', b'], _ => exact htw.mono (by simp)
      | _ :: _ :: _ :: _, _ :: _ :: _ :: _, _ => trivial
    | ioThen =>
      match args, args', hlen with
      | [], [], _ => trivial
      | [_], [_], _ => trivial
      | [a, b], [a', b'], _ => exact htw.mono (by simp)
      | _ :: _ :: _ :: _, _ :: _ :: _ :: _, _ => trivial
    | _ => trivial
  | prim p =>
    simp only [hlen]
    split
    · rfl
    · trivial
  | _ => trivial

/-- Twins at rest are values of the same form. -/
theorem twins_valueForm (h : Twins m m' held) (hx : (x, x') ∈ held) (hs : m.HasSpine x) :
    ValuesAlike m m' (valueForm m.heap x) (valueForm m'.heap x') := by
  have hd := twins_describe h hx hs
  obtain ⟨args, y, hu⟩ := hs
  obtain ⟨args', y', hu', hlen, hy, htw⟩ := h.unwinds hx hu
  have hemp : args'.isEmpty = args.isEmpty := by
    rw [Bool.eq_iff_iff, isEmpty_iff_length_eq_zero, isEmpty_iff_length_eq_zero, hlen]
  unfold valueForm
  rw [hu.spineOf_eq, hu'.spineOf_eq]
  simp only [hy, hd, hlen, hemp]
  cases m.heap.get y with
  | comb c =>
    cases c with
    | con tag arity =>
      dsimp only
      split
      · rfl
      split
      · rfl
      · exact ⟨rfl, hlen, htw.mono fun q hq => mem_append_left _ (.tail _ hq)⟩
    | _ => rfl
  | scalar s =>
    dsimp only
    split
    · rfl
    · rfl
  | _ => rfl

theorem both_pushAll (ids ids' : List Nat) (hlen : ids'.length = ids.length)
    (h : Twins m m' held) (hsub : ∀ q ∈ ids.zip ids', q ∈ held) :
    Both (pushAll ids) (pushAll ids') m m' fun _ _ m1 m1' => Twins m1 m1' held ∧
      m.stack.size ≤ m1.stack.size ∧ Settled m.stack.size m m1 := by
  induction ids generalizing ids' with
  | nil =>
    obtain rfl : ids' = [] := length_eq_zero_iff.1 hlen
    exact ⟨h, Nat.le_refl _, .refl _ m⟩
  | cons x ids ih =>
    obtain ⟨x', ids', rfl⟩ : ∃ x' l, ids' = x' :: l := exists_cons_of_length_eq_add_one hlen
    rw [zip_cons_cons] at hsub
    refine (ih ids' (by simpa using hlen) fun q hq => hsub q (.tail _ hq)).bind
      fun _ _ m1 m1' h1 => ?_
    obtain ⟨h1, hle, hset⟩ := h1
    refine (twins_push h1 (hsub _ (.head _))).mono fun _ _ m2 m2' h2 => ?_
    obtain ⟨h2, rfl, rfl⟩ := h2
    refine ⟨h2, by simp; omega, hset.trans fun i hi hr => ?_⟩
    show Rests m1.heap.get ((m1.stack.push x).getD i 0)
    rw [getD_push_lt (by omega)]
    exact hr

end Forms

/-!
## The loops
-/

/-- Twins unwind the same spines to the same weak head normal form, and what is evaluated below
them stays so. -/
def UnwindsAgree (fuel fuel' : Nat) : Prop :=
  ∀ outer base m m', Twins m m' [] → Spines outer base m → Spines outer base m' →
    Both (unwind outer fuel base) (unwind outer fuel' base) m m' fun v v' m1 m1' =>
      Twins m1 m1' [(v, v')] ∧ Rests m1.heap.get v ∧ Settled (lowest outer base m) m m1

/-- The three loops agree in twins. -/
structure LoopsAgree (fuel fuel' : Nat) : Prop where
  unwind : UnwindsAgree fuel fuel'
  perform : ∀ low binds m m', m.stack.size = low + binds.length + 1 → Twins m m' [] →
    Both (performFrom fuel binds) (performFrom fuel' binds) m m' fun v v' m1 m1' =>
      Twins m1 m1' [(v, v')]
  normalize : ∀ base pending m m', Twins m m' [] →
    Both (normalizeFrom base fuel pending) (normalizeFrom base fuel' pending) m m'
      fun v v' m1 m1' => v' = v ∧ Twins m1 m1' [] ∧ Settled base m m1

section Loops

variable {m m' : Machine} {fuel fuel' outer base x x' : Nat} {m1 m0 : Machine} {low k : Nat}
  {binds : List Bool} {held : List (Nat × Nat)} {e : Halt}

theorem Spines.start (h : 0 < m.stack.size) : Spines m.frames.size (m.stack.size - 1) m := by
  have hdrop : m.frames.toList.drop m.frames.size = [] := drop_of_length_le (by simp)
  refine ⟨(Unwinding.start h).1, fun i hbi hit => by omega, ?_⟩
  rw [hdrop]
  exact .nil

theorem Settled.nested {n : Machine} {depth depth' frames : Nat}
    (h : Settled m.stack.size { m with depth, stack := m.stack.push x } n) :
    Settled m.stack.size m (n.restore m.stack.size frames depth') := by
  intro i hi hr
  have hr' := h i hi (by
    show Rests m.heap.get ((m.stack.push x).getD i 0)
    rw [getD_push_lt hi]
    exact hr)
  show Rests n.heap.get ((n.stack.shrink m.stack.size).getD i 0)
  rw [getD_shrink hi]
  exact hr'

theorem both_bind_get {β β' : Type} {g : Machine → Run β} {g' : Machine → Run β'}
    {S : β → β' → Machine → Machine → Prop} :
    Both (get >>= g) (get >>= g') m m' S ↔ Both (g m) (g' m') m m' S := Iff.rfl

namespace LoopsAgree

section

variable (h : LoopsAgree fuel fuel')
include h

theorem start (htw : Twins m m' []) (hpos : 0 < m.stack.size) :
    Both (do Machine.unwind (← get).frames.size fuel (m.stack.size - 1))
      (do Machine.unwind (← get).frames.size fuel' (m.stack.size - 1)) m m' fun v v' m1 m1' =>
        Twins m1 m1' [(v, v')] ∧ Rests m1.heap.get v ∧ Settled (m.stack.size - 1) m m1 := by
  obtain ⟨-, hlow⟩ := Unwinding.start hpos
  have hs := Spines.start hpos
  have hs' := Spines.start (m := m') (by rw [htw.size]; exact hpos)
  rw [htw.frames, htw.size] at hs'
  have hb := h.unwind _ _ _ _ htw hs hs'
  rw [hlow] at hb
  refine both_bind_get.2 ?_
  rw [htw.frames]
  exact hb

theorem whnfs : WhnfsAgree (whnf fuel) (whnf fuel') := by
  intro m m' x x' htw
  have hbody (htw1 : Twins { m with depth := m.depth + 1, stack := m.stack.push x }
      { m' with depth := m'.depth + 1, stack := m'.stack.push x' } [(x, x')]) :=
    h.start htw1.nil (by simp)
  simp only [Array.size_push, Nat.add_sub_cancel] at hbody
  refine Both.mono (Both.and_left (x := whnf fuel x) (twins_nested htw hbody)
    (quiet_whnf fuel x m)) ?_
  rintro v v' m2 m2' ⟨⟨n, n', ⟨htw2, hr, hset⟩, rfl, rfl⟩, hst⟩
  exact ⟨htw2.restore _ _ _, hr, hset.nested, hst⟩

theorem performs (htw : Twins m m' [(x, x')]) :
    Both (Machine.perform fuel x) (Machine.perform fuel' x') m m' fun v v' m1 m1' =>
      Twins m1 m1' [(v, v')] := by
  refine (twins_nested htw fun htw1 => h.perform m.stack.size [] _ _ (by simp) htw1.nil).mono ?_
  rintro v v' m2 m2' ⟨n, n', htw2, rfl, rfl⟩
  exact htw2.restore _ _ _

theorem normalizes :
    ReadingsAgree (Machine.normalize fuel) (Machine.normalize fuel') := by
  intro m m' x x' htw
  refine ((twins_nested htw fun htw1 => h.normalize m.stack.size [] _ _ htw1.nil).and_left
    (quiet_normalize fuel x m)).mono ?_
  rintro v v' m2 m2' ⟨⟨n, n', ⟨rfl, htw2, hset⟩, rfl, rfl⟩, hst⟩
  exact ⟨rfl, htw2.restore _ _ _, hset.nested, hst⟩

theorem evaluators : EvaluatorsAgree
    ⟨Machine.perform fuel, Machine.normalize fuel⟩
    ⟨Machine.perform fuel', Machine.normalize fuel'⟩ := by
  intro m m' x x' htw
  exact (h.normalizes m m' x x' htw).mono fun v v' m1 m1' h1 => ⟨h1.1, h1.2.1.trace⟩

end

end LoopsAgree

/-!
### Unwinding
-/

theorem both_suspend {a a' : Nat} (h : Twins m m' [(a, a')]) :
    Both (suspend base a) (suspend base a') m m' fun b b' m1 m1' => b' = b ∧ Twins m1 m1' [] ∧
      Settled m.stack.size m m1 := by
  refine (twins_enter h).bind fun _ _ m1 m1' h1 => ?_
  obtain ⟨h1, rfl, rfl⟩ := h1
  refine (both_bind_of_ok rfl rfl).2 ?_
  have h2 : Twins { m with depth := m.depth + 1, frames := m.frames.push base }
      { m' with depth := m'.depth + 1, frames := m'.frames.push base } [(a, a')] := by
    have hf : m'.frames = m.frames := h.frames
    rw [hf]
    exact h1.setFrames _
  refine (twins_push h2 (.head _)).bind fun _ _ m3 m3' h3 => ?_
  obtain ⟨h3, rfl, rfl⟩ := h3
  refine ⟨?_, h3.nil, fun i hi hr => ?_⟩
  · show (m'.stack.push a').size - 1 = (m.stack.push a).size - 1
    rw [Array.size_push, Array.size_push, h.size]
  · show Rests m.heap.get ((m.stack.push a).getD i 0)
    rw [getD_push_lt hi]
    exact hr

theorem both_resume (h : Twins m m' []) :
    Both (resume base) (resume base) m m' fun b b' m1 m1' => b' = b ∧ Twins m1 m1' [] ∧
      Settled base m m1 := by
  have h1 := ((h.shrink base).setFrames m.frames.pop).setDepth (m.depth - 1)
  refine ⟨?_, ?_, fun i hi hr => ?_⟩
  · show m'.frames.back?.getD base = m.frames.back?.getD base
    rw [h.frames]
  · show Twins _ { m' with stack := _, frames := m'.frames.pop, depth := m'.depth - 1 } []
    rw [h.frames, h.depth]
    exact h1
  · show Rests m.heap.get ((m.stack.shrink base).getD i 0)
    rw [getD_shrink hi]
    exact hr

theorem Twins.ne_perform (h : Twins m m' held) (hx : (x, x') ∈ held) :
    m.heap.get x ≠ .prim .perform := by
  intro hc
  obtain ⟨R, hR, hh⟩ := h
  obtain ⟨z, z', hz, -, hzz⟩ := hh _ hx
  rw [hz.eq_self (by rw [hc]; rfl)] at hzz
  have ha := hR.pairing.alike _ _ hzz
  rw [hc] at ha
  generalize m'.heap.get z' = c' at ha
  cases ha with
  | prim hp => exact hp rfl

theorem exhausted_goOn (hm : m.Safe []) (hb : base < m.stack.size)
    (hd : StepDoomed (step ⟨perform fuel, normalize fuel⟩ base) m) :
    Meets (do goOn outer fuel base (← step ⟨perform fuel, normalize fuel⟩ base)) m
      (fun _ _ => False) fun e _ => e.Exhausted := by
  obtain ⟨a, ha, ho⟩ := hd
  have hsafe : m.Safe [a] := (safe_step (loops_safe fuel).evaluators hm hb).ok ha
  rw [meets_bind, meets_of_ok ha]
  exact exhausted_force hsafe ho

theorem steps (fuel : Nat) (hs : Spines outer base m) (hm : m.Safe [])
    (hp : m.heap.get m.onTop ≠ .prim .perform) :
    Meets (step ⟨perform fuel, normalize fuel⟩ base) m
      (fun r m1 => Stepped outer base m r m1 ∧ Above base m m1) fun _ _ => True :=
  ((stepped_step (loops_safe fuel).evaluators (quiet_perform fuel) (quiet_normalize fuel) hs hm
    hp).and (above_step (quiet_perform fuel) (quiet_normalize fuel) hs.base_lt)).mono
    (fun _ _ h => h) fun _ _ _ => trivial


/-- Both machines take a step and go on alike. -/
theorem lockstep_goOn (h : LoopsAgree fuel fuel') (htw : Twins m m' []) (hs : Spines outer base m)
    (hs' : Spines outer base m')
    (hi : (m.heap.get m.onTop).isInd = false)
    (hi' : (m'.heap.get (m'.stack.getD (m.stack.size - 1) 0)).isInd = false) :
    Both (do goOn outer fuel base (← step ⟨perform fuel, normalize fuel⟩ base))
      (do goOn outer fuel' base (← step ⟨perform fuel', normalize fuel'⟩ base)) m m'
      fun v v' m1 m1' => Twins m1 m1' [(v, v')] ∧ Rests m1.heap.get v ∧
        Settled (lowest outer base m) m m1 := by
  have hlt := hs.base_lt
  have hlt' := hs'.base_lt
  have htops := htw.entry (i := m.stack.size - 1) (by omega)
  have hp' := htops.symm.ne_perform (.head _)
  rw [← htw.size] at hp'
  -- a spine too long for one stack exhausts that machine
  rcases lockstep_step h.evaluators htw hs hs' hi hi' with hd | hd | hb
  · exact .of_left (exhausted_goOn htw.safe hlt hd)
  · exact .of_right (exhausted_goOn htw.symm.safe hlt' hd)
  refine ((hb.and_left (steps fuel hs htw.safe (htops.ne_perform (.head _)))).and_right
    (steps fuel' hs' htw.symm.safe hp')).bind fun r r' m1 m1' h1 => ?_
  obtain ⟨⟨hr, hk1, ha1⟩, hk1', -⟩ := h1
  obtain ⟨hs1, hset1, hres1⟩ := hk1.keeps hs htw.safe
  obtain ⟨hs1', -, hres1'⟩ := hk1'.keeps hs' htw.symm.safe
  obtain ⟨-, hlow1, -⟩ := hs.toUnwinding.above ha1
  have hlow := hs.toUnwinding.lowest_le
  replace hset1 := hset1.mono hlow
  cases r with
  | again =>
    cases r' with
    | again =>
      refine (h.unwind outer base m1 m1' hr hs1 hs1').mono fun v v' m2 m2' h2 => ?_
      rw [hlow1] at h2
      exact ⟨h2.1, h2.2.1, hset1.trans h2.2.2⟩
    | force | done => exact hr.elim
  | force a =>
    cases r' with
    | force a' =>
      have hsafe : m1.Safe [a] := hr.safe_left (.head _)
      have hsafe' : m1'.Safe [a'] := hr.safe_right (.head _)
      refine (((both_suspend hr).and_left ((spines_suspend hs1 hsafe hres1.1).and
        (hs1.toUnwinding.suspend a))).and_right (spines_suspend hs1' hsafe' hres1'.1)).bind
        fun b b' m2 m2' h2 => ?_
      obtain ⟨⟨⟨rfl, htw2, hset2⟩, hs2, -, hlow2, -⟩, hs2'⟩ := h2
      refine (h.unwind outer _ m2 m2' htw2 hs2 hs2').mono fun v v' m3 m3' h3 => ?_
      rw [hlow2, hlow1] at h3
      have hlt1 := hs1.base_lt
      exact ⟨h3.1, h3.2.1, (hset1.trans (hset2.mono (by omega))).trans h3.2.2⟩
    | again | done => exact hr.elim
  | done =>
    cases r' with
    | done =>
      refine both_bind_get.2 ?_
      rw [hr.frames]
      -- the outermost spine gives the result, any other one goes on
      by_cases hsize : m1.frames.size = outer
      · rw [if_pos hsize, if_pos hsize]
        obtain ⟨args, hu, hrest⟩ := hres1
        exact ⟨hr.entry hs1.base_lt, ⟨args, _, hu, hrest⟩, hset1⟩
      · rw [if_neg hsize, if_neg hsize]
        have hsize' : m1'.frames.size ≠ outer := by rw [hr.frames]; exact hsize
        refine (((both_resume hr).and_left ((spines_resume hs1 hsize).and
          (hs1.toUnwinding.resume hsize))).and_right (spines_resume hs1' hsize')).bind
          fun b b' m2 m2' h2 => ?_
        obtain ⟨⟨⟨rfl, htw2, hset2⟩, hs2, -, hlow2, -⟩, hs2'⟩ := h2
        refine (h.unwind outer _ m2 m2' htw2 hs2 hs2').mono fun v v' m3 m3' h3 => ?_
        rw [hlow2, hlow1] at h3
        exact ⟨h3.1, h3.2.1, (hset1.trans (hset2.mono hlow)).trans h3.2.2⟩
    | again | force => exact hr.elim

theorem madeRoom_safePoint (hs : Spines outer base m) (hm : m.Safe [])
    (hres : safePoint m = .ok () m1) :
    MadeRoom outer base m m1 ∧ Settled m.stack.size m m1 ∧ m1.Safe [] := by
  obtain ⟨hs1, hcarry⟩ := (spines_reserve hs hm _).ok hres
  exact ⟨⟨hs1, hcarry, (Quiet.safePoint m).ok hres⟩, (settled_reserve hm _).ok hres,
    (safe_reserve hm _).ok hres⟩

/-- **A machine with an indirection on top goes on alone.** -/
theorem unwind_follow (fuel : Nat) (hs : Spines outer base m) (hm : m.Safe []) {t : Nat}
    (hres : safePoint m = .ok () m1) (hc : m1.heap.get m1.onTop = .ind t) :
    unwind outer (fuel + 1) base m = unwind outer fuel base
        { m1 with stack := m1.stack.setIfInBounds (m1.stack.size - 1) t } ∧
      Spines outer base { m1 with stack := m1.stack.setIfInBounds (m1.stack.size - 1) t } ∧
      Settled (lowest outer base m) m
        { m1 with stack := m1.stack.setIfInBounds (m1.stack.size - 1) t } := by
  obtain ⟨hroom, hset, hm1⟩ := madeRoom_safePoint hs hm hres
  have hlt := hs.base_lt
  have hlow := hs.toUnwinding.lowest_le
  have hstack := hroom.steady.stack
  have hne := ((hm1.entry (by rw [hstack]; omega)).ind (.head _) hc).2
  refine ⟨?_, hroom.spines.follow hc, fun i hi hr => ?_⟩
  · rw [unwind_succ, bind_ok hres, bind_ok (step_of_ind hc hne), goOn]
  · show Rests m1.heap.get ((m1.stack.setIfInBounds (m1.stack.size - 1) t).getD i 0)
    rw [getD_set_ne (by rw [hstack]; omega)]
    exact hset i (by omega) hr

theorem lowest_congr (h : m1.frames = m.frames) : lowest outer base m1 = lowest outer base m := by
  unfold lowest
  rw [h]

theorem exhausted_safePoint (htw : Twins m m' []) (hres : safePoint m = .error e m1) :
    Meets (unwind outer (fuel + 1) base) m (fun _ _ => False) fun e _ => e.Exhausted := by
  unfold Meets
  rw [unwind_succ, bind_error hres]
  exact (htw.reserve_left _).error hres

theorem isInd_or (c : Cell) : c.isInd = false ∨ ∃ t, c = .ind t := by
  cases c with
  | ind t => exact Or.inr ⟨t, rfl⟩
  | app | comb | prim | scalar | free => exact Or.inl rfl

/-- **A turn of unwinding**: a machine that has an indirection on top goes on alone, and else both
take a step. -/
theorem unwindsAgree_succ (h : LoopsAgree fuel fuel') (hl : UnwindsAgree fuel (fuel' + 1))
    (hr : UnwindsAgree (fuel + 1) fuel') : UnwindsAgree (fuel + 1) (fuel' + 1) := by
  intro outer base m m' htw hs hs'
  have hlt := hs.base_lt
  have hsize := htw.size
  cases hres : safePoint m with
  | error e m1 => exact .of_left (exhausted_safePoint htw hres)
  | ok _ m1 =>
  cases hres' : safePoint m' with
  | error e m1' => exact .of_right (exhausted_safePoint htw.symm hres')
  | ok _ m1' =>
  obtain ⟨hroom, hset, -⟩ := madeRoom_safePoint hs htw.safe hres
  obtain ⟨hroom', -, -⟩ := madeRoom_safePoint hs' htw.symm.safe hres'
  have hstack := hroom.steady.stack
  have hstack' := hroom'.steady.stack
  have htwl : Twins m1 m' [] := (htw.reserve_left _).ok hres
  rcases isInd_or (m1.heap.get m1.onTop) with hi | ⟨t, hc⟩
  · rcases isInd_or (m1'.heap.get m1'.onTop) with hi' | ⟨t, hc'⟩
    · -- neither has an indirection on top
      have htwb : Twins m1 m1' [] := (htwl.reserve_right _).ok hres'
      rw [onTop, htwb.size] at hi'
      have hb := lockstep_goOn h htwb hroom.spines hroom'.spines hi hi'
      refine .congr ?_ ?_ (hb.mono fun v v' m2 m2' h2 => ?_)
      · rw [unwind_succ, bind_ok hres]
      · rw [unwind_succ, bind_ok hres']
      · rw [lowest_congr hroom.steady.frames] at h2
        have hlow := hs.toUnwinding.lowest_le
        exact ⟨h2.1, h2.2.1, (hset.mono (by omega)).trans h2.2.2⟩
    · obtain ⟨heq, hs2, -⟩ := unwind_follow fuel' hs' htw.symm.safe hres' hc'
      have htwr : Twins m1' m [] := ((htw.reserve_right _).ok hres').symm
      have htop := htwr.entry (i := m1'.stack.size - 1) (by rw [hstack']; omega)
      have htw2 := (htop.ind_left (.head _) hc').setEntry_left (by rw [hstack']; omega) (.head _)
      exact .congr rfl heq (hr outer base m _ htw2.symm.nil hs hs2)
  · obtain ⟨heq, hs2, hset2⟩ := unwind_follow fuel hs htw.safe hres hc
    have htop := htwl.entry (i := m1.stack.size - 1) (by rw [hstack]; omega)
    have htw2 := (htop.ind_left (.head _) hc).setEntry_left (by rw [hstack]; omega) (.head _)
    refine .congr heq rfl ((hl outer base _ m' htw2.nil hs2 hs').mono fun v v' m2 m2' h2 => ?_)
    exact ⟨h2.1, h2.2.1, hset2.trans
      (h2.2.2.mono (Nat.le_of_eq (lowest_congr hroom.steady.frames).symm))⟩

/-!
### The I/O loop and normalisation
-/

theorem both_handOver {top : Nat} {takesResult : Bool} {r r' : Nat} (h : Twins m m' [(r, r')])
    (htop : top < m.stack.size) (hpos : 0 < top) :
    Both (handOver top takesResult r) (handOver top takesResult r') m m' fun _ _ m1 m1' =>
      Twins m1 m1' [] := by
  have h1 := h.shrink top
  refine (both_bind_of_ok rfl rfl).2 ?_
  cases takesResult with
  | false => exact h1.nil
  | true =>
    have hentry := h1.entry (i := top - 1) (by simp; omega)
    refine (both_bind_of_ok rfl rfl).2 ?_
    refine (twins_alloc hentry (.app (.head _) (.tail _ (.head _)))).bind fun n n' m2 m2' h2 => ?_
    exact (h2.1.setEntry (.head _) (top - 1)).nil

section

variable (h : LoopsAgree fuel fuel')
include h

theorem LoopsAgree.finish {r r' : Nat} (ho : Operands low binds m0 m)
    (htw : Twins m m' [(r, r')]) :
    Both (finishAction fuel (m.stack.size - 1) binds r)
      (finishAction fuel' (m.stack.size - 1) binds r') m m' fun v v' m1 m1' =>
        Twins m1 m1' [(v, v')] := by
  cases binds with
  | nil => exact htw
  | cons b binds =>
    have hsize := ho.size
    simp only [length_cons] at hsize
    refine ((both_handOver htw (by omega) (by omega)).and_left ho.handOver).bind
      fun _ _ m1 m1' h1 => ?_
    exact h.perform low binds m1 m1' h1.2.size h1.1

theorem LoopsAgree.operands {x y y' : Nat} (b : Bool)
    (ho : Operands low binds m0 m) (htw : Twins m m' [(x, x'), (y, y')]) :
    Both (do setEntry (m.stack.size - 1) y; push x; performFrom fuel (b :: binds))
      (do setEntry (m.stack.size - 1) y'; push x'; performFrom fuel' (b :: binds)) m m'
      fun v v' m1 m1' => Twins m1 m1' [(v, v')] := by
  have hset := htw.setEntry (.tail _ (.head _)) (m.stack.size - 1)
  have hop := ho.operands b x y
  rw [meets_bind, meets_setEntry] at hop
  refine (both_bind_of_ok rfl rfl).2 ?_
  refine ((twins_push hset (.head _)).and_left hop).bind fun _ _ m1 m1' h1 => ?_
  exact h.perform low (b :: binds) m1 m1' h1.2.size h1.1.1.nil

/-- Both machines take the same action, with twin results. -/
theorem LoopsAgree.act {v v' : Nat} (ho : Operands low binds m0 m)
    (htw : Twins m m' [(v, v')]) (hv : m.onTop = v)
    (hr : Rests m.heap.get v) :
    Both (Machine.act fuel (m.stack.size - 1) binds v (actionForm m.heap v))
      (Machine.act fuel' (m.stack.size - 1) binds v' (actionForm m'.heap v')) m m'
      fun v v' m1 m1' => Twins m1 m1' [(v, v')] := by
  have hsize := ho.size
  have hform := twins_actionForm htw (.head _) hr.hasSpine
  have hd := twins_describe htw (.head _) hr.hasSpine
  generalize actionForm m.heap v = f at hform
  generalize actionForm m'.heap v' = f' at hform
  cases f with
  | result x =>
    cases f' with
    | result x' => exact h.finish ho hform
    | _ => exact hform.elim
  | bind x k =>
    cases f' with
    | bind x' k' => exact h.operands true ho hform
    | _ => exact hform.elim
  | sequence x y =>
    cases f' with
    | sequence x' y' => exact h.operands false ho hform
    | _ => exact hform.elim
  | primitive p =>
    cases f' with
    | primitive p' =>
      obtain rfl := hform
      refine ((both_execute h.whnfs h.normalizes htw.nil (by omega) (by subst hv; exact hr)
        p').and_left (quiet_execute (quiet_whnf fuel) (quiet_normalize fuel) p' _ m)).bind
        fun r r' m1 m1' h1 => ?_
      rw [← h1.2.stack]
      exact h.finish (ho.steady h1.2) h1.1
    | _ => exact hform.elim
  | other =>
    cases f' with
    | other =>
      have hv1 : describe v m = .ok (describeIn m.heap v) m := rfl
      have hv2 : describe v' m' = .ok (describeIn m.heap v) m' := by rw [← hd]; rfl
      exact (both_bind_of_ok hv1 hv2).2 (both_fail rfl htw.trace)
    | _ => exact hform.elim

theorem LoopsAgree.perform_succ
    (hsize : m.stack.size = low + binds.length + 1) (htw : Twins m m' []) :
    Both (performFrom (fuel + 1) binds) (performFrom (fuel' + 1) binds) m m' fun v v' m1 m1' =>
      Twins m1 m1' [(v, v')] := by
  rw [performFrom_succ, performFrom_succ]
  refine ((twins_reserve htw _).and_left (Quiet.safePoint m)).bind fun _ _ m1 m1' h1 => ?_
  obtain ⟨h1, hst1⟩ := h1
  have htop : Machine.top m1 = .ok (m.stack.size - 1) m1 := by rw [← hst1.stack]; rfl
  have htop' : Machine.top m1' = .ok (m.stack.size - 1) m1' := by rw [← hst1.stack, ← h1.size]; rfl
  rw [both_bind_of_ok htop htop']
  refine (both_bind_of_ok rfl rfl).2 ?_
  refine (h.whnfs _ _ _ _ (h1.entry (by rw [hst1.stack]; omega))).bind fun v v' m2 m2' h2 => ?_
  obtain ⟨h2, hr2, -, hst2⟩ := h2
  have hstack := hst2.stack.trans hst1.stack
  obtain ⟨ho, hlast⟩ := (operands_of_steady hsize (hst1.trans hst2)).setLast hstack v
  have hact := h.act ho (h2.setEntry (.head _) (m.stack.size - 1))
    (by rw [onTop, ← hlast, getD_set_eq (by rw [hstack]; omega)]) hr2
  rw [← hlast] at hact
  exact (both_bind_of_ok rfl rfl).2 (both_bind_get.2 hact)

theorem LoopsAgree.addValue (pending : List OpenValue)
    {w w' : Value ⊕ (UInt32 × List Nat)} (htw : Twins m m' held) (hw : ValuesAlike m m' w w')
    (hbase : base ≤ m.stack.size) :
    Both (Machine.addValue base fuel pending w) (Machine.addValue base fuel' pending w') m m'
      fun v v' m1 m1' => v' = v ∧ Twins m1 m1' [] ∧ Settled base m m1 := by
  cases w with
  | inl v =>
    cases w' with
    | inl v' =>
      obtain rfl := hw
      simp only [Machine.addValue]
      cases closeValue v' pending with
      | inl value => exact ⟨rfl, htw.nil, .refl _ m⟩
      | inr pending => exact h.normalize base pending m m' htw.nil
    | inr => exact hw.elim
  | inr r =>
    cases w' with
    | inl => exact hw.elim
    | inr r' =>
      obtain ⟨tag, fields⟩ := r
      obtain ⟨tag', fields'⟩ := r'
      obtain ⟨rfl, hlen, hfields⟩ := hw
      refine (both_pushAll fields fields' hlen hfields fun _ hq => hq).bind
        fun _ _ m1 m1' h1 => ?_
      obtain ⟨h1, -, hset1⟩ := h1
      rw [hlen]
      refine (h.normalize base _ m1 m1' h1.nil).mono fun v v' m2 m2' h2 => ?_
      exact ⟨h2.1, h2.2.1, (hset1.mono hbase).trans h2.2.2⟩

/-- Normal forms agree with one more unit of fuel. -/
theorem LoopsAgree.normalize_succ {pending : List OpenValue}
    (htw : Twins m m' []) :
    Both (normalizeFrom base (fuel + 1) pending) (normalizeFrom base (fuel' + 1) pending) m m'
      fun v v' m1 m1' => v' = v ∧ Twins m1 m1' [] ∧ Settled base m m1 := by
  rw [normalizeFrom_succ, normalizeFrom_succ]
  refine both_bind_get.2 ?_
  rw [htw.size]
  by_cases hle : m.stack.size ≤ base
  · simp only [if_pos hle]
    exact both_malformed htw.trace
  simp only [if_neg hle]
  have htop : Machine.top m = .ok (m.stack.size - 1) m := rfl
  have htop' : Machine.top m' = .ok (m.stack.size - 1) m' := by rw [← htw.size]; rfl
  rw [both_bind_of_ok htop htop']
  refine (both_bind_of_ok rfl rfl).2 ?_
  refine (h.whnfs _ _ _ _ (htw.entry (by omega))).bind fun v v' m1 m1' h1 => ?_
  obtain ⟨h1, hr1, hset1, hst1⟩ := h1
  have h2 := h1.shrink (m.stack.size - 1)
  have hset2 : Settled base m { m1 with stack := m1.stack.shrink (m.stack.size - 1) } := by
    intro i hi hr
    show Rests m1.heap.get ((m1.stack.shrink (m.stack.size - 1)).getD i 0)
    rw [getD_shrink (by omega)]
    exact hset1 i (by omega) hr
  have hbase : base ≤ (m1.stack.shrink (m.stack.size - 1)).size := by
    rw [Array.size_shrink, hst1.stack]; omega
  have hb := h.addValue pending h2 (twins_valueForm h2 (.head _) hr1.hasSpine) hbase
  refine (both_bind_of_ok rfl rfl).2 (both_bind_get.2 (hb.mono fun w w' m2 m2' h3 => ?_))
  exact ⟨h3.1, h3.2.1, hset2.trans h3.2.2⟩

end

theorem loops_agree (fuel fuel' : Nat) : LoopsAgree fuel fuel' := by
  induction hn : fuel + fuel' using Nat.strongRecOn generalizing fuel fuel' with
  | _ n ih =>
    cases fuel with
    | zero =>
      exact ⟨fun _ _ _ _ _ _ _ => .of_left trivial, fun _ _ _ _ _ _ => .of_left trivial,
        fun _ _ _ _ _ => .of_left trivial⟩
    | succ fuel =>
      cases fuel' with
      | zero =>
        exact ⟨fun _ _ _ _ _ _ _ => .of_right trivial, fun _ _ _ _ _ _ => .of_right trivial,
          fun _ _ _ _ _ => .of_right trivial⟩
      | succ fuel' =>
        have h := ih (fuel + fuel') (by omega) fuel fuel' rfl
        have hl := (ih (fuel + (fuel' + 1)) (by omega) fuel (fuel' + 1) rfl).unwind
        have hr := (ih (fuel + 1 + fuel') (by omega) (fuel + 1) fuel' rfl).unwind
        exact ⟨unwindsAgree_succ h hl hr, fun _ _ _ _ hsize htw => h.perform_succ hsize htw,
          fun _ _ _ _ htw => h.normalize_succ htw⟩

/-!
### Runs
-/

theorem Twins.pin (h : Twins m m' held) (hx : m.pinned[k]? = some x)
    (hx' : m'.pinned[k]? = some x') : Twins m m' ((x, x') :: held) := by
  obtain ⟨R, hR, hh⟩ := h
  exact ⟨R, hR, forall_mem_cons.2
    ⟨forall₂_zip hR.pinned (mem_of_getElem? (getElem?_zip_eq_some.2 ⟨hx, hx'⟩)), hh⟩⟩

/-- **Twins evaluate a definition to the same value.** -/
theorem both_evaluate (htw : Twins m m' []) (hx : m.pinned[k]? = some x)
    (hx' : m'.pinned[k]? = some x') :
    Both (evaluate fuel x) (evaluate fuel' x') m m' fun v v' m1 m1' => v' = v ∧ SameTrace m1 m1' := by
  have h := loops_agree fuel fuel'
  have hnormalize : ∀ {m m' : Machine} {y y' : Nat}, Twins m m' [(y, y')] →
      Both (normalize fuel y) (normalize fuel' y') m m' fun v v' m1 m1' =>
        v' = v ∧ SameTrace m1 m1' := fun htw =>
    (h.normalizes _ _ _ _ htw).mono fun _ _ _ _ h1 => ⟨h1.1, h1.2.1.trace⟩
  refine ((h.whnfs _ _ _ _ (htw.pin hx hx')).and_right (quiet_whnf fuel' x' m')).bind
    fun v v' m1 m1' h1 => ?_
  obtain ⟨⟨h1, hr, -, hst⟩, hst'⟩ := h1
  refine both_bind_get.2 ?_
  rw [twins_isActionIn h1 (.head _) hr.hasSpine]
  split
  · exact (h.performs h1).bind fun r r' m2 m2' h2 => hnormalize h2
  · rw [← hst.pinned] at hx
    rw [← hst'.pinned] at hx'
    exact hnormalize (h1.nil.pin hx hx')

theorem both_onWorld (h : SameTrace m m') (o : Operation) :
    Both (onWorld o) (onWorld o) m m' fun a a' m1 m1' => a' = a ∧ SameTrace m1 m1' := by
  unfold Both onWorld
  rw [h.world, h.performed]
  cases ho : o.perform m.world with
  | ok a world => exact ⟨rfl, rfl, rfl, h.stats⟩
  | error e world => exact Or.inr (Or.inr ⟨rfl, rfl, rfl, h.stats⟩)

theorem flushed_sameTrace (h : SameTrace m m') : SameTrace (flushed m) (flushed m') := by
  unfold flushed onWorld
  rw [h.world, h.performed]
  cases Operation.flushAll.perform m.world <;> exact ⟨rfl, rfl, h.stats⟩

theorem both_stopped (h : SameTrace m m') (e : Halt) :
    Both (stopped e) (stopped e) m m' fun o o' m1 m1' => o' = o ∧ SameTrace m1 m1' := by
  have hflush := flushed_sameTrace h
  cases e with
  | outOfFuel => exact Or.inl trivial
  | error e =>
    cases e with
    | exit status => exact ⟨rfl, hflush⟩
    | _ => exact Or.inr (Or.inr ⟨rfl, hflush⟩)

theorem exhausted_run (he : evaluate fuel x m = .error e m1) (hx : e.Exhausted) :
    Meets (run fuel x) m (fun _ _ => False) fun e _ => e.Exhausted := by
  unfold Meets
  rw [run_of_error he]
  match e with
  | .outOfFuel => trivial
  | .error (.outOfMemory _) => trivial
  | .error (.stackOverflow _) => trivial

/-- **Twins run to the same outcome**, or to the same error. -/
theorem twins_run (htw : Twins m m' []) (hx : m.pinned[k]? = some x) (hx' : m'.pinned[k]? = some x')
    :
    Both (run fuel x) (run fuel' x') m m' fun o o' m1 m1' => o' = o ∧ SameTrace m1 m1' := by
  have hb : Both (evaluate fuel x) (evaluate fuel' x') m m' _ := both_evaluate htw hx hx'
  unfold Both at hb
  cases he : evaluate fuel x m with
  | ok v m1 =>
    cases he' : evaluate fuel' x' m' with
    | ok v' m1' =>
      simp only [he, he'] at hb
      obtain ⟨rfl, ht⟩ := hb
      exact .congr (run_of_ok he) (run_of_ok he')
        ((both_onWorld ht _).bind fun _ _ _ _ h1 => ⟨rfl, h1.2⟩)
    | error e' m1' =>
      simp only [he, he'] at hb
      exact .of_right (exhausted_run he' hb)
  | error e m1 =>
    cases he' : evaluate fuel' x' m' with
    | ok v' m1' =>
      simp only [he, he'] at hb
      exact .of_left (exhausted_run he hb)
    | error e' m1' =>
      simp only [he, he'] at hb
      rcases hb with hb | hb | ⟨rfl, ht⟩
      · exact .of_left (exhausted_run he hb)
      · exact .of_right (exhausted_run he' hb)
      · exact .congr (run_of_error he) (run_of_error he') (both_stopped ht e)

end Loops

end Machine

end GraphReduction
