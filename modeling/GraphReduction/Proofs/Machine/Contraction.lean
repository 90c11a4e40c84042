import GraphReduction.Proofs.Machine.Contract

/-!
# Contractions

Firing a combinator reads its arguments off the spine, builds the right hand side of its rule
from them, and overwrites the redex. Right hand sides are shapes, and `contract` is what all
rules do with them:

* `Combinator.contractum`: the right hand side of every rule but that of `Case`.
* `StepIs`: what a look at a spine does, by the cell on top of the stack. `meets_step`: **these are all
  the cases.**
* `fire_eq_bind`: **firing a combinator contracts the redex to its right hand side.**
* `selectAlternative_eq_bind`: the rule of `Case` contracts the redex to the alternative of
  the tag applied to the fields.
-/

namespace GraphReduction

open List

variable {c : Combinator} {s : Shape} {n k : Nat}

/-- The right hand side of a rule, in terms of the arguments. -/
inductive Shape where
  | arg (i : Nat)
  /-- The cell that is overwritten. -/
  | redex
  | app (f a : Shape)
deriving DecidableEq

/-- The right hand side of the rule of a combinator. The rule of `Case` depends on the
scrutinee, and the others never fire. -/
def Combinator.contractum : Combinator → Option Shape
  | I | K => some (.arg 0)
  | A => some (.arg 1)
  | Y => some (.app (.arg 0) .redex)
  | S => some (.app (.app (.arg 0) (.arg 2)) (.app (.arg 1) (.arg 2)))
  | B => some (.app (.arg 0) (.app (.arg 1) (.arg 2)))
  | C => some (.app (.app (.arg 0) (.arg 2)) (.arg 1))
  | S' => some (.app (.app (.arg 0) (.app (.arg 1) (.arg 3))) (.app (.arg 2) (.arg 3)))
  | B' => some (.app (.arg 0) (.app (.arg 1) (.app (.arg 2) (.arg 3))))
  | C' => some (.app (.app (.arg 0) (.app (.arg 1) (.arg 3))) (.arg 2))
  | caseOf _ | con .. | ioBind | ioThen | ioReturn => none

/-- The first argument applied to the `n` after it. -/
def Shape.applied : (n : Nat) → Shape
  | 0 => arg 0
  | n + 1 => app (applied n) (arg (n + 1))

/-- A shape with arguments below `n` only. -/
def Shape.Fits (n : Nat) : Shape → Prop
  | arg i => i < n
  | redex => True
  | app f a => Fits n f ∧ Fits n a

theorem Combinator.contractum_fits (hs : c.contractum = some s) (hn : c.arity = some n) :
    s.Fits n := by
  cases c <;> cases hs <;> cases hn <;> simp [Shape.Fits]

theorem Combinator.contractum_or_caseOf (hn : c.arity = some n) :
    (∃ s, c.contractum = some s) ∨ ∃ k, c = .caseOf k ∧ n = k.toNat + 1 := by
  cases c with
  | caseOf k => exact .inr ⟨k, rfl, (Option.some.inj hn).symm⟩
  | con | ioBind | ioThen | ioReturn => cases hn
  | _ => exact .inl ⟨_, rfl⟩

theorem Shape.applied_fits (hk : k < n) : (applied k).Fits n := by
  induction k with
  | zero => exact hk
  | succ k ih => exact ⟨ih (by omega), hk⟩

namespace Machine

/-- The cell of a shape, with new cells for its applications. -/
def build (args : List Nat) (redex : Nat) : Shape → Run Nat
  | .arg i => return args.getD i 0
  | .redex => return redex
  | .app f a => do
    let f ← build args redex f
    let a ← build args redex a
    app f a

/-- Overwrites the redex with a shape. -/
def contract (args : List Nat) (redex : Nat) : Shape → Run Fired
  | .app f a => do
    let f ← build args redex f
    let a ← build args redex a
    overwrite redex (.app f a)
  | s => do
    let target ← build args redex s
    forward redex target

/-- The spine below stack position `top` starts with the arguments `args`. -/
def HasArgs (m : Machine) (top : Nat) (args : List Nat) : Prop :=
  ∀ i a, args[i]? = some a → ∃ f, m.heap.get (m.stack.getD (top - (i + 1)) 0) = .app f a

/-- The stack entries below position `top` are the applications of the spine that has the entry
there as its head and the arguments `args`. -/
structure OnStack (m : Machine) (top : Nat) (args : List Nat) : Prop where
  top_lt : top < m.stack.size
  length_le : args.length ≤ top
  link : ∀ i a, args[i]? = some a → ∃ f,
    m.heap.get (m.stack.getD (top - (i + 1)) 0) = .app f a ∧
      m.heap.resolve f = m.stack.getD (top - i) 0

variable {m : Machine} {top i a n redex : Nat} {args : List Nat} {α β : Type} {f j : Nat}
  {m' : Machine} {l : List Nat} {x : Run α}

theorem OnStack.hasArgs (h : m.OnStack top args) : m.HasArgs top args := by
  intro i a hi
  obtain ⟨f, hf, -⟩ := h.link i a hi
  exact ⟨f, hf⟩

theorem bind_entry {k : Nat → Run α} :
    (entry j >>= k) m = k (m.stack.getD j 0) m := rfl

theorem bind_cell {x : Nat} {k : Cell → Run α} :
    (cell x >>= k) m = k (m.heap.get x) m := rfl

theorem bind_spine {x : Nat} {k : Nat × List Nat → Run α} :
    (spine x >>= k) m = k (spineOf m.heap x) m := rfl

theorem arg_eq_ok (h : m.heap.get (m.stack.getD (top - i) 0) = .app f a) :
    arg top i m = .ok a m := by
  unfold arg
  rw [bind_entry, bind_cell, h]
  rfl

theorem arg_cases (m : Machine) (top i : Nat) :
    (∃ f a, m.heap.get (m.stack.getD (top - i) 0) = .app f a ∧ arg top i m = .ok a m) ∨
      ∃ c, arg top i m = .error (.error (.malformed (.notAnApplication c))) m := by
  cases hc : m.heap.get (m.stack.getD (top - i) 0) with
  | app f a => exact Or.inl ⟨f, a, rfl, arg_eq_ok hc⟩
  | _ =>
    right
    refine ⟨m.heap.get (m.stack.getD (top - i) 0), ?_⟩
    unfold arg
    rw [bind_entry, bind_cell, hc]
    rfl

theorem alloc_ok_stack {c : Cell} {id : Nat} (h : alloc c m = .ok id m') : m'.stack = m.stack := by
  unfold alloc at h
  split at h <;> cases h
  rfl

/-!
## A look at a spine
-/

/-- The entry on top of the stack. -/
abbrev onTop (m : Machine) : Nat := m.stack.getD (m.stack.size - 1) 0

/-- Whether a spine with this head and `n` arguments is in weak head normal form. -/
def rests : Cell → (n : Nat) → Bool
  | .comb c, n => (c.arity.map fun k => decide (n < k)).getD true
  | .prim p, n => p.isAction || n < p.arity
  | .scalar _, n => n == 0
  | _, _ => false

theorem arity_of_rests (h : rests (.comb c) k = false) : ∃ n, c.arity = some n ∧ n ≤ k := by
  simp only [rests] at h
  cases hn : c.arity with
  | none => rw [hn] at h; cases h
  | some n => exact ⟨n, rfl, by simpa [hn] using h⟩

/-- **What a look at the spine at `base` does**, by the cell on top of the stack. -/
inductive StepIs (ev : Evaluators) (base : Nat) (m : Machine) : Run Progress → Prop
  | app {f a : Nat} : m.heap.get m.onTop = .app f a → StepIs ev base m (do push f; return .again)
  | ind {t : Nat} : m.heap.get m.onTop = .ind t → t ≠ m.onTop →
    StepIs ev base m (do setEntry (m.stack.size - 1) t; return .again)
  | loop : m.heap.get m.onTop = .ind m.onTop → StepIs ev base m (malformed .loop)
  | comb {c : Combinator} {n : Nat} : m.heap.get m.onTop = .comb c → c.arity = some n →
    n ≤ m.stack.size - 1 - base →
    StepIs ev base m (do afterRule (m.stack.size - 1) n (← fire c (m.stack.size - 1)))
  | prim {p : Primitive} : m.heap.get m.onTop = .prim p → p.isAction = false →
    p.arity ≤ m.stack.size - 1 - base →
    StepIs ev base m (do afterRule (m.stack.size - 1) p.arity (← fireStrict ev p (m.stack.size - 1)))
  | done : rests (m.heap.get m.onTop) (m.stack.size - 1 - base) = true → StepIs ev base m (return .done)
  | scalar {s : Scalar} : m.heap.get m.onTop = .scalar s → m.stack.size - 1 - base ≠ 0 →
    StepIs ev base m (fail (.notAFunction (describeIn m.heap m.onTop)))
  | free {next : Option Nat} : m.heap.get m.onTop = .free next →
    StepIs ev base m (malformed (.unallocated m.onTop))

variable {ev : Evaluators} {base : Nat}

/-- `StepIs` describes the step that runs. -/
theorem StepIs.eq {x : Run Progress} (h : StepIs ev base m x) : step ev base m = x m := by
  unfold step
  rw [bind_ok (rfl : Machine.top m = .ok (m.stack.size - 1) m), bind_entry, bind_cell]
  cases h with
  | app hc | free hc => rw [hc]
  | ind hc hne => simp only [hc, if_neg hne]
  | loop hc => simp only [hc, if_pos]; rfl
  | comb hc hn hle => simp only [hc, hn, if_pos hle]
  | @prim p hc ha hle =>
    have hrun : ¬ (p.isAction || decide (m.stack.size - 1 - base < p.arity)) = true := by
      simp [ha]; omega
    simp only [hc, if_neg hrun]
  | done hr =>
    cases hc : m.heap.get m.onTop with
    | comb c =>
      rw [hc] at hr
      cases hn : c.arity with
      | none => simp only [hn]
      | some n =>
        simp only [rests, hn, Option.map_some, Option.getD_some, decide_eq_true_eq] at hr
        simp only [hn, if_neg (Nat.not_le.2 hr)]
    | prim p =>
      rw [hc] at hr
      simp only [rests] at hr
      simp only [if_pos hr]
    | scalar s =>
      rw [hc] at hr
      simp only [rests, beq_iff_eq] at hr
      simp only [if_pos hr]
    | app | ind | free => rw [hc] at hr; cases hr
  | scalar hc hne => simp only [hc, if_neg hne]; rfl

theorem step_of_ind {t : Nat} (hc : m.heap.get m.onTop = .ind t) (hne : t ≠ m.onTop) :
    step ev base m = .ok .again { m with stack := m.stack.setIfInBounds (m.stack.size - 1) t } :=
  (StepIs.ind hc hne).eq

/-- A step is always one of those that `StepIs` lists. -/
theorem exists_stepIs (ev : Evaluators) (base : Nat) (m : Machine) : ∃ x, StepIs ev base m x := by
  cases hr : rests (m.heap.get m.onTop) (m.stack.size - 1 - base) with
  | true => exact ⟨_, .done hr⟩
  | false =>
    cases hc : m.heap.get m.onTop with
    | app f a => exact ⟨_, .app hc⟩
    | ind t =>
      by_cases ht : t = m.onTop
      · exact ⟨_, .loop (ht ▸ hc)⟩
      · exact ⟨_, .ind hc ht⟩
    | comb c =>
      rw [hc] at hr
      obtain ⟨n, hn, hle⟩ := arity_of_rests hr
      exact ⟨_, .comb hc hn hle⟩
    | prim p =>
      rw [hc] at hr
      obtain ⟨ha, hle⟩ : p.isAction = false ∧ p.arity ≤ m.stack.size - 1 - base := by
        simpa [rests] using hr
      exact ⟨_, .prim hc ha hle⟩
    | scalar s =>
      rw [hc] at hr
      exact ⟨_, .scalar hc (by simpa [rests] using hr)⟩
    | free next => exact ⟨_, .free hc⟩

theorem meets_step {Q : Progress → Machine → Prop} {E : Halt → Machine → Prop}
    (h : ∀ x, StepIs ev base m x → Meets x m Q E) : Meets (step ev base) m Q E := by
  obtain ⟨x, hx⟩ := exists_stepIs ev base m
  exact .congr hx.eq (h x hx)

/-!
## Firing
-/

/-- A computation that leaves the stack alone may come after a look at it. -/
theorem bind_entry_comm {k : α → Nat → Run β} (hx : ∀ {m a m'}, x m = .ok a m' → m'.stack = m.stack)
    :
    (x >>= fun a => entry j >>= k a) = (entry j >>= fun e => x >>= fun a => k a e) := by
  funext m
  rw [bind_entry]
  cases h : x m with
  | ok a m' => rw [bind_ok h, bind_ok h, bind_entry, hx h]
  | error e m' => rw [bind_error h, bind_error h]

theorem app_bind_entry {k : Nat → Nat → Run α} :
    (app f a >>= fun id => entry j >>= k id) = (entry j >>= fun e => app f a >>= fun id => k id e) :=
  bind_entry_comm alloc_ok_stack

theorem arg_bind_entry {t : Nat} {k : Nat → Nat → Run α} :
    (arg t i >>= fun a => entry j >>= k a) = (entry j >>= fun e => arg t i >>= fun a => k a e) := by
  refine bind_entry_comm fun {m a m'} h => ?_
  rcases arg_cases m t i with ⟨_, _, -, hok⟩ | ⟨_, herror⟩
  · cases hok.symm.trans h
    rfl
  · cases herror.symm.trans h

/-- The arguments `i`, `i + 1`, … of a spine, `n` of them. -/
def readArgs (top i : Nat) : (n : Nat) → Run (List Nat)
  | 0 => return []
  | n + 1 => do
    let a ← arg top i
    let args ← readArgs top (i + 1) n
    return a :: args

/-- **Firing a combinator contracts the redex to the right hand side of its rule.** -/
theorem fire_eq_bind (hs : c.contractum = some s) (hn : c.arity = some n) : fire c top = (do
      let args ← readArgs top 1 n
      let redex ← entry (top - n)
      contract args redex s) := by
  cases c <;> cases hs <;> cases hn <;>
    simp only [fire, readArgs, contract, build, bind_assoc, pure_bind, app_bind_entry, arg_bind_entry,
      getD_cons_zero, getD_cons_succ]

theorem bind_arg {k : Nat → Run α} (hargs : m.HasArgs top args) (i : Nat) (hi : args[i]? = some a) :
    (arg top (i + 1) >>= k) m = k a m := by
  obtain ⟨f, h⟩ := hargs i a hi
  exact bind_ok (arg_eq_ok h)

theorem readArgs_eq_ok (hargs : m.HasArgs top args) (k : Nat) :
    readArgs top (k + 1) (args.drop k).length m = .ok (args.drop k) m := by
  induction hl : args.drop k generalizing k with
  | nil => rfl
  | cons a l ih =>
    have ha : args[k]? = some a := by rw [← head?_drop, hl]; rfl
    have htail : args.drop (k + 1) = l := by rw [← tail_drop, hl]; rfl
    simp only [length_cons, readArgs]
    rw [bind_arg hargs k ha, bind_ok (ih (k + 1) htail)]
    rfl

theorem fire_eq_contract (hs : c.contractum = some s) (hn : c.arity = some args.length)
    (hargs : m.HasArgs top args) :
    fire c top m = contract args (m.stack.getD (top - args.length) 0) s m := by
  have hread : readArgs top 1 args.length m = .ok args m := readArgs_eq_ok hargs 0
  rw [fire_eq_bind hs hn, bind_ok hread, bind_entry]

theorem applyAll_append : applyAll f (l ++ [a]) = applyAll f l >>= fun g => app g a := by
  induction l generalizing f with
  | nil => simp [applyAll]
  | cons b l ih => simp only [cons_append, applyAll, ih, bind_assoc]

theorem build_applied (hk : k ≤ l.length) :
    build (f :: l) redex (.applied k) = applyAll f (l.take k) := by
  induction k with
  | zero => rfl
  | succ k ih =>
    have hlt : k < l.length := hk
    have htake : l.take (k + 1) = l.take k ++ [(f :: l).getD (k + 1) 0] := by
      rw [take_add_one, getElem?_eq_getElem hlt]
      simp [getD_eq_getElem?_getD, getElem?_eq_getElem hlt]
    simp only [Shape.applied, build, ih (by omega), pure_bind, htake, applyAll_append]

/-- **Selecting an alternative contracts the redex to the alternative applied to the fields.** -/
theorem selectAlternative_eq_bind {tag : Nat} : selectAlternative n top tag = (do
      let (_, fields) ← spine (← arg top 1)
      let redex ← entry (top - (n + 1))
      let alt ← arg top (tag + 2)
      contract (alt :: fields) redex (.applied fields.length)) := by
  unfold selectAlternative
  refine bind_congr fun s => bind_congr fun (_, fields) => bind_congr fun redex => bind_congr fun alt => ?_
  rcases eq_nil_or_concat fields with rfl | ⟨l, last, rfl⟩
  · rfl
  · simp only [concat_eq_append, getLast?_append, getLast?_singleton,
      dropLast_concat, length_append, length_singleton, Shape.applied, contract,
      build_applied (l := l ++ [last]) (k := l.length) (by simp), take_left, build, pure_bind,
      Option.some_or]
    simp [getD_eq_getElem?_getD]

theorem selectAlternative_eq_contract {s g alt head tag : Nat} {fields : List Nat}
    (hscrut : m.heap.get (m.stack.getD (top - 1) 0) = .app f s)
    (hfields : spineOf m.heap s = (head, fields))
    (halt : m.heap.get (m.stack.getD (top - (tag + 2)) 0) = .app g alt) :
    selectAlternative n top tag m =
      contract (alt :: fields) (m.stack.getD (top - (n + 1)) 0) (.applied fields.length) m := by
  rw [selectAlternative_eq_bind, bind_ok (arg_eq_ok hscrut), bind_spine, hfields]
  dsimp only
  rw [bind_entry, bind_ok (arg_eq_ok halt)]

end Machine

end GraphReduction
