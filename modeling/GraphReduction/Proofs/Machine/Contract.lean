import GraphReduction.Machine.Run
import Mathlib

/-!
# Contracts of computations

`Meets x s Q E` says what comes of a computation `x` that is started in the state `s`: a result
and a state with `Q`, or an error and a state with `E`. A sequence meets a contract if its first
part ends where the rest meets it (`meets_bind`), and every small operation of the machine has a
lemma that says what it comes to.
-/

namespace GraphReduction

/-- Started in `s`, `x` ends with `Q` or fails with `E`. -/
def Meets {ε σ α : Type} (x : EStateM ε σ α) (s : σ) (Q : α → σ → Prop) (E : ε → σ → Prop) : Prop :=
  match x s with
  | .ok a s' => Q a s'
  | .error e s' => E e s'

section Meets

variable {ε σ α β : Type} {x : EStateM ε σ α} {f : α → EStateM ε σ β} {s : σ}
  {Q Q' : α → σ → Prop} {E E' : ε → σ → Prop} {a : α} {s' : σ} {y : EStateM ε σ α}
  {R : β → σ → Prop}

theorem Meets.ok (h : Meets x s Q E) (hx : x s = .ok a s') : Q a s' := by
  simpa only [Meets, hx] using h

theorem Meets.error {e : ε} (h : Meets x s Q E) (hx : x s = .error e s') : E e s' := by
  simpa only [Meets, hx] using h

theorem Meets.intro (hok : ∀ a s', x s = .ok a s' → Q a s') (herr : ∀ e s', x s = .error e s' → E e s') :
    Meets x s Q E := by
  unfold Meets
  cases hx : x s with
  | ok a s' => exact hok a s' hx
  | error e s' => exact herr e s' hx

theorem meets_self (x : EStateM ε σ α) (s : σ) :
    Meets x s (fun r s' => x s = .ok r s') fun e s' => x s = .error e s' :=
  .intro (fun _ _ h => h) fun _ _ h => h

theorem meets_of_ok (hx : x s = .ok a s') : Meets x s Q E ↔ Q a s' := by
  simp only [Meets, hx]

theorem bind_ok (hx : x s = .ok a s') : (x >>= f) s = f a s' := by
  show EStateM.bind x f s = _
  unfold EStateM.bind
  rw [hx]

theorem bind_error {e : ε} (hx : x s = .error e s') : (x >>= f) s = .error e s' := by
  show EStateM.bind x f s = _
  unfold EStateM.bind
  rw [hx]

theorem exists_of_bind_ok {b : β} (h : (x >>= f) s = .ok b s') : ∃ a s1, x s = .ok a s1 ∧ f a s1 = .ok b s' := by
  cases hx : x s with
  | ok a s1 => rw [bind_ok hx] at h; exact ⟨a, s1, rfl, h⟩
  | error e s1 => rw [bind_error hx] at h; cases h

theorem Meets.congr (hx : x s = y s) (h : Meets y s Q E) : Meets x s Q E := by
  unfold Meets
  rw [hx]
  exact h

theorem Meets.mono (h : Meets x s Q E) (hQ : ∀ a s', Q a s' → Q' a s')
    (hE : ∀ e s', E e s' → E' e s') : Meets x s Q' E' := by
  unfold Meets at h ⊢
  cases hx : x s with
  | ok a s' => rw [hx] at h; exact hQ a s' h
  | error e s' => rw [hx] at h; exact hE e s' h

theorem Meets.imp (h : Meets x s Q E) (hQ : ∀ a s', Q a s' → Q' a s') : Meets x s Q' E :=
  h.mono hQ fun _ _ he => he

theorem Meets.and (h : Meets x s Q E) (h' : Meets x s Q' E') :
    Meets x s (fun a s' => Q a s' ∧ Q' a s') (fun e s' => E e s' ∧ E' e s') := by
  unfold Meets at h h' ⊢
  cases hx : x s with
  | ok _ _ | error _ _ => rw [hx] at h h'; exact ⟨h, h'⟩

theorem Meets.also (h : Meets x s Q E) (h' : Meets x s Q' E') :
    Meets x s (fun a s' => Q a s' ∧ Q' a s') E := (h.and h').mono (fun _ _ h => h) fun _ _ he => he.1

theorem Meets.traced (h : Meets x s Q E) : Meets x s (fun a s' => x s = .ok a s' ∧ Q a s') E :=
  .intro (fun _ _ hx => ⟨hx, h.ok hx⟩) fun _ _ hx => h.error hx

/-- **A sequence**: the rest starts where the first part ends. -/
@[simp] theorem meets_bind :
    Meets (x >>= f) s R E ↔ Meets x s (fun a s' => Meets (f a) s' R E) E := by
  unfold Meets
  show (match EStateM.bind x f s with | .ok a s' => R a s' | .error e s' => E e s') ↔ _
  unfold EStateM.bind
  cases x s <;> rfl

theorem Meets.bind {R : β → σ → Prop} (h : Meets x s Q E) (hf : ∀ a s', Q a s' → Meets (f a) s' R E) :
    Meets (x >>= f) s R E := meets_bind.2 (h.imp hf)

@[simp] theorem meets_pure : Meets (pure a : EStateM ε σ α) s Q E ↔ Q a s := Iff.rfl

@[simp] theorem meets_map {g : α → β} :
    Meets (g <$> x) s R E ↔ Meets x s (fun a s' => R (g a) s') E := by
  unfold Meets
  show (match EStateM.map g x s with | .ok a s' => R a s' | .error e s' => E e s') ↔ _
  unfold EStateM.map
  cases x s <;> rfl

@[simp] theorem meets_get {R : σ → σ → Prop} :
    Meets (get : EStateM ε σ σ) s R E ↔ R s s := Iff.rfl

@[simp] theorem meets_modify {g : σ → σ} {R : Unit → σ → Prop} :
    Meets (modify g : EStateM ε σ Unit) s R E ↔ R () (g s) := Iff.rfl

@[simp] theorem meets_ite {c : Prop} [Decidable c] :
    Meets (if c then x else y) s Q E ↔ if c then Meets x s Q E else Meets y s Q E := by
  split <;> rfl

end Meets

namespace Machine

variable {α : Type} {m : Machine} {Q : α → Machine → Prop} {E : Halt → Machine → Prop} {id : Nat}

@[simp] theorem meets_fail {e : RuntimeError} :
    Meets (fail e : Run α) m Q E ↔ E (.error e) m := Iff.rfl

@[simp] theorem meets_malformed {g : GraphFault} :
    Meets (malformed g : Run α) m Q E ↔ E (.error (.malformed g)) m := Iff.rfl

section Registers

variable {R : Unit → Machine → Prop} {N : Nat → Machine → Prop} {i : Nat}

@[simp] theorem meets_push : Meets (push id) m R E ↔
    if m.stackLimit ≤ m.stack.size then E (.error (.stackOverflow m.stackLimit)) m
    else R () { m with stack := m.stack.push id } := by
  unfold Meets push
  by_cases h : m.stackLimit ≤ m.stack.size
  · rw [if_pos h, if_pos h]
  · rw [if_neg h, if_neg h]

@[simp] theorem meets_enter : Meets enter m R E ↔
    if m.depthLimit ≤ m.depth then E (.error (.stackOverflow m.depthLimit)) m
    else R () { m with depth := m.depth + 1 } := by
  unfold Meets enter
  by_cases h : m.depthLimit ≤ m.depth
  · rw [if_pos h, if_pos h]
  · rw [if_neg h, if_neg h]

@[simp] theorem meets_truncate {n : Nat} :
    Meets (truncate n) m R E ↔ R () { m with stack := m.stack.shrink n } := Iff.rfl

@[simp] theorem meets_entry : Meets (entry i) m N E ↔ N (m.stack.getD i 0) m := Iff.rfl

theorem meets_entry_bind {g : Nat → Run α} :
    Meets (entry i >>= g) m Q E ↔ Meets (g (m.stack.getD i 0)) m Q E := Iff.rfl

@[simp] theorem meets_setEntry :
    Meets (setEntry i id) m R E ↔ R () { m with stack := m.stack.setIfInBounds i id } := Iff.rfl

@[simp] theorem meets_top : Meets top m N E ↔ N (m.stack.size - 1) m := Iff.rfl

end Registers

section Heap

@[simp] theorem meets_cell {R : Cell → Machine → Prop} :
    Meets (cell id) m R E ↔ R (m.heap.get id) m := Iff.rfl

@[simp] theorem meets_setCell {c : Cell} {R : Unit → Machine → Prop} :
    Meets (setCell id c) m R E ↔ R () { m with heap := m.heap.set id c } := Iff.rfl

@[simp] theorem meets_resolve {N : Nat → Machine → Prop} :
    Meets (resolve id) m N E ↔ N (m.heap.resolve id) m := Iff.rfl

@[simp] theorem meets_spine {R : Nat × List Nat → Machine → Prop} :
    Meets (spine id) m R E ↔ R (spineOf m.heap id) m := Iff.rfl

@[simp] theorem meets_isWhnf {R : Bool → Machine → Prop} :
    Meets (isWhnf id) m R E ↔ R (m.isWhnfIn id) m := Iff.rfl

@[simp] theorem meets_describe {R : String → Machine → Prop} :
    Meets (describe id) m R E ↔ R (describeIn m.heap id) m := Iff.rfl

end Heap

/-!
## Runs
-/

section Runs

variable {fuel : Nat} {e : Halt} {m1 : Machine}

/-- The machine after what was written is flushed. -/
def flushed (m : Machine) : Machine :=
  match onWorld .flushAll m with
  | .ok _ m1 | .error _ m1 => m1

theorem flushed_of_meets {P : Machine → Prop}
    (h : Meets (onWorld .flushAll) m (fun _ m1 => P m1) fun _ m1 => P m1) : P (flushed m) := by
  unfold flushed
  cases hw : onWorld .flushAll m with
  | ok a m1 => exact h.ok hw
  | error e m1 => exact h.error hw

/-- How a run ends whose evaluation has failed. -/
def stopped (e : Halt) : Run Outcome := fun m =>
  match e with
  | .error (.exit status) => .ok (.exit status) (flushed m)
  | e => .error e (flushed m)

theorem run_of_ok {v : Value} (he : evaluate fuel id m = .ok v m1) :
    run fuel id m = (do onWorld .flushAll; return .value v : Run Outcome) m1 := by
  unfold run
  rw [he]

theorem run_of_error (he : evaluate fuel id m = .error e m1) : run fuel id m = stopped e m1 := by
  unfold run stopped flushed
  rw [he]
  dsimp only
  cases onWorld .flushAll m1 <;> rfl

/-- **A run** evaluates the entry point and then flushes what was written, also if the evaluation has
failed. -/
theorem meets_run {Q : Outcome → Machine → Prop} (h : Meets (evaluate fuel id) m
      (fun v m1 => Meets (onWorld .flushAll) m1 (fun _ m2 => Q (.value v) m2) E)
      fun e m1 => (∀ status, e = .error (.exit status) → Q (.exit status) (flushed m1)) ∧
        E e (flushed m1)) : Meets (run fuel id) m Q E := by
  unfold Meets
  cases he : evaluate fuel id m with
  | ok v m1 =>
    rw [run_of_ok he]
    exact meets_bind.2 (h.ok he)
  | error e m1 =>
    obtain ⟨hexit, herror⟩ := h.error he
    rw [run_of_error he]
    cases e with
    | outOfFuel => exact herror
    | error e =>
      cases e with
      | exit status => exact hexit status rfl
      | _ => exact herror

end Runs

end Machine

end GraphReduction
