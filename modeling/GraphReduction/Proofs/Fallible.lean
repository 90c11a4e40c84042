import Mathlib.Tactic.Common

/-!
# Computations that may fail

What is known of the parts of a computation that succeeds, with a state (`Fallible`) and without.
-/

namespace GraphReduction

namespace Fallible

variable {σ ε α β : Type} {x : StateT σ (Except ε) α} {f : α → StateT σ (Except ε) β} {c c' : σ}
  {a : α} {b : β}

theorem bind_of_ok (h : x c = .ok (a, c')) : (x >>= f) c = f a c' := by
  show Except.bind (x c) _ = _
  rw [h]
  rfl

theorem bind_of_error {e : ε} (h : x c = .error e) : (x >>= f) c = .error e := by
  show Except.bind (x c) _ = _
  rw [h]
  rfl

theorem bind_eq_ok {r : β × σ} :
    (x >>= f) c = .ok r ↔ ∃ a c', x c = .ok (a, c') ∧ f a c' = .ok r := by
  constructor
  · intro h
    cases hx : x c with
    | error e =>
      rw [bind_of_error hx] at h
      cases h
    | ok p =>
      have hbind : (x >>= f) c = f p.1 p.2 := bind_of_ok hx
      exact ⟨p.1, p.2, rfl, by rw [← hbind]; exact h⟩
  · rintro ⟨a, c', hx, h⟩
    rw [bind_of_ok hx, h]

theorem pure_eq_ok {r : α × σ} : (pure a : StateT σ (Except ε) α) c = .ok r ↔ r = (a, c) := by
  constructor
  · intro h
    cases h
    rfl
  · rintro rfl
    rfl

theorem throw_ne_ok {e : ε} {r : α × σ} : (throw e : StateT σ (Except ε) α) c ≠ .ok r := by
  intro h
  cases h

theorem exists_of_map {g : α → β} (h : (x >>= fun a => pure (g a)) c = .ok (b, c')) :
    ∃ a, b = g a := by
  obtain ⟨a, c1, -, h⟩ := bind_eq_ok.1 h
  exact ⟨a, congrArg Prod.fst (pure_eq_ok.1 h)⟩

theorem check_eq_ok {p : Prop} [Decidable p] {e : ε} {g : α → StateT σ (Except ε) β}
    {y : StateT σ (Except ε) β} {r : β × σ} :
    (if p then throw e >>= g else y) c = .ok r ↔ ¬ p ∧ y c = .ok r := by
  by_cases hp : p
  · rw [if_pos hp]
    constructor
    · intro h
      obtain ⟨_, _, hthrow, -⟩ := bind_eq_ok.1 h
      exact absurd hthrow throw_ne_ok
    · rintro ⟨hn, -⟩
      exact absurd hp hn
  · rw [if_neg hp]
    exact ⟨fun h => ⟨hp, h⟩, fun h => h.2⟩

end Fallible

theorem exists_ok_of_bind {ε α β : Type} {x : Except ε α} {f : α → Except ε β} {b : β}
    (h : x >>= f = .ok b) : ∃ a, x = .ok a ∧ f a = .ok b := by
  cases x with
  | error e => cases h
  | ok a => exact ⟨a, rfl, h⟩

theorem exists_ok_of_isOk {ε α : Type} {x : Except ε α} (h : x.isOk) : ∃ a, x = .ok a := by
  cases x with
  | error e => cases h
  | ok a => exact ⟨a, rfl⟩

theorem eq_ok_of_toOption {ε α : Type} {x : Except ε α} {a : α} (h : x.toOption = some a) :
    x = .ok a := by
  cases x with
  | error e => cases h
  | ok a' =>
    cases h
    rfl

theorem of_check_ok {ε α β : Type} {p : Prop} [Decidable p] {e : ε} {g : α → Except ε β}
    {y : Except ε β} {b : β} (h : (if p then throw e >>= g else y) = .ok b) : y = .ok b := by
  split at h
  · cases h
  · exact h

end GraphReduction
