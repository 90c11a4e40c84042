import GraphReduction.Proofs.Machine.Evaluation
import GraphReduction.Proofs.Machine.Integrity

/-!
# Normalisation by recursion

A cell is evaluated completely by evaluating it to weak head normal form and then the fields of its
constructor, if it has one, from left to right. `normalizeFrom` does this without recursion: fields
wait on the stack, and constructors with fields still to come wait in a list, where a last field may
close any number of them.
-/

namespace GraphReduction

namespace Machine

/-- Evaluates cells from left to right with `one`, which gives what is left of the bound. -/
def inTurn (one : (fuel id : Nat) → Run (Value × Nat)) : (fuel : Nat) → List Nat →
    Run (List Value × Nat)
  | fuel, [] => return ([], fuel)
  | fuel, id :: ids => do
    let (v, fuel) ← one fuel id
    let (vs, fuel) ← inTurn one fuel ids
    return (v :: vs, fuel)

/-- **Evaluates the cell on top of the stack completely, by recursion**, and takes it off the stack. A
saturated constructor has the values of its fields, which are on the stack until it is their turn. A
bare scalar is its own value, and anything else is a function. Every cell uses up one of `fuel`, and
`depth` bounds the recursion. -/
def normalizeCell : (depth fuel id : Nat) → Run (Value × Nat)
  | depth + 1, fuel + 1, id => do
    let v ← whnf fuel id
    truncate ((← get).stack.size - 1)
    let h := (← get).heap
    let (head, args) := spineOf h v
    match h.get head with
    | .comb (.con tag arity) =>
      if args.length = arity.toNat then do
        pushAll args
        let (values, fuel) ← inTurn (normalizeCell depth) fuel args
        return (.con tag values, fuel)
      else return (.function (describeIn h v), fuel)
    | .scalar s => return (if args = [] then scalarValue s else .function (describeIn h v), fuel)
    | _ => return (.function (describeIn h v), fuel)
  | _, _, _ => throw .outOfFuel

/-- How the loop goes on with a value. -/
def closing (base : Nat) (pending : List OpenValue) : Value × Nat → Run Value
  | (v, fuel) =>
    match closeValue v pending with
    | .inl v => return v
    | .inr pending => normalizeFrom base fuel pending

section Recursion

variable {base depth fuel id : Nat} {s : Array Nat} {m : Machine} {pending : List OpenValue}

theorem fields_ne_nil {h : Heap} {v : Nat} {tag : UInt32} {fields : List Nat}
    (hv : valueForm h v = .inr (tag, fields)) : fields ≠ [] := by
  unfold valueForm at hv
  split at hv
  rename_i args _
  split at hv
  · cases args with
    | nil => split at hv <;> cases hv
    | cons a args => split at hv <;> cases hv; simp
  · split at hv <;> cases hv
  · cases hv

/-- A turn of the recursion, with the form of the value found as in the loop. -/
theorem normalizeCell_succ : normalizeCell (depth + 1) (fuel + 1) id = (do
    let v ← whnf fuel id
    truncate ((← get).stack.size - 1)
    match valueForm (← get).heap v with
    | .inr (tag, fields) => do
      pushAll fields
      let (values, fuel) ← inTurn (normalizeCell depth) fuel fields
      return (.con tag values, fuel)
    | .inl value => return (value, fuel)) := by
  rw [normalizeCell]
  refine bind_congr fun v => bind_congr fun _ => bind_congr fun _ => bind_congr fun m => ?_
  unfold valueForm
  dsimp only
  generalize spineOf m.heap v = spine
  obtain ⟨head, args⟩ := spine
  dsimp only
  cases m.heap.get head with
  | comb c =>
    cases c with
    | con tag arity =>
      simp only [ne_eq]
      by_cases hlen : args.length = arity.toNat
      · cases args with
        | nil => simp [hlen.symm, pushAll, inTurn]
        | cons a args => simp [hlen]
      · simp [hlen]
    | _ => rfl
  | scalar s => cases args <;> rfl
  | _ => rfl

/-- **A cell that is evaluated is taken off the stack**, and some of the bound is used up. -/
theorem normalizeCell_stack (depth : Nat) : ∀ {fuel : Nat} {s : Array Nat} {m : Machine},
    m.stack = s.push id → Meets (normalizeCell depth fuel id) m
      (fun r m' => r.2 < fuel ∧ m'.stack = s) fun _ _ => True := by
  induction depth generalizing id with
  | zero => exact fun _ => trivial
  | succ depth ih =>
    intro fuel s m hs
    -- those of a list are taken off one by one
    have hfields : ∀ (ids : List Nat) (fuel : Nat) (m : Machine), m.stack = s ++ ids.reverse.toArray →
        Meets (inTurn (normalizeCell depth) fuel ids) m (fun r m' => r.2 ≤ fuel ∧ m'.stack = s)
          fun _ _ => True := by
      intro ids
      induction ids with
      | nil => exact fun fuel m hm => ⟨Nat.le_refl _, by simpa using hm⟩
      | cons x ids ihs =>
        intro fuel m hm
        simp only [inTurn, meets_bind, meets_pure]
        refine (ih (s := s ++ ids.reverse.toArray) (by simp [hm])).imp fun r m1 h1 => ?_
        exact (ihs r.2 m1 h1.2).imp fun r' _ h2 => ⟨by have := h1.1; omega, h2.2⟩
    cases fuel with
    | zero => trivial
    | succ fuel =>
      rw [normalizeCell_succ]
      simp only [meets_bind, meets_get, meets_truncate]
      refine (quiet_whnf fuel id m).mono (fun v m1 h1 => ?_) fun _ _ _ => trivial
      have hcut : m1.stack.shrink (m1.stack.size - 1) = s := by
        rw [h1.stack, hs]
        simp
      split
      · simp only [meets_bind, meets_pure]
        refine (meets_pushAll _).mono (fun _ m2 h2 => ?_) fun _ _ _ => trivial
        subst h2
        exact (hfields _ fuel _ (by simp only [hcut])).imp
          fun r _ h3 => ⟨Nat.lt_succ_of_le h3.1, h3.2⟩
      · exact ⟨Nat.lt_succ_self fuel, hcut⟩

/-- **The loop evaluates missing fields as the recursion does** if it does so for each of them. -/
theorem normalizeFrom_eq_fields {tag : UInt32} {ids : List Nat} {done : List Value} (hne : ids ≠ [])
    (hcell : ∀ {fuel id : Nat} {s : Array Nat} {m : Machine} {pending : List OpenValue},
      m.stack = s.push id → base ≤ s.size → fuel ≤ depth →
      normalizeFrom base fuel pending m = (normalizeCell depth fuel id >>= closing base pending) m)
    (hs : m.stack = s ++ ids.reverse.toArray) (hbase : base ≤ s.size) (hfuel : fuel ≤ depth) :
    normalizeFrom base fuel (⟨tag, ids.length, done⟩ :: pending) m =
      (do
        let (values, fuel) ← inTurn (normalizeCell depth) fuel ids
        closing base pending (.con tag (done.reverse ++ values), fuel) : Run Value) m := by
  induction ids generalizing fuel m done with
  | nil => exact absurd rfl hne
  | cons x ids ih =>
    have hx : m.stack = (s ++ ids.reverse.toArray).push x := by simp [hs]
    rw [hcell hx (by simp; omega) hfuel, inTurn]
    simp only [bind_assoc, pure_bind]
    cases hrun : normalizeCell depth fuel x m with
    | error e m1 => rw [bind_error hrun, bind_error hrun]
    | ok r m1 =>
      obtain ⟨v, fuel1⟩ := r
      obtain ⟨hlt, hs1⟩ := (normalizeCell_stack depth hx).ok hrun
      simp only at hlt
      rw [bind_ok hrun, bind_ok hrun]
      cases ids with
      | nil => simp [closing, closeValue, inTurn]
      | cons y ids =>
        have hmissing : ¬ (x :: y :: ids).length ≤ 1 := by simp
        rw [closing, closeValue, if_neg hmissing]
        simp only
        refine (ih (by simp) hs1 (by omega)).trans ?_
        simp only [List.reverse_cons, List.append_assoc, List.singleton_append]

/-- **The loop goes on with the value that the recursion gives** for the cell on top of the stack. -/
theorem normalizeFrom_eq_cell (hs : m.stack = s.push id) (hbase : base ≤ s.size)
    (hfuel : fuel ≤ depth) :
    normalizeFrom base fuel pending m = (normalizeCell depth fuel id >>= closing base pending) m := by
  induction depth generalizing fuel id s m pending with
  | zero =>
    obtain rfl : fuel = 0 := by omega
    rfl
  | succ depth ih =>
    cases fuel with
    | zero => rfl
    | succ fuel =>
      have hsize : ¬ m.stack.size ≤ base := by rw [hs]; simp; omega
      have htop : m.stack.getD (m.stack.size - 1) 0 = id := by rw [hs]; simp [Array.getD]
      rw [normalizeFrom_succ, normalizeCell_succ]
      simp only [bind_assoc]
      rw [bind_ok (rfl : (get : Run Machine) m = .ok m m), if_neg hsize,
        bind_ok (rfl : top m = .ok (m.stack.size - 1) m), bind_entry, htop]
      cases hrun : whnf fuel id m with
      | error e m1 => rw [bind_error hrun, bind_error hrun]
      | ok v m1 =>
        have hstack := ((quiet_whnf fuel id m).ok hrun).stack
        have hcut : truncate (m1.stack.size - 1) m1 = .ok () { m1 with stack := s } := by
          show EStateM.Result.ok () { m1 with stack := m1.stack.shrink (m1.stack.size - 1) } = _
          rw [hstack, hs]
          simp
        rw [bind_ok hrun, bind_ok hrun, bind_ok (rfl : (get : Run Machine) m1 = .ok m1 m1), ← hstack,
          bind_ok hcut, bind_ok hcut]
        generalize hm2 : { m1 with stack := s } = m2
        rw [bind_ok (rfl : (get : Run Machine) m2 = .ok m2 m2),
          bind_ok (rfl : (get : Run Machine) m2 = .ok m2 m2)]
        cases hform : valueForm m2.heap v with
        | inl value => rfl
        | inr form =>
          obtain ⟨tag, fields⟩ := form
          simp only [addValue, bind_assoc, pure_bind]
          cases hpush : pushAll fields m2 with
          | error e m3 => rw [bind_error hpush, bind_error hpush]
          | ok _ m3 =>
            have hs3 : m3.stack = s ++ fields.reverse.toArray := by
              rw [(meets_pushAll fields).ok hpush, ← hm2]
            rw [bind_ok hpush, bind_ok hpush]
            exact normalizeFrom_eq_fields (fields_ne_nil hform) ih hs3 hbase (by omega)

/-- **Normalisation is the recursion**, for every cell of every machine: it comes to the same value or
the same error, and leaves the same machine. -/
theorem normalize_eq_recursive (fuel id : Nat) :
    normalize fuel id = nested id fun _ => Prod.fst <$> normalizeCell fuel fuel id := by
  funext m
  unfold normalize nested
  dsimp only
  have hbody : (do enter; push id; normalizeFrom m.stack.size fuel [] : Run Value) m =
      (do enter; push id; Prod.fst <$> normalizeCell fuel fuel id : Run Value) m := by
    rw [← bind_assoc, ← bind_assoc]
    cases hopen : (do enter; push id : Run Unit) m with
    | error e m1 => rw [bind_error hopen, bind_error hopen]
    | ok _ m1 =>
      rw [bind_ok hopen, bind_ok hopen,
        normalizeFrom_eq_cell (by rw [enter_push_eq hopen]) (Nat.le_refl _) (Nat.le_refl _)]
      rfl
  rw [hbody]

end Recursion

end Machine

end GraphReduction
