import GraphReduction.Proofs.Calculus.Reduction
import GraphReduction.Proofs.Machine.Reading

/-!
# The meaning of a graph

An applicative structure with constants for the leaves gives every cell an equation, and an
assignment of elements to cells is a model of the heap if it satisfies all of them. Cyclic graphs
have models too: the equations need not have a least solution, or only one.
-/

namespace GraphReduction

open List

universe u

/-- An applicative structure with a constant for every leaf of a graph. -/
structure Interpretation (D : Type u) where
  app : D → D → D
  comb : Combinator → D
  prim : Primitive → D
  scalar : Scalar → D

namespace Interpretation

variable {D : Type u} (M : Interpretation D)

/-- The application of an element to several others, one after the other. -/
def apply (f : D) (xs : List D) : D := xs.foldl M.app f

/-- The equations of the combinators. -/
structure Lawful : Prop where
  S : ∀ f g x, M.apply (M.comb .S) [f, g, x] = M.app (M.app f x) (M.app g x)
  K : ∀ x y, M.apply (M.comb .K) [x, y] = x
  I : ∀ x, M.apply (M.comb .I) [x] = x
  B : ∀ f g x, M.apply (M.comb .B) [f, g, x] = M.app f (M.app g x)
  C : ∀ f x y, M.apply (M.comb .C) [f, x, y] = M.app (M.app f y) x
  A : ∀ x y, M.apply (M.comb .A) [x, y] = y
  S' : ∀ c f g x, M.apply (M.comb .S') [c, f, g, x] = M.app (M.app c (M.app f x)) (M.app g x)
  B' : ∀ c f g x, M.apply (M.comb .B') [c, f, g, x] = M.app c (M.app f (M.app g x))
  C' : ∀ c f g x, M.apply (M.comb .C') [c, f, g, x] = M.app (M.app c (M.app f x)) g
  Y : ∀ f, M.app (M.comb .Y) f = M.app f (M.app (M.comb .Y) f)
  /-- `Case` applied to a saturated constructor is the alternative of its tag applied to its
  fields. -/
  case : ∀ (n tag arity : UInt32) (fields alts : List D) (ht : tag.toNat < alts.length),
    fields.length = arity.toNat → alts.length = n.toNat →
      M.apply (M.comb (.caseOf n)) (M.apply (M.comb (.con tag arity)) fields :: alts) =
        M.apply (alts.get ⟨tag.toNat, ht⟩) fields

/-- The equation of cell `x` with the given contents. -/
def Holds (σ : Nat → D) (x : Nat) : Cell → Prop
  | .app f a => σ x = M.app (σ f) (σ a)
  | .ind t => σ x = σ t
  | .comb c => σ x = M.comb c
  | .prim p => σ x = M.prim p
  | .scalar s => σ x = M.scalar s
  | .free _ => True

/-- The reading of cells as elements that satisfy their equations. -/
def reading : Reading D where
  app := M.app
  leaf
    | .comb c, d => d = M.comb c
    | .prim p, d => d = M.prim p
    | .scalar s, d => d = M.scalar s
    | _, _ => True
  le := Eq
  refl _ := rfl
  trans := Eq.trans
  mono hf ha := hf ▸ ha ▸ rfl

variable {M} {σ : Nat → D} {args : List Nat} {c : Combinator}

theorem shows_iff_holds {x : Nat} {c : Cell} : M.reading.Shows σ (σ x) c ↔ M.Holds σ x c := by
  cases c <;> rfl

/-- **The right hand side of a rule means the same as its redex.** -/
theorem shape_contractum (hM : M.Lawful) {s : Shape} (hs : c.contractum = some s)
    (hn : c.arity = some args.length) :
    M.reading.shape (fun i => σ (args.getD i 0)) (M.apply (M.comb c) (args.map σ)) s =
      M.apply (M.comb c) (args.map σ) := by
  have hlen : args.length = c.arity.getD 0 := by rw [hn]; rfl
  cases c with
  | I | Y =>
    cases hs
    obtain ⟨x, rfl⟩ := length_eq_one_iff.1 hlen
    first | exact (hM.I _).symm | exact (hM.Y _).symm
  | K | A =>
    cases hs
    obtain ⟨x, y, rfl⟩ := length_eq_two.1 hlen
    first | exact (hM.K _ _).symm | exact (hM.A _ _).symm
  | S | B | C =>
    cases hs
    obtain ⟨f, g, x, rfl⟩ := length_eq_three.1 hlen
    first | exact (hM.S _ _ _).symm | exact (hM.B _ _ _).symm | exact (hM.C _ _ _).symm
  | S' | B' | C' =>
    cases hs
    obtain ⟨c, f, g, x, rfl⟩ := length_eq_four.1 hlen
    first | exact (hM.S' _ _ _ _).symm | exact (hM.B' _ _ _ _).symm | exact (hM.C' _ _ _ _).symm
  | caseOf _ | con _ _ | ioBind | ioThen | ioReturn => cases hs

end Interpretation

namespace Machine

variable {D : Type u} {M : Interpretation D} {σ : Nat → D} {m : Machine} {top : Nat}
  {args : List Nat} {c : Combinator}

/-- The spine of an entry of the stack, below a head that is a leaf. -/
theorem OnStack.unwinds {G : Nat → Prop} {k : Nat} (hs : m.OnStack top args) (hm : m.Sound G)
    (hhead : m.heap.get (m.stack.getD top 0) = .comb c) (hk : k ≤ args.length) :
    Unwinds m.heap.get (m.stack.getD (top - k) 0) (args.take k) (m.stack.getD top 0) := by
  induction k with
  | zero => exact .head (.here (by rw [Nat.sub_zero, hhead]; rfl)) (by rw [hhead]; exact nofun)
  | succ k ih =>
    have hlt := hs.top_lt
    obtain ⟨f, hcell, hf⟩ := hs.link k _ (getElem?_eq_getElem hk)
    have hst := hm.closed.stands_resolve (hm.closed.app (hm.entry (by omega)) hcell).1
    rw [hf] at hst
    rw [take_add_one, getElem?_eq_getElem hk]
    exact .app (.here (by rw [hcell]; rfl)) hcell
      ((ih (by omega)).of_sameEnd ⟨_, .here hst.isInd_eq_false, hst⟩)

/-- The cells in use refer to each other only, with finite chains of indirections, the stack and
the definitions are among them, and the free list is intact. -/
def WellFormed (m : Machine) : Prop := m.Sound fun x => (m.heap.get x).isFree = false

/-- **Firing a combinator changes the meaning of no cell.** An assignment that satisfies the
equations of all cells before the step satisfies them after the step too, once elements are
assigned to the new cells. These may have the numbers of cells that a collection within the step
gave back. -/
theorem exists_model_of_fire (hM : M.Lawful) (hm : m.WellFormed)
    (hhead : m.heap.get (m.stack.getD top 0) = .comb c) (hn : c.arity = some args.length)
    (hs : m.OnStack top args) (hfire : fire c top m = .ok .yes m₁)
    (hσ : ∀ x, M.Holds σ x (m.heap.get x)) :
    ∃ σ', (∀ x, (m.heap.get x).isFree = false →
        m₁.heap.stats.collections = m.heap.stats.collections ∨ m.heap.Kept m.roots x →
          σ' x = σ x) ∧
      ∀ x, M.Holds σ' x (m₁.heap.get x) := by
  have hread : ReadAs M.reading m (fun x => (m.heap.get x).isFree = false) σ :=
    ⟨hm, fun x _ => Interpretation.shows_iff_holds.2 (hσ x)⟩
  suffices h : ∃ G' σ', ReadAs M.reading m₁ G' σ' ∧
      Continues m (fun x => (m.heap.get x).isFree = false) σ m₁ G' σ' by
    obtain ⟨G', σ', h', hcont⟩ := h
    refine ⟨σ', hcont.agree, fun x => ?_⟩
    cases hx : (m₁.heap.get x).isFree with
    | false =>
      exact Interpretation.shows_iff_holds.1 (h'.shows x (hcont.covers (fun _ h => h) x hx))
    | true =>
      cases hcell : m₁.heap.get x with
      | free n => trivial
      | _ => rw [hcell] at hx; cases hx
  have htop := hs.top_lt
  have hGr := hm.entry (i := top - args.length) (by omega)
  have hspine := hs.unwinds hm hhead (Nat.le_refl _)
  rw [take_length] at hspine
  obtain ⟨-, hargs, hredex⟩ := hread.unwinds hGr hspine
  have hcomb : ∀ {y c}, m.heap.get y = .comb c → σ y = M.comb c := by
    intro y c hy
    have := hσ y
    rwa [hy] at this
  rw [hcomb hhead] at hredex
  cases hc : c.contractum with
  | some s =>
    rw [fire_eq_contract hc hn hs.hasArgs] at hfire
    have hmean := (Interpretation.shape_contractum (σ := σ) hM hc hn).symm
    obtain ⟨-, G', σ', h', hg⟩ := (hread.contract hargs hGr (Combinator.contractum_fits hc hn)
      (by rw [hredex]; exact hmean)).ok hfire
    exact ⟨G', σ', h', hg.continues⟩
  | none =>
    cases c with
    | caseOf n =>
      have hlen : args.length = n.toNat + 1 := (Option.some.inj hn).symm
      obtain ⟨scrut, alts, rfl⟩ := exists_cons_of_length_eq_add_one hlen
      have halts : alts.length = n.toNat := by simpa using hlen
      have hfired := (hread.fireCase hs.hasArgs htop halts ?_).ok hfire
      · rcases hfired with ⟨h, -⟩ | ⟨-, h⟩
        · cases h
        · exact h
      intro tag arity fields y alt hu hcon hfields halt
      obtain ⟨-, -, hscrut⟩ := hread.unwinds (hargs scrut mem_cons_self) hu
      obtain ⟨hin, rfl⟩ := List.getElem?_eq_some_iff.1 halt
      have hlaw := hM.case n tag arity (fields.map σ) (alts.map σ) (by simpa using hin)
        (by simpa using hfields) (by simpa using halts)
      rw [← halts]
      refine hredex.trans ?_
      rw [map_cons, hscrut, hcomb hcon]
      refine hlaw.trans ?_
      simp only [get_eq_getElem, getElem_map]
      rfl
    | con _ _ | ioBind | ioThen | ioReturn => cases hn
    | _ => cases hc

end Machine

namespace Interpretation

/-- **Trees up to conversion**, with a tree of its own for every scalar. -/
def trees : Interpretation (Quot (Tree.Same fun _ => none)) where
  app := Quot.map₂ .app (fun f _ _ h => .arg f h) fun _ _ a h => .fn h a
  comb c := Quot.mk _ (.comb c)
  prim p := Quot.mk _ (.atom (.prim p))
  scalar
    | .int n => Quot.mk _ (.atom (.lit (.int n)))
    | .char c => Quot.mk _ (.atom (.lit (.char c)))
    | .double x => Quot.mk _ (.atom (.lit (.double x)))
    | .ptr p => Quot.mk _ (.app (.atom (.global "pointer")) (.atom (.lit (.int p.toInt64))))
    | .text whole unread => Quot.mk _ (.app (.atom (.lit (.str whole))) (.atom (.lit (.str (.ofList unread)))))

theorem apply_trees (t : Tree) (ts : List Tree) :
    trees.apply (Quot.mk _ t) (ts.map (Quot.mk _)) = Quot.mk _ (t.apps ts) := by
  induction ts generalizing t with
  | nil => rfl
  | cons u ts ih => exact ih (.app t u)

theorem lawful_trees : trees.Lawful where
  S := by rintro ⟨f⟩ ⟨g⟩ ⟨x⟩; exact Quot.sound (.rule (.contract .S [f, g, x] rfl rfl))
  K := by rintro ⟨x⟩ ⟨y⟩; exact Quot.sound (.rule (.contract .K [x, y] rfl rfl))
  I := by rintro ⟨x⟩; exact Quot.sound (.rule (.contract .I [x] rfl rfl))
  B := by rintro ⟨f⟩ ⟨g⟩ ⟨x⟩; exact Quot.sound (.rule (.contract .B [f, g, x] rfl rfl))
  C := by rintro ⟨f⟩ ⟨x⟩ ⟨y⟩; exact Quot.sound (.rule (.contract .C [f, x, y] rfl rfl))
  A := by rintro ⟨x⟩ ⟨y⟩; exact Quot.sound (.rule (.contract .A [x, y] rfl rfl))
  S' := by rintro ⟨c⟩ ⟨f⟩ ⟨g⟩ ⟨x⟩; exact Quot.sound (.rule (.contract .S' [c, f, g, x] rfl rfl))
  B' := by rintro ⟨c⟩ ⟨f⟩ ⟨g⟩ ⟨x⟩; exact Quot.sound (.rule (.contract .B' [c, f, g, x] rfl rfl))
  C' := by rintro ⟨c⟩ ⟨f⟩ ⟨g⟩ ⟨x⟩; exact Quot.sound (.rule (.contract .C' [c, f, g, x] rfl rfl))
  Y := by rintro ⟨f⟩; exact Quot.sound (.rule (.contract .Y [f] rfl rfl))
  case n tag arity fields alts ht hfields halts := by
    obtain ⟨fields, rfl⟩ := Quot.mk_surjective.list_map fields
    obtain ⟨alts, rfl⟩ := Quot.mk_surjective.list_map alts
    rw [length_map] at ht hfields halts
    rw [get_eq_getElem, getElem_map, show trees.comb (.con tag arity) = Quot.mk _ (.comb _) from rfl,
      apply_trees, apply_trees, ← map_cons]
    refine (apply_trees _ _).trans (Quot.sound (.rule ?_))
    refine .case hfields halts rfl rfl (fun i a a' ha ha' => ?_) (fun i a a' ha ha' => ?_)
      (getElem?_eq_getElem ht)
    all_goals
      rw [ha] at ha'
      cases ha'
      exact .refl a

/-- Conversion tells numbers apart. -/
theorem int_trees_inj {n k : Int64} (h : trees.scalar (.int n) = trees.scalar (.int k)) : n = k := by
  have hyields := congrArg (Quot.lift (Tree.Yields _ · (.int n)) fun _ _ h => propext (h.yields _)) h
  have hn : Tree.Yields (fun _ => none) (.atom (.lit (.int n))) (.int n) :=
    .int (.whnf 0 ⟨.lit (.int n), [], rfl, rfl⟩)
  cases hyields.mp hn with
  | int he => cases he.of_lit; rfl

end Interpretation

namespace Machine

/-- The spine of `S K K 5` on the stack, with the redex in cell 5. -/
def sharedFive : Machine :=
  { new {} default with
    heap := ⟨#[.comb .S, .comb .K, .int 5, .app 0 1, .app 3 1, .app 4 2], 10, none, 0, {}⟩
    stack := #[5, 4, 3, 0] }

/-- What its cells mean. -/
def sharedFiveMeaning (x : Nat) : Quot (Tree.Same fun _ => none) :=
  let M := Interpretation.trees
  let sk := M.app (M.comb .S) (M.comb .K)
  [M.comb .S, M.comb .K, M.scalar (.int 5), sk, M.app sk (M.comb .K),
    M.app (M.app sk (M.comb .K)) (M.scalar (.int 5))].getD x (M.comb .I)

/-- The rule for `S` makes two new cells, and trees up to conversion can be assigned to these too. -/
theorem exists_model_of_fire_sharedFive :
    ∃ m', fire .S 3 sharedFive = .ok .yes m' ∧ m'.heap.get 6 = .app 1 2 ∧ m'.heap.get 7 = .app 1 2 ∧
      Interpretation.trees.scalar (.int 5) ≠ Interpretation.trees.scalar (.int 6) ∧
      ∃ σ' : Nat → Quot (Tree.Same fun _ => none), (∀ x, (sharedFive.heap.get x).isFree = false →
        m'.heap.stats.collections = sharedFive.heap.stats.collections ∨
          sharedFive.heap.Kept sharedFive.roots x → σ' x = sharedFiveMeaning x) ∧
        ∀ x, Interpretation.trees.Holds σ' x (m'.heap.get x) := by
  have hcells : ∀ x, (sharedFive.heap.get x).isFree = false → x < 6 := fun x hx =>
    Heap.lt_size_of_not_free hx
  have hwf : sharedFive.WellFormed := by
    refine ⟨⟨fun _ hx => hx, ?_, ?_⟩, ⟨[], .nil, List.nodup_nil, ?_, rfl, by decide⟩, by decide⟩
    · intro x hx
      have := hcells x hx
      interval_cases x <;> decide
    · intro x hx
      have := hcells x hx
      interval_cases x <;> exact ⟨_, .here rfl⟩
    · intro x hx; cases hx
  have hspine : sharedFive.OnStack 3 [1, 1, 2] := by
    refine ⟨by decide, by decide, ?_⟩
    rintro (_ | _ | _ | i) a hi
    · cases hi; exact ⟨0, rfl, rfl⟩
    · cases hi; exact ⟨3, rfl, rfl⟩
    · cases hi; exact ⟨4, rfl, rfl⟩
    · simp at hi
  obtain ⟨m', hfire, h6, h7⟩ : ∃ m', fire .S 3 sharedFive = .ok .yes m' ∧ m'.heap.get 6 = .app 1 2 ∧
      m'.heap.get 7 = .app 1 2 := ⟨_, rfl, rfl, rfl⟩
  refine ⟨m', hfire, h6, h7, fun h => absurd (Interpretation.int_trees_inj h) (by decide),
    exists_model_of_fire Interpretation.lawful_trees hwf rfl rfl hspine hfire ?_⟩
  intro x
  cases hx : (sharedFive.heap.get x).isFree with
  | false =>
    have := hcells x hx
    interval_cases x <;> rfl
  | true =>
    cases hc : sharedFive.heap.get x with
    | free n => trivial
    | _ => rw [hc] at hx; cases hx

end Machine

end GraphReduction
