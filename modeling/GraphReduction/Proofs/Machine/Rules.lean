import GraphReduction.Proofs.Machine.Spines

/-!
# Rules and the spines on the stack

A rule overwrites its redex and adds new cells, and nothing else. As no other spine has the redex
on it, a step of an unwinding leaves the spines on the stack as they should be.
-/

namespace GraphReduction

namespace Machine

/-!
## What a rule overwrites
-/

/-- A computation that overwrites no cell in use but `R`. -/
def Touching {α : Type} (R : Nat) (x : Run α) : Prop :=
  ∀ m, Meets x m (fun _ m' => Touches R m.heap.get m'.heap.get) fun _ _ => True

namespace Touching

variable {α β : Type} {R : Nat} {x y : Run α}

theorem bind {g : α → Run β} (hx : Touching R x) (hg : ∀ a, Touching R (g a)) :
    Touching R (x >>= g) := by
  intro m
  refine (hx m).bind fun a m1 h1 => ?_
  exact (hg a m1).imp fun _ _ h2 => h1.trans h2

theorem of_reads (h : Reads x) : Touching R x :=
  fun m => (h m).mono (fun _ _ e => e ▸ .refl R _) fun _ _ _ => trivial

theorem pure (a : α) : Touching R (Pure.pure a : Run α) := of_reads (.pure a)

theorem fail (e : RuntimeError) : Touching R (Machine.fail e : Run α) := fun _ => trivial

theorem countTick (label : Int64) : Touching R (Machine.countTick label) := fun _ => .refl R _

theorem set {h : Heap} (c : Cell) : Touches R h.get (h.set R c).get := by
  intro x hx _
  simp only [Heap.get, Heap.set, Array.getD_eq_getD_getElem?]
  rw [Array.getElem?_setIfInBounds_ne (Ne.symm hx)]

theorem alloc (c : Cell) : Touching R (Machine.alloc c) := by
  intro m
  unfold Meets Machine.alloc Heap.alloc
  cases hfree : m.heap.free with
  | some id =>
    cases hid : m.heap.get id with
    | free next =>
      simp only [hid]
      intro x _ hx
      have hne : x ≠ id := by rintro rfl; rw [hid] at hx; cases hx
      simp only [Heap.get, Heap.notePeak, Heap.set, Array.getD_eq_getD_getElem?]
      rw [Array.getElem?_setIfInBounds_ne (Ne.symm hne)]
    | _ => simp only [hid]
  | none =>
    by_cases hlt : m.heap.cells.size < m.heap.capacity
    · simp only [if_pos hlt]
      intro x _ hx
      have hx := Heap.lt_size_of_not_free hx
      simp only [Heap.get, Heap.notePeak, Array.getD_eq_getD_getElem?]
      rw [Array.getElem?_push_lt hx, Array.getElem?_eq_getElem hx]
    · simp only [if_neg hlt]

theorem app (f a : Nat) : Touching R (Machine.app f a) := alloc _

theorem stringCell (s : String) : Touching R (Machine.stringCell s) :=
  (alloc _).bind fun _ => (alloc _).bind fun _ => pure _

theorem build (args : List Nat) (redex : Nat) (s : Shape) :
    Touching R (Machine.build args redex s) := by
  induction s with
  | arg _ | redex => exact pure _
  | app f a hf ha => exact hf.bind fun _ => ha.bind fun _ => app _ _

end Touching

/-- A rule that fires and overwrites no cell in use but `R`. -/
def Overwrites (R : Nat) (x : Run Fired) : Prop :=
  ∀ m, Meets x m (fun r m' => r = .yes ∧ Touches R m.heap.get m'.heap.get) fun _ _ => True

namespace Overwrites

variable {α : Type} {R : Nat} {x y : Run Fired}

theorem bind {z : Run α} {g : α → Run Fired} (hz : Touching R z) (hg : ∀ a, Overwrites R (g a)) :
    Overwrites R (z >>= g) := by
  intro m
  refine (hz m).bind fun a m1 h1 => ?_
  exact (hg a m1).imp fun _ _ h2 => ⟨h2.1, h1.trans h2.2⟩

theorem read {z : Run α} {g : α → Run Fired} (hz : Reads z) (hg : ∀ a, Overwrites R (g a)) :
    Overwrites R (z >>= g) := bind (.of_reads hz) hg

theorem ite {c : Prop} [Decidable c] (hx : Overwrites R x) (hy : Overwrites R y) :
    Overwrites R (if c then x else y) := by
  split
  · exact hx
  · exact hy

theorem fail (e : RuntimeError) : Overwrites R (Machine.fail e) := fun _ => trivial

theorem malformed (g : GraphFault) : Overwrites R (Machine.malformed g) := fun _ => trivial

theorem mismatch (p : Primitive) (expected : String) (id : Nat) :
    Overwrites R (Machine.mismatch p expected id) := fun _ => trivial

theorem overwrite (c : Cell) : Overwrites R (Machine.overwrite R c) := fun _ => ⟨rfl, Touching.set c⟩

theorem forward (t : Nat) : Overwrites R (Machine.forward R t) := by
  intro m
  simp only [Machine.forward, updateInd, meets_bind, meets_resolve, meets_ite, meets_malformed,
    meets_setCell, meets_pure]
  split
  · trivial
  · exact ⟨trivial, Touching.set _⟩

theorem intRule (p : Primitive) (top : Nat) (f : Int64 → Int64 → Cell) :
    Overwrites R (Machine.intRule p R top f) :=
  read (.intArg _ _ _) fun _ => read (.intArg _ _ _) fun _ => overwrite _

theorem divisionRule (p : Primitive) (top : Nat) (f : Int64 → Int64 → Int64) :
    Overwrites R (Machine.divisionRule p R top f) :=
  read (.intArg _ _ _) fun _ => read (.intArg _ _ _) fun _ =>
    ite (bind (.fail _) fun _ => overwrite _) (overwrite _)

theorem doubleRule (p : Primitive) (top : Nat) (f : Double → Double → Cell) :
    Overwrites R (Machine.doubleRule p R top f) :=
  read (.doubleArg _ _ _) fun _ => read (.doubleArg _ _ _) fun _ => overwrite _

theorem contract (args : List Nat) (s : Shape) : Overwrites R (Machine.contract args R s) := by
  cases s with
  | arg _ | redex => exact bind (.build _ _ _) fun _ => forward _
  | app f a => exact bind (.build _ _ _) fun _ => bind (.build _ _ _) fun _ => overwrite _

end Overwrites

section Rules

variable {m : Machine} {top : Nat} {p : Primitive} {ev : Evaluators} {c : Cell}

theorem overwrites_fireUnpack : Meets (fireUnpack top) m (fun r m' => r = .yes ∧
    Touches (m.stack.getD (top - 1) 0) m.heap.get m'.heap.get) fun _ _ => True := by
  simp only [fireUnpack]
  rw [meets_bind]
  refine (Reads.arg top 1 m).mono (fun a m1 h => ?_) fun _ _ _ => trivial
  subst h
  rw [meets_bind, meets_resolve, meets_entry_bind]
  refine (Overwrites.read (.cell _) fun c => ?_ : Overwrites _ _) m1
  split
  · exact .overwrite _
  · exact .bind (.alloc _) fun _ => .bind (.alloc _) fun _ => .read (.entry _) fun _ =>
      .bind (.app _ _) fun _ => .bind (.alloc _) fun _ => .bind (.app _ _) fun _ => .overwrite _
  · exact .mismatch _ _ _

/-- **A primitive overwrites nothing but its redex**, and the one that ends every evaluation does not
get so far. -/
theorem overwrites_firePrimitive (hp : p ≠ .perform) : Meets (firePrimitive ev p top) m
    (fun r m' => r = .yes ∧ p ≠ .error ∧
      Touches (m.stack.getD (top - p.arity) 0) m.heap.get m'.heap.get) fun _ _ => True := by
  cases p with
  | perform => exact absurd rfl hp
  | error =>
    simp only [firePrimitive, meets_bind, meets_entry]
    refine (Reads.arg top 1 m).mono (fun a m1 _ => ?_) fun _ _ _ => trivial
    unfold Meets
    cases ev.normalize a m1 <;> trivial
  | unpack =>
    simp only [firePrimitive, meets_bind, meets_entry]
    exact overwrites_fireUnpack.imp fun _ _ h => ⟨h.1, by simp, h.2⟩
  | _ =>
    simp only [firePrimitive]
    rw [meets_entry_bind]
    refine Meets.mono ((?_ : Overwrites _ _) m) (fun _ _ h => ⟨h.1, by simp, h.2⟩) fun _ _ h => h
    repeat' with_reducible first
      | apply Overwrites.intRule | apply Overwrites.divisionRule | apply Overwrites.doubleRule
      | apply Overwrites.overwrite | apply Overwrites.forward | apply Overwrites.fail
      | apply Overwrites.malformed | refine Overwrites.read (.intArg _ _ _) fun _ => ?_
      | refine Overwrites.read (.charArg _ _ _) fun _ => ?_ | refine Overwrites.read (.doubleArg _ _ _) fun _ => ?_
      | refine Overwrites.read (.ptrArg _ _ _) fun _ => ?_ | refine Overwrites.read (.arg _ _) fun _ => ?_
      | apply Touching.stringCell | apply Touching.countTick
      | refine Overwrites.bind ?_ fun _ => ?_ | refine Touching.bind ?_ fun _ => ?_ | split

theorem overwrites_selectAlternative {tag : Nat} : Meets (selectAlternative n top tag) m
    (fun r m' => r = .yes ∧ Touches (m.stack.getD (top - (n + 1)) 0) m.heap.get m'.heap.get)
    fun _ _ => True := by
  rw [selectAlternative_eq_bind, meets_bind]
  refine (Reads.arg top 1 m).mono (fun a m1 h => ?_) fun _ _ _ => trivial
  subst h
  rw [meets_bind, meets_spine, meets_entry_bind]
  exact (Overwrites.read (.arg _ _) fun alt => .contract _ _ : Overwrites _ _) m1

theorem not_busy_of_isWhnfIn {x : Nat} (h : m.isWhnfIn x = true) : ¬ Busy m.heap.get x := by
  rintro ⟨args, y, hu, hr⟩
  rw [hu.isWhnfIn_eq, hr] at h
  simp at h

/-- The first argument not in weak head normal form, if there is one. -/
theorem firstUnevaluated_spec (i n : Nat) : Meets (firstUnevaluated top i n) m
    (fun r m' => m' = m ∧ match r with
      | none => ∀ k f a, k < n → m.heap.get (m.stack.getD (top - (i + k)) 0) = .app f a →
          m.isWhnfIn a = true
      | some a => m.isWhnfIn a = false ∧
          ∃ k f, k < n ∧ m.heap.get (m.stack.getD (top - (i + k)) 0) = .app f a)
    fun _ _ => True := by
  induction n generalizing i with
  | zero => exact ⟨rfl, fun k f a hk => by omega⟩
  | succ n ih =>
    simp only [firstUnevaluated, arg, meets_bind, meets_entry, meets_cell]
    split
    · rename_i f a hc
      simp only [meets_pure, meets_isWhnf, meets_ite]
      split
      · rename_i hw
        refine (ih (i + 1)).imp fun r m' hr => ⟨hr.1, ?_⟩
        obtain ⟨-, hr⟩ := hr
        cases r with
        | none =>
          intro k f' a' hk hc'
          cases k with
          | zero => rw [Nat.add_zero, hc] at hc'; cases hc'; exact hw
          | succ k =>
            rw [show i + (k + 1) = i + 1 + k by omega] at hc'
            exact hr k f' a' (by omega) hc'
        | some a' =>
          obtain ⟨hw', k, f', hk, hc'⟩ := hr
          exact ⟨hw', k + 1, f', by omega, by rw [show i + (k + 1) = i + 1 + k by omega]; exact hc'⟩
      · rename_i hw
        exact ⟨trivial, by simpa using hw, 0, f, by omega, hc⟩
    · trivial

/-!
## Spines
-/

/-- The spine of `x` is one that a rule overwrites: what its head can wait for is evaluated, and its
head is not the primitive that ends every evaluation. -/
def Redex (v : View) (x : Nat) : Prop :=
  ∃ args y, Unwinds v x args y ∧ Ready v args (v y) ∧ v y ≠ .prim .error

/-- A rule of arity `n` that was started in `m` has overwritten its redex. A collection may have
been in between, which has left `m0`. -/
structure Overwritten (outer base n : Nat) (m m0 m' : Machine) : Prop where
  room : m0 = m ∨ ∃ k, reserve k m = .ok () m0
  clear : Clear outer base n m
  redex : Redex m.heap.get (m.stack.getD (m.stack.size - 1 - n) 0)
  carries : Carries m.heap.get m0.heap.get m.stack fun _ => True
  skips : Skips m m0
  spines : Spines outer base m0
  safe : m0.Safe []
  steady : Steady m m0
  settled : Settled m.stack.size m m0
  isInd : (m0.heap.get (m.stack.getD (m.stack.size - 1) 0)).isInd = false
  busy : Busy m0.heap.get (m.stack.getD (m.stack.size - 1 - n) 0)
  touches : Touches (m.stack.getD (m.stack.size - 1 - n) 0) m0.heap.get m'.heap.get

/-- How a rule of arity `n` leaves the spines: it waits for an argument, or it has overwritten its
redex. -/
def RuleKeeps (outer base n : Nat) (m : Machine) (r : Fired) (m' : Machine) : Prop :=
  match r with
  | .waitingFor a => m' = m ∧ Awaits m.heap.get m.stack base (m.stack.size - 1) a ∧
      m.isWhnfIn a = false
  | .yes => ∃ m0, Overwritten outer base n m m0 m'

/-- How a step leaves the spines. -/
def StepKeeps (outer base : Nat) (m : Machine) (r : Progress) (m' : Machine) : Prop :=
  Spines outer base m' ∧ Settled base m m' ∧ match r with
    | .again => True
    | .force a => Awaits m'.heap.get m'.stack base (m'.stack.size - 1) a ∧ m.isWhnfIn a = false
    | .done => ∃ args, Unwinds m'.heap.get (m'.stack.getD base 0) args
          (m'.stack.getD (m'.stack.size - 1) 0) ∧
        rests (m'.heap.get (m'.stack.getD (m'.stack.size - 1) 0)) args.length = true

variable {outer base n : Nat}

theorem Spines.redex (h : Spines outer base m)
    (htop : m.heap.get m.onTop = c) (hn : c.NotApp)
    (hi : c.isInd = false) (hle : n ≤ m.stack.size - 1 - base)
    (hready : ∀ args, args.length = n → m.HasArgs (m.stack.size - 1) args →
      Ready m.heap.get args c) (hne : c ≠ .prim .error) :
    Redex m.heap.get (m.stack.getD (m.stack.size - 1 - n) 0) := by
  subst htop
  have hlt := h.base_lt
  obtain ⟨args, hu, hlen, hargs⟩ :=
    h.current.unwinds hn hi (q := m.stack.size - 1 - n) (by omega) (by omega)
  exact ⟨args, _, hu, hready args (by omega) hargs, hne⟩

theorem Spines.redex_isInd (h : Spines outer base m)
    (hi : (m.heap.get m.onTop).isInd = false)
    (hle : n ≤ m.stack.size - 1 - base) :
    (m.heap.get (m.stack.getD (m.stack.size - 1 - n) 0)).isInd = false := by
  cases n with
  | zero => exact hi
  | succ n =>
    have hlt := h.base_lt
    obtain ⟨f, a, hc, -⟩ := h.current (m.stack.size - 1 - (n + 1)) (by omega) (by omega)
    rw [hc]; rfl

theorem Steady.symm {m' : Machine} (h : Steady m m') : Steady m' m :=
  ⟨⟨h.pinned.symm, h.globals.symm, h.stackLimit.symm, h.depthLimit.symm, h.gcStress.symm⟩,
    h.stack.symm, h.frames.symm, h.depth.symm⟩

theorem Clear.steady {m' : Machine} (h : Clear outer base n m) (hs : Steady m m') :
    Clear outer base n m' := by
  refine ⟨?_, ?_⟩
  · rw [hs.stack]; exact h.current
  · rw [hs.stack, hs.frames]; exact h.suspended

theorem Overwritten.ends {m0 m1 : Machine} (h : Overwritten outer base n m m0 m1)
    (hs : m1.Safe []) (hst : Steady m m1) (hle : n ≤ m.stack.size - 1 - base)
    (hlt : base < m.stack.size) :
    (m0.heap.get (m.stack.getD (m.stack.size - 1 - n) 0)).isInd = false ∧
      ∃ z, Stands m1.heap.get (m.stack.getD (m.stack.size - 1 - n) 0) z := by
  have hi0 := h.isInd
  obtain ⟨G, hG, -⟩ := hs
  rw [← hst.stack]
  refine ⟨?_, hG.closed.ends _ (hG.entry (by rw [hst.stack]; omega))⟩
  rw [hst.stack]
  rw [← h.steady.stack] at hi0 hle ⊢
  exact h.spines.redex_isInd hi0 hle

/-- What a step has done. -/
inductive Stepped (outer base : Nat) (m : Machine) : Progress → Machine → Prop
  | push {f a : Nat} : m.heap.get m.onTop = .app f a →
    Stepped outer base m .again { m with stack := m.stack.push f }
  | follow {t : Nat} : m.heap.get m.onTop = .ind t →
    Stepped outer base m .again { m with stack := m.stack.setIfInBounds (m.stack.size - 1) t }
  | waits {a : Nat} : Awaits m.heap.get m.stack base (m.stack.size - 1) a → m.isWhnfIn a = false →
    Stepped outer base m (.force a) m
  | fired {n : Nat} {m0 m1 : Machine} (stats : Stats) : Overwritten outer base n m m0 m1 →
    m1.Safe [] → Steady m m1 → n ≤ m.stack.size - 1 - base →
    Stepped outer base m .again { m1 with stats, stack := m1.stack.shrink (m.stack.size - 1 - n + 1) }
  | done : rests (m.heap.get m.onTop) (m.stack.size - 1 - base) = true →
    Stepped outer base m .done m

theorem stepped_afterRule {x : Run Fired} (hle : n ≤ m.stack.size - 1 - base)
    (hsafe : Meets x m (fun r m' => m'.Safe r.cells) SafeHalt) (hquiet : Quiet x)
    (hx : Meets x m (fun r m' => RuleKeeps outer base n m r m') fun _ _ => True) :
    Meets (do afterRule (m.stack.size - 1) n (← x)) m (fun r m' => Stepped outer base m r m')
      fun _ _ => True := by
  rw [meets_bind]
  refine ((hx.and hsafe).and (hquiet m)).mono (fun r m1 h1 => ?_) fun _ _ _ => trivial
  obtain ⟨⟨hr, hs1⟩, hsteady⟩ := h1
  cases r with
  | waitingFor a =>
    obtain ⟨rfl, ha, hw⟩ := hr
    exact .waits ha hw
  | yes =>
    obtain ⟨m0, h0⟩ := hr
    simp only [afterRule, meets_bind, meets_modify, meets_truncate, meets_pure]
    exact .fired _ h0 hs1 hsteady hle

theorem strictness_of_contractum {c : Combinator} {s : Shape} (hs : c.contractum = some s) :
    strictness (.comb c) = none := by
  cases c <;> first | rfl | cases hs

/-- A contraction keeps the spines below its redex. -/
theorem spines_contract {c : Combinator} {s : Shape} (h : Spines outer base m) (hm : m.Safe [])
    (htop : m.heap.get m.onTop = .comb c) (hs : c.contractum = some s)
    (hn : c.arity = some n) (hle : n ≤ m.stack.size - 1 - base) :
    Meets (fire c (m.stack.size - 1)) m (fun r m' => RuleKeeps outer base n m r m')
      fun _ _ => True := by
  have hlt := h.base_lt
  have hhead : (Cell.comb c).NotApp := fun _ _ h => by cases h
  obtain ⟨args, hu, hlen, hargs⟩ := h.current.unwinds (by rw [htop]; exact hhead)
    (by rw [htop]; rfl) (q := m.stack.size - 1 - n) (by omega) (by omega)
  obtain rfl : n = args.length := by omega
  have hready : ∀ args' : List Nat, Ready m.heap.get args' (.comb c) := by
    intro args' arity forced hst
    rw [strictness_of_contractum hs] at hst
    cases hst
  have hclear : Clear outer base args.length m := by
    refine h.clear htop hhead rfl hle ?_ fun args' _ _ => hready args'
    simp [rests, hn, hle]
  unfold Meets
  rw [fire_eq_contract hs hn hargs]
  refine (Overwrites.contract args s m).imp fun r m' hr => ?_
  obtain ⟨rfl, ht⟩ := hr
  have hbusy : Busy m.heap.get (m.stack.getD (m.stack.size - 1 - args.length) 0) :=
    ⟨args, _, hu, by rw [htop]; simp [rests, hn]⟩
  have hredex := h.redex htop hhead rfl hle (fun args' _ _ => hready args') (by simp)
  exact ⟨m, .inl rfl, hclear, hredex, .refl _ _, .refl m, h, hm, .refl m, .refl _ m,
    by rw [htop]; rfl, hbusy, ht⟩

theorem Spines.busy_redex {r : Nat × Nat} (h : Spines outer base m)
    (hr : strictness (m.heap.get m.onTop) = some r)
    (hle : r.1 ≤ m.stack.size - 1 - base) :
    Busy m.heap.get (m.stack.getD (m.stack.size - 1 - r.1) 0) := by
  have hlt := h.base_lt
  obtain ⟨hn, hi⟩ := isHead_of_strictness hr
  obtain ⟨args, hu, hlen, -⟩ := h.current.unwinds hn hi (q := m.stack.size - 1 - r.1) (by omega)
    (by omega)
  exact ⟨args, _, hu, rests_of_strictness hr (by omega)⟩

/-- A case keeps the spines, selecting or asking. -/
theorem spines_fireCase {k : UInt32} (h : Spines outer base m) (hm : m.Safe [])
    (htop : m.heap.get m.onTop = .comb (.caseOf k))
    (hle : k.toNat + 1 ≤ m.stack.size - 1 - base) :
    Meets (fireCase k.toNat (m.stack.size - 1)) m
      (fun r m' => RuleKeeps outer base (k.toNat + 1) m r m') fun _ _ => True := by
  have hlt := h.base_lt
  obtain ⟨f, a, hc, -⟩ := h.current (m.stack.size - 1 - 1) (by omega) (by omega)
  simp only [fireCase, arg, meets_bind, meets_entry, meets_cell, hc, meets_pure, meets_isWhnf,
    meets_ite, meets_resolve, meets_spine]
  split
  · rename_i hw
    exact ⟨rfl, ⟨k.toNat + 1, 1, 0, f, by rw [htop]; rfl, hle, by omega, hc⟩, by simpa using hw⟩
  rename_i hw
  replace hw : m.isWhnfIn a = true := by simpa using hw
  have hready : ∀ args, args.length = k.toNat + 1 → m.HasArgs (m.stack.size - 1) args →
      Ready m.heap.get args (.comb (.caseOf k)) := by
    intro args hlen hargs arity forced hst
    cases hst
    refine ⟨hlen, fun j a' hj ha' => ?_⟩
    obtain rfl : j = 0 := by omega
    obtain ⟨f', hf'⟩ := hargs 0 a' ha'
    rw [hc] at hf'
    cases hf'
    exact not_busy_of_isWhnfIn hw
  have hclear : Clear outer base (k.toNat + 1) m := by
    refine h.clear htop (fun _ _ h => by cases h) rfl hle ?_ hready
    exact decide_eq_false (by omega)
  have hredex := h.redex htop (fun _ _ h => by cases h) rfl hle hready (by simp)
  split
  · simp only [meets_bind, meets_ite, meets_describe, meets_fail]
    split
    · trivial
    split
    · trivial
    refine (((((spines_reserve h hm _).and (settled_reserve hm _)).and (safe_reserve hm _)).and
      ((Quiet.reserve _ m).and (meets_self _ m))).and (skips_reserve hm _)).mono (fun _ m1 h1 => ?_)
      fun _ _ _ => trivial
    obtain ⟨⟨⟨⟨⟨h1, hcarry⟩, hset⟩, hs1⟩, hst1, hself⟩, hskip⟩ := h1
    refine overwrites_selectAlternative.imp fun r m' hr => ?_
    obtain ⟨rfl, ht⟩ := hr
    have hhead : strictness (m1.heap.get m.onTop) =
        some (k.toNat + 1, 1) := hcarry.head _ (by omega) trivial _ (by rw [htop]; rfl)
    have hbusy := h1.busy_redex (by rw [onTop, hst1.stack]; exact hhead) (by rw [hst1.stack]; exact hle)
    rw [hst1.stack] at ht hbusy
    exact ⟨m1, .inr ⟨_, hself⟩, hclear, hredex, hcarry, hskip, h1, hs1, hst1, hset,
      (isHead_of_strictness hhead).2, hbusy, ht⟩
  · simp only [meets_bind, meets_describe, meets_fail]

/-- A strict primitive keeps the spines, firing or asking. -/
theorem spines_fireStrict (h : Spines outer base m) (hm : m.Safe [])
    (htop : m.heap.get m.onTop = .prim p) (ha : p.isAction = false)
    (hp : p ≠ .perform) (hle : p.arity ≤ m.stack.size - 1 - base) :
    Meets (fireStrict ev p (m.stack.size - 1)) m (fun r m' => RuleKeeps outer base p.arity m r m')
      fun _ _ => True := by
  have hstrict : strictness (.prim p) = some (p.arity, p.forced) := by simp [strictness, ha]
  simp only [fireStrict]
  refine (firstUnevaluated_spec 1 p.forced).bind fun r m1 hr => ?_
  obtain ⟨rfl, hr⟩ := hr
  cases r with
  | some a =>
    obtain ⟨hw, k, f, hk, hc⟩ := hr
    rw [Nat.add_comm] at hc
    exact ⟨rfl, ⟨p.arity, p.forced, k, f, by rw [htop]; exact hstrict, hle, hk, hc⟩, hw⟩
  | none =>
    have hready : ∀ args, args.length = p.arity → m1.HasArgs (m1.stack.size - 1) args →
        Ready m1.heap.get args (.prim p) := by
      intro args hlen hargs arity forced hst
      rw [hstrict] at hst
      cases hst
      refine ⟨hlen, fun k a hk hka => ?_⟩
      obtain ⟨f, hc⟩ := hargs k a hka
      rw [Nat.add_comm] at hc
      exact not_busy_of_isWhnfIn (hr k f a hk hc)
    have hclear : Clear outer base p.arity m1 :=
      h.clear htop (fun _ _ h => by cases h) rfl hle (rests_of_strictness hstrict hle) hready
    refine (overwrites_firePrimitive hp).imp fun r m' hr' => ?_
    obtain ⟨rfl, hne, ht⟩ := hr'
    have hbusy := h.busy_redex (by rw [htop]; exact hstrict) hle
    have hredex := h.redex htop (fun _ _ h => by cases h) rfl hle hready (by simpa using hne)
    exact ⟨m1, .inl rfl, hclear, hredex, .refl _ _, .refl m1, h, hm, .refl m1, .refl _ m1,
      by rw [htop]; rfl, hbusy, ht⟩

theorem notApp_of_rests (h : rests c n = true) : c.NotApp := by
  rintro f a rfl
  cases h

theorem isInd_of_rests (h : rests c n = true) : c.isInd = false := by
  cases c with
  | ind t => cases h
  | _ => rfl

theorem Spines.done (h : Spines outer base m)
    (htop : m.heap.get m.onTop = c) (hn : c.NotApp)
    (hi : c.isInd = false) (hr : rests c (m.stack.size - 1 - base) = true) :
    StepKeeps outer base m .done m := by
  subst htop
  have hlt := h.base_lt
  obtain ⟨args, hu, hlen, -⟩ := h.current.unwinds hn hi (Nat.le_refl base) (by omega)
  exact ⟨h, .refl _ m, args, hu, by rw [hlen]; exact hr⟩

/-- A step keeps every spine, whichever rule it applies. -/
theorem stepped_step (hev : EvaluatorsSafe ev) (hperform : ∀ id, Quiet (ev.perform id))
    (hnormalize : ∀ id, Quiet (ev.normalize id)) (h : Spines outer base m) (hm : m.Safe [])
    (hp : m.heap.get m.onTop ≠ .prim .perform) :
    Meets (step ev base) m (fun r m' => Stepped outer base m r m') fun _ _ => True := by
  have hlt := h.base_lt
  have ht : m.stack.size - 1 < m.stack.size := by omega
  refine meets_step fun x hx => ?_
  cases hx with
  | app hc =>
    simp only [meets_bind, meets_push, meets_pure]
    split
    · trivial
    · exact .push hc
  | ind hc => exact .follow hc
  | comb hc hn hle =>
    refine stepped_afterRule hle (safe_fire hm ht _) (quiet_fire _ _) ?_
    rcases Combinator.contractum_or_caseOf hn with ⟨s, hs⟩ | ⟨k, rfl, rfl⟩
    · exact spines_contract h hm hc hs hn hle
    · exact spines_fireCase h hm hc hle
  | @prim p hc ha hle =>
    have hperf : p ≠ .perform := by rintro rfl; exact hp hc
    exact stepped_afterRule hle (safe_fireStrict hev hm ht)
      (quiet_fireStrict hperform hnormalize) (spines_fireStrict h hm hc ha hperf hle)
  | done hr => exact .done hr
  | loop | scalar | free => trivial

/-- **A step keeps the spines**, and what is evaluated below them stays so. -/
theorem Stepped.keeps {r : Progress} {m' : Machine} (hs : Stepped outer base m r m')
    (h : Spines outer base m) (hm : m.Safe []) : StepKeeps outer base m r m' := by
  have hlt := h.base_lt
  cases hs with
  | @push f _ hc =>
    refine ⟨h.push hm hc, fun i hi hr => ?_, trivial⟩
    show Rests m.heap.get ((m.stack.push f).getD i 0)
    rw [getD_push_lt (by omega)]
    exact hr
  | @follow t hc =>
    refine ⟨h.follow hc, fun i hi hr => ?_, trivial⟩
    show Rests m.heap.get ((m.stack.setIfInBounds (m.stack.size - 1) t).getD i 0)
    rw [getD_set_ne (by omega)]
    exact hr
  | waits ha hw => exact ⟨h, .refl _ _, ha, hw⟩
  | @fired n m0 m1 _ h0 hs1 hst1 hle =>
    obtain ⟨hred, z, hz⟩ := h0.ends hs1 hst1 hle hlt
    have hst0 := h0.steady.stack
    refine ⟨?_, fun i hi hr => ?_, trivial⟩
    · have ht := h0.touches
      rw [← hst0] at ht hle hred ⊢
      exact h0.spines.fired h0.safe hs1 (h0.steady.symm.trans hst1) (h0.clear.steady h0.steady) hle
        hred ht _
    · show Rests m1.heap.get ((m1.stack.shrink (m.stack.size - 1 - n + 1)).getD i 0)
      have hr0 := h0.settled i (by omega) hr
      rw [hst0] at hr0
      rw [getD_shrink (by omega), hst1.stack]
      exact h0.touches.rests hred hz h0.busy hr0
  | done hr => exact h.done rfl (notApp_of_rests hr) (isInd_of_rests hr) hr

end Rules

end Machine

end GraphReduction
