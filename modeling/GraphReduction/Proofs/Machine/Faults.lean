import GraphReduction.Proofs.Machine.Rules

/-!
# Faults of spines

Some errors say that a spine is not what its rule takes it for: a cell that has to be an
application is none, or a head without a rule fires. Most operations cannot fail like that in any
machine (`Orderly`). A rule reads its arguments before it changes anything, so it cannot if the
entries below its head are applications.
-/

namespace GraphReduction

/-- Errors that do not come from a spine that is not what it was taken for. -/
def Halt.Orderly : Halt → Prop
  | .error (.malformed (.notAnApplication _)) | .error (.malformed (.cannotFire _))
  | .error (.malformed (.actionReduced _)) | .error (.malformed .nothingToNormalize) => False
  | _ => True

theorem Halt.Orderly.eq_loop {g : GraphFault} (h : (Halt.error (.malformed g)).Orderly)
    (h' : (Halt.error (.malformed g)).Harmless) : g = .loop := by
  cases g with
  | loop => rfl
  | freeListCorrupt | unallocated => exact h'.elim
  | notAnApplication | cannotFire | actionReduced | nothingToNormalize => exact h.elim

namespace Machine

/-!
## Computations that find no fault in any machine
-/

/-- A computation that finds no fault of a spine. -/
def Orderly {α : Type} (x : Run α) : Prop :=
  ∀ m, Meets x m (fun _ _ => True) fun e _ => e.Orderly

namespace Orderly

variable {α β : Type} {x y : Run α}

theorem bind {g : α → Run β} (hx : Orderly x) (hg : ∀ a, Orderly (g a)) : Orderly (x >>= g) := by
  intro m
  exact (hx m).bind fun a m1 _ => hg a m1

theorem pure (a : α) : Orderly (Pure.pure a : Run α) := fun _ => trivial

theorem fail {e : RuntimeError} (he : (Halt.error e).Orderly) : Orderly (Machine.fail e : Run α) :=
  fun _ => he

theorem alloc (c : Cell) : Orderly (Machine.alloc c) := by
  intro m
  unfold Meets Machine.alloc Heap.alloc
  cases hfree : m.heap.free with
  | some id => cases hid : m.heap.get id <;> simp only [hid] <;> trivial
  | none =>
    by_cases hlt : m.heap.cells.size < m.heap.capacity
    · simp only [if_pos hlt]
    · simp only [if_neg hlt]; trivial

theorem app (f a : Nat) : Orderly (Machine.app f a) := alloc _

theorem reserve (n : Nat) : Orderly (Machine.reserve n) := by
  intro m
  simp only [Machine.reserve, meets_bind, meets_get, meets_ite, Machine.collect, meets_modify,
    meets_fail, meets_pure]
  split
  · split <;> trivial
  · trivial

theorem push (id : Nat) : Orderly (Machine.push id) := by
  intro m
  rw [meets_push]
  split <;> trivial

theorem onWorld (o : Operation) : Orderly (Machine.onWorld o) := by
  intro m
  unfold Meets Machine.onWorld
  cases hp : o.perform m.world with
  | ok a w => trivial
  | error e w =>
    obtain ⟨p, cause, rfl⟩ := o.failsForeign _ _ _ hp
    trivial

theorem overwrite (redex : Nat) (c : Cell) : Orderly (Machine.overwrite redex c) := fun _ => trivial

theorem forward (redex target : Nat) : Orderly (Machine.forward redex target) := by
  intro m
  simp only [Machine.forward, updateInd, meets_bind, meets_resolve, meets_ite, meets_malformed,
    meets_setCell, meets_pure]
  split <;> trivial

theorem valueOf (read : Cell → Option α) (p : Primitive) (expected : String) (id : Nat) :
    Orderly (Machine.valueOf read p expected id) := by
  intro m
  simp only [Machine.valueOf, meets_bind, meets_resolve, meets_cell]
  split <;> trivial

theorem intValue (p : Primitive) (id : Nat) : Orderly (Machine.intValue p id) :=
  intValue_eq p id ▸ valueOf _ _ _ _

theorem charValue (p : Primitive) (id : Nat) : Orderly (Machine.charValue p id) :=
  charValue_eq p id ▸ valueOf _ _ _ _

theorem doubleValue (p : Primitive) (id : Nat) : Orderly (Machine.doubleValue p id) :=
  doubleValue_eq p id ▸ valueOf _ _ _ _

theorem ptrValue (p : Primitive) (id : Nat) : Orderly (Machine.ptrValue p id) :=
  ptrValue_eq p id ▸ valueOf _ _ _ _

theorem stringCell (s : String) : Orderly (Machine.stringCell s) :=
  (alloc _).bind fun _ => (alloc _).bind fun _ => pure _

theorem build (args : List Nat) (redex : Nat) (s : Shape) :
    Orderly (Machine.build args redex s) := by
  induction s with
  | arg _ | redex => exact pure _
  | app f a hf ha => exact hf.bind fun _ => ha.bind fun _ => app _ _

theorem contract (args : List Nat) (redex : Nat) (s : Shape) :
    Orderly (Machine.contract args redex s) := by
  cases s with
  | arg _ | redex => exact (build _ _ _).bind fun _ => forward _ _
  | app f a => exact (build _ _ _).bind fun _ => (build _ _ _).bind fun _ => overwrite _ _

theorem argumentCells (unpack cons nil : Nat) (args : List String) :
    Orderly (Machine.argumentCells unpack cons nil args) := by
  induction args with
  | nil => exact pure _
  | cons s args ih =>
    exact ih.bind fun _ => (alloc _).bind fun _ => (app _ _).bind fun _ => (app _ _).bind fun _ =>
      app _ _

theorem argumentList : Orderly Machine.argumentList :=
  (onWorld _).bind fun _ => (reserve _).bind fun _ => (alloc _).bind fun _ => (alloc _).bind fun _ =>
    (alloc _).bind fun _ => argumentCells _ _ _ _

theorem resultCell (c : Cell) : Orderly (Machine.resultCell c) := (reserve _).bind fun _ => alloc _

theorem handOver (top : Nat) (takesResult : Bool) (result : Nat) :
    Orderly (Machine.handOver top takesResult result) := by
  intro m
  simp only [Machine.handOver, meets_bind, meets_truncate, meets_ite, meets_pure, meets_entry]
  split
  · exact (app _ _ _).imp fun _ _ _ => trivial
  · trivial

theorem pushAll (ids : List Nat) : Orderly (Machine.pushAll ids) := by
  induction ids with
  | nil => exact pure _
  | cons id ids ih => exact ih.bind fun _ => push _

theorem suspend (base id : Nat) : Orderly (Machine.suspend base id) := by
  intro m
  simp only [Machine.suspend, meets_bind, meets_enter, meets_modify, meets_push, meets_top]
  split
  · trivial
  · split <;> trivial

end Orderly

/-!
## Rules that read their arguments
-/

/-- The `n` entries below position `top` are applications. -/
def Applied (m : Machine) (top n : Nat) : Prop :=
  ∀ i, 1 ≤ i → i ≤ n → ∃ f a, m.heap.get (m.stack.getD (top - i) 0) = .app f a

/-- A computation that finds no fault in machines with the heap and the stack of `m`. -/
def OrderlyIn {α : Type} (m : Machine) (x : Run α) : Prop :=
  ∀ m1, m1.heap = m.heap → m1.stack = m.stack → Meets x m1 (fun _ _ => True) fun e _ => e.Orderly

/-- One that leaves the heap and the stack as they are besides. -/
def Looks {α : Type} (m : Machine) (x : Run α) : Prop :=
  ∀ m1, m1.heap = m.heap → m1.stack = m.stack →
    Meets x m1 (fun _ m2 => m2.heap = m.heap ∧ m2.stack = m.stack) fun e _ => e.Orderly

section Rules

variable {α β : Type} {m : Machine} {x y : Run α} {top n i : Nat} {p : Primitive} {ev : Evaluators}

theorem Orderly.inside (h : Orderly x) : OrderlyIn m x := fun m1 _ _ => h m1

theorem OrderlyIn.bind {g : α → Run β} (hx : Looks m x) (hg : ∀ a, OrderlyIn m (g a)) :
    OrderlyIn m (x >>= g) := by
  intro m1 hheap hstack
  exact (hx m1 hheap hstack).bind fun a m2 h2 => hg a m2 h2.1 h2.2

namespace Looks

theorem entry (i : Nat) : Looks m (Machine.entry i) := fun _ h1 h2 => ⟨h1, h2⟩

theorem countTick (label : Int64) : Looks m (Machine.countTick label) := fun _ h1 h2 => ⟨h1, h2⟩

theorem bind {g : α → Run β} (hx : Looks m x) (hg : ∀ a, Looks m (g a)) : Looks m (x >>= g) := by
  intro m1 hheap hstack
  exact (hx m1 hheap hstack).bind fun a m2 h2 => hg a m2 h2.1 h2.2

theorem of_reads (h : Reads x) (ho : Orderly x) : Looks m x := by
  intro m1 hheap hstack
  refine ((h m1).and (ho m1)).mono (fun _ m2 h2 => ?_) fun _ _ he => he.2
  rw [h2.1]
  exact ⟨hheap, hstack⟩

theorem arg (hargs : Applied m top n) (h1 : 1 ≤ i) (hn : i ≤ n) : Looks m (Machine.arg top i) := by
  intro m1 hheap hstack
  obtain ⟨f, a, hc⟩ := hargs i h1 hn
  simp only [Machine.arg, meets_bind, meets_entry, meets_cell, hheap, hstack, hc, meets_pure]
  exact ⟨trivial, trivial⟩

theorem intArg (hargs : Applied m top n) (h1 : 1 ≤ i) (hn : i ≤ n) :
    Looks m (Machine.intArg p top i) :=
  (arg hargs h1 hn).bind fun _ => of_reads (Reads.intValue _ _) (.intValue _ _)

theorem charArg (hargs : Applied m top n) (h1 : 1 ≤ i) (hn : i ≤ n) :
    Looks m (Machine.charArg p top i) :=
  (arg hargs h1 hn).bind fun _ => of_reads (Reads.charValue _ _) (.charValue _ _)

theorem doubleArg (hargs : Applied m top n) (h1 : 1 ≤ i) (hn : i ≤ n) :
    Looks m (Machine.doubleArg p top i) :=
  (arg hargs h1 hn).bind fun _ => of_reads (Reads.doubleValue _ _) (.doubleValue _ _)

theorem ptrArg (hargs : Applied m top n) (h1 : 1 ≤ i) (hn : i ≤ n) :
    Looks m (Machine.ptrArg p top i) :=
  (arg hargs h1 hn).bind fun _ => of_reads (Reads.ptrValue _ _) (.ptrValue _ _)

end Looks

theorem orderly_fireUnpack (hargs : Applied m top 1) : OrderlyIn m (fireUnpack top) := by
  refine .bind (.arg hargs (by omega) (by omega)) fun a => Orderly.inside ?_
  intro m1
  simp only [meets_bind, meets_resolve, meets_entry, meets_cell]
  split
  · trivial
  · refine (Orderly.bind (.alloc _) fun _ => .bind (.alloc _) fun _ => ?_ : Orderly _) m1
    exact .bind (fun _ => trivial) fun _ => .bind (.app _ _) fun _ => .bind (.alloc _) fun _ =>
      .bind (.app _ _) fun _ => .overwrite _ _
  · trivial

/-- **A primitive whose arguments are on the stack finds no fault**, if the evaluation of the text of
an error finds none. -/
theorem orderly_firePrimitive (hargs : Applied m top p.arity) (ha : p.isAction = false)
    (hp : p ≠ .perform) (herror : p = .error → ∀ a, arg top 1 m = .ok a m →
      Meets (ev.normalize a) m (fun _ _ => True) fun e _ => e.Orderly) :
    Meets (firePrimitive ev p top) m (fun _ _ => True) fun e _ => e.Orderly := by
  cases p with
  | perform => exact absurd rfl hp
  | getChar | putChar | flush | openFile | close | getArgs | exit | malloc | free | peek | poke =>
    cases ha
  | error =>
    obtain ⟨f, a, hc⟩ := hargs 1 (by omega) (by decide)
    have harg : arg top 1 m = .ok a m := by
      simp only [arg, entry, cell, bind, EStateM.bind, hc]; rfl
    simp only [firePrimitive, meets_bind, meets_entry, meets_of_ok harg, meets_fail]
    exact (herror rfl a harg).imp fun _ _ _ => trivial
  | unpack =>
    simp only [firePrimitive, meets_bind, meets_entry]
    exact orderly_fireUnpack hargs m rfl rfl
  | _ =>
    simp only [firePrimitive, intRule, divisionRule, doubleRule]
    refine (?_ : OrderlyIn m _) m rfl rfl
    repeat' with_reducible first
      | refine OrderlyIn.bind (Looks.entry _) fun _ => ?_
      | refine OrderlyIn.bind (Looks.intArg hargs (by decide) (by decide)) fun _ => ?_
      | refine OrderlyIn.bind (Looks.charArg hargs (by decide) (by decide)) fun _ => ?_
      | refine OrderlyIn.bind (Looks.doubleArg hargs (by decide) (by decide)) fun _ => ?_
      | refine OrderlyIn.bind (Looks.ptrArg hargs (by decide) (by decide)) fun _ => ?_
      | refine OrderlyIn.bind (Looks.arg hargs (by decide) (by decide)) fun _ => ?_
      | refine OrderlyIn.bind (Looks.countTick _) fun _ => ?_
      | split | apply Orderly.overwrite | apply Orderly.forward | apply Orderly.fail
      | apply Orderly.stringCell | refine Orderly.bind ?_ fun _ => ?_ | apply Orderly.inside
    all_goals exact trivial

theorem orderly_firstUnevaluated (hargs : Applied m top n) (i k : Nat) (hi : 1 ≤ i)
    (hk : i + k ≤ n + 1) :
    Meets (firstUnevaluated top i k) m (fun _ _ => True) fun e _ => e.Orderly := by
  induction k generalizing i with
  | zero => trivial
  | succ k ih =>
    obtain ⟨f, a, hc⟩ := hargs i hi (by omega)
    simp only [firstUnevaluated, arg, meets_bind, meets_entry, meets_cell, hc, meets_pure,
      meets_isWhnf, meets_ite]
    split
    · exact ih (i + 1) (by omega) (by omega)
    · trivial

theorem orderly_fireStrict (hargs : Applied m top p.arity) (ha : p.isAction = false)
    (hp : p ≠ .perform) (herror : p = .error → ∀ a, arg top 1 m = .ok a m →
      Meets (ev.normalize a) m (fun _ _ => True) fun e _ => e.Orderly) :
    Meets (fireStrict ev p top) m (fun _ _ => True) fun e _ => e.Orderly := by
  have hforced := Primitive.forced_le_arity p
  simp only [fireStrict]
  refine ((orderly_firstUnevaluated hargs 1 p.forced (by omega) (by omega)).also
    (firstUnevaluated_spec 1 p.forced)).bind fun r m1 h1 => ?_
  obtain ⟨-, rfl, -⟩ := h1
  cases r with
  | some a => trivial
  | none => exact orderly_firePrimitive hargs ha hp herror

theorem orderly_selectAlternative {tag : Nat} (hargs : Applied m top (n + 1)) (ht : tag < n) :
    Meets (selectAlternative n top tag) m (fun _ _ => True) fun e _ => e.Orderly := by
  obtain ⟨f, a, hc⟩ := hargs 1 (by omega) (by omega)
  obtain ⟨f', a', hc'⟩ := hargs (tag + 2) (by omega) (by omega)
  exact .congr (selectAlternative_eq_contract hc rfl hc') (Orderly.contract _ _ _ m)

variable {outer base : Nat}

theorem Spines.applied (h : Spines outer base m) (hle : n ≤ m.stack.size - 1 - base) :
    Applied m (m.stack.size - 1) n := by
  intro i h1 hi
  have hlt := h.base_lt
  obtain ⟨f, a, hc, -⟩ := h.current (m.stack.size - 1 - i) (by omega) (by omega)
  exact ⟨f, a, hc⟩

theorem orderly_fireCase {k : UInt32} (h : Spines outer base m) (hm : m.Safe [])
    (hle : k.toNat + 1 ≤ m.stack.size - 1 - base) :
    Meets (fireCase k.toNat (m.stack.size - 1)) m (fun _ _ => True) fun e _ => e.Orderly := by
  obtain ⟨f, a, hc⟩ := h.applied hle 1 (by omega) (by omega)
  simp only [fireCase, arg, meets_bind, meets_entry, meets_cell, hc, meets_pure, meets_isWhnf,
    meets_ite, meets_resolve, meets_spine]
  split
  · trivial
  split
  · simp only [meets_bind, meets_ite, meets_describe, meets_fail]
    split
    · trivial
    split
    · trivial
    rename_i htag
    refine (((spines_reserve h hm _).and (Quiet.reserve _ m)).and (Orderly.reserve _ m)).mono
      (fun _ m1 h1 => ?_) fun _ _ he => he.2
    obtain ⟨⟨⟨h1, -⟩, hst1⟩, -⟩ := h1
    have happ := h1.applied (n := k.toNat + 1) (by rw [hst1.stack]; exact hle)
    rw [hst1.stack] at happ
    exact orderly_selectAlternative happ (by omega)
  · trivial

theorem orderly_fire {c : Combinator} (h : Spines outer base m) (hm : m.Safe [])
    (htop : m.heap.get m.onTop = .comb c) (hn : c.arity = some n)
    (hle : n ≤ m.stack.size - 1 - base) :
    Meets (fire c (m.stack.size - 1)) m (fun _ _ => True) fun e _ => e.Orderly := by
  rcases Combinator.contractum_or_caseOf hn with ⟨s, hs⟩ | ⟨k, rfl, rfl⟩
  · have hlt := h.base_lt
    obtain ⟨args, -, hlen, hargs⟩ := h.current.unwinds
      (by rw [htop]; exact fun _ _ h => by cases h) (by rw [htop]; rfl)
      (q := m.stack.size - 1 - n) (by omega) (by omega)
    obtain rfl : n = args.length := by omega
    exact .congr (fire_eq_contract hs hn hargs) (Orderly.contract _ _ _ m)
  · exact orderly_fireCase h hm hle

theorem orderly_afterRule {x : Run Fired} (hx : Meets x m (fun _ _ => True) fun e _ => e.Orderly) :
    Meets (do afterRule top n (← x)) m (fun _ _ => True) fun e _ => e.Orderly := by
  refine hx.bind fun r m1 _ => ?_
  cases r <;> trivial

theorem orderly_step (h : Spines outer base m) (hm : m.Safe [])
    (hp : m.heap.get m.onTop ≠ .prim .perform)
    (herror : m.heap.get m.onTop = .prim .error →
      base < m.stack.size - 1 → ∀ a, arg (m.stack.size - 1) 1 m = .ok a m →
      Meets (ev.normalize a) m (fun _ _ => True) fun e _ => e.Orderly) :
    Meets (step ev base) m (fun _ _ => True) fun e _ => e.Orderly := by
  have htop := hm.entry (i := m.stack.size - 1) (by have := h.base_lt; omega)
  refine meets_step fun x hx => ?_
  cases hx with
  | app => exact ((Orderly.push _).bind fun _ => .pure _ : Orderly _) m
  | comb hc hn hle => exact orderly_afterRule (orderly_fire h hm hc hn hle)
  | @prim p hc ha hle =>
    have hperf : p ≠ .perform := by rintro rfl; exact hp hc
    refine orderly_afterRule (orderly_fireStrict (h.applied hle) ha hperf ?_)
    rintro rfl a harg
    exact herror hc (by change 1 ≤ _ at hle; omega) a harg
  | loop hc => exact absurd rfl (htop.ind List.mem_cons_self hc).2
  | ind | done | scalar => trivial
  | free hc => exact absurd (htop.inUse List.mem_cons_self) (by rw [hc]; simp [Cell.isFree])

end Rules

end Machine

end GraphReduction
