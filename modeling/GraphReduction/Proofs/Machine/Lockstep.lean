import GraphReduction.Proofs.Machine.Rules
import GraphReduction.Proofs.Machine.Twins

/-!
# Rules in lockstep

Twin machines whose spines have the same head fire the same rule, with the same outcome.
-/

namespace GraphReduction

open List

namespace Machine

variable {k : Nat} {β β' : Type} {ev : Evaluators} {S : β → β' → Machine → Machine → Prop}

/-- The spine of a cell ends, but has too many arguments for the stack. -/
def Oversized (m : Machine) (x : Nat) : Prop :=
  ∃ args y, Unwinds m.heap.get x args y ∧ m.stackLimit < args.length

/-- The spine of a cell ends. -/
def HasSpine (m : Machine) (x : Nat) : Prop := ∃ args y, Unwinds m.heap.get x args y

section Reading

variable {m m' : Machine} {held : List (Nat × Nat)} {x x' top k : Nat} {args args' : List Nat}

/-- **The arguments on the spines** of twins are of the same nodes. -/
theorem twins_args (h : Twins m m' held) (ht : top < m.stack.size) (hargs : m.HasArgs top args)
    (hargs' : m'.HasArgs top args') : Twins m m' (args.zip args' ++ held) := by
  obtain ⟨R, hR, hh⟩ := h
  refine ⟨R, hR, fun p hp => ?_⟩
  rcases mem_append.1 hp with hp | hp
  · obtain ⟨i, hi, rfl⟩ := getElem_of_mem hp
    rw [length_zip, Nat.lt_min] at hi
    obtain ⟨f, hc⟩ := hargs i args[i] (by simp [hi.1])
    obtain ⟨f', hc'⟩ := hargs' i args'[i] (by simp [hi.2])
    have hxx := Pairing.of_paired (hR.stack (top - (i + 1)) (by omega)) (by rw [hc]; rfl)
      (by rw [hc']; rfl)
    have ha := hR.pairing.alike _ _ hxx
    rw [hc, hc'] at ha
    cases ha with
    | app _ ha => simpa using ha
  · exact hh p hp

theorem mem_zip (hk : k < args.length) (hlen : args'.length = args.length) :
    (args[k], args'[k]) ∈ args.zip args' := by
  have hkz : k < (args.zip args').length := by rw [length_zip, hlen, Nat.min_self]; exact hk
  rw [← getElem_zip (h := hkz)]
  exact getElem_mem hkz

/-- **What is evaluated** in one machine is evaluated in the other one. -/
theorem twins_isWhnf (h : Twins m m' held) (hx : (x, x') ∈ held) :
    m.isWhnfIn x = m'.isWhnfIn x' ∨ m.Oversized x ∨ m'.Oversized x' := by
  have hone : ∀ {m m' : Machine} {held : List (Nat × Nat)} {x x' : Nat}, Twins m m' held →
      (x, x') ∈ held → m.isWhnfIn x = true → m'.isWhnfIn x' = true ∨ m'.Oversized x' := by
    intro m m' held x x' h hx hw
    obtain ⟨G, hG, hheld⟩ := h.safe
    obtain ⟨args, y, hu, -, hr⟩ := (isWhnfIn_iff hG.closed
      (hheld x (mem_map.2 ⟨_, hx, rfl⟩))).1 hw
    obtain ⟨args', y', hu', hlen, hy, -⟩ := h.unwinds hx hu
    rw [hu'.isWhnfIn_eq, hy, hlen, hr]
    by_cases hle : args.length ≤ m'.stackLimit
    · exact Or.inl (by simp [hle])
    · exact Or.inr ⟨args', y', hu', by omega⟩
  cases hw : m.isWhnfIn x with
  | true =>
    rcases hone h hx hw with hw' | ho
    · exact Or.inl hw'.symm
    · exact Or.inr (Or.inr ho)
  | false =>
    cases hw' : m'.isWhnfIn x' with
    | false => exact Or.inl rfl
    | true =>
      have hx' : (x', x) ∈ held.map Prod.swap := mem_map.2 ⟨_, hx, rfl⟩
      rcases hone h.symm hx' hw' with hw'' | ho
      · rw [hw] at hw''; cases hw''
      · exact Or.inr (Or.inl ho)

theorem hasSpine_of_isWhnfIn (hm : m.Safe [x]) (hw : m.isWhnfIn x = true) : m.HasSpine x := by
  obtain ⟨G, hG, hheld⟩ := hm
  obtain ⟨args, y, hu, -⟩ := (isWhnfIn_iff hG.closed (hheld x mem_cons_self)).1 hw
  exact ⟨args, y, hu⟩

/-- Twin cells have one description: it reads the head and the number of arguments. -/
theorem twins_describe (h : Twins m m' held) (hx : (x, x') ∈ held) (hs : m.HasSpine x) :
    describeIn m'.heap x' = describeIn m.heap x := by
  obtain ⟨args, y, hu⟩ := hs
  obtain ⟨args', y', hu', hlen, hy, -⟩ := h.unwinds hx hu
  have hemp : args'.isEmpty = args.isEmpty := by
    rw [Bool.eq_iff_iff, isEmpty_iff_length_eq_zero, isEmpty_iff_length_eq_zero, hlen]
  unfold describeIn
  rw [hu.spineOf_eq, hu'.spineOf_eq]
  simp only [hy, hlen, hemp]

end Reading

/-!
## Reading arguments
-/

/-- Both computations read the same and change nothing. -/
def Agree {α : Type} (x x' : Run α) (m m' : Machine) : Prop :=
  Both x x' m m' fun a a' m1 m1' => a' = a ∧ m1 = m ∧ m1' = m'

theorem Agree.bind {α β β' : Type} {x x' : Run α} {g : α → Run β} {g' : α → Run β'}
    {m m' : Machine} {S : β → β' → Machine → Machine → Prop} (h : Agree x x' m m')
    (hg : ∀ a, Both (g a) (g' a) m m' S) : Both (x >>= g) (x' >>= g') m m' S := by
  refine Both.bind h fun a a' m1 m1' h1 => ?_
  obtain ⟨rfl, rfl, rfl⟩ := h1
  exact hg _

section Values

variable {α : Type} {read : Cell → Option α} {p : Primitive} {expected : String} {m m' : Machine}
  {held : List (Nat × Nat)} {x x' : Nat}

theorem Twins.resolve (h : Twins m m' held) (hx : (x, x') ∈ held) : ∃ z z',
    Machine.resolve x m = .ok z m ∧ Machine.resolve x' m' = .ok z' m' ∧
      Stands m.heap.get x z ∧ Stands m'.heap.get x' z' ∧ Twins m m' ((z, z') :: held) := by
  obtain ⟨R, hR, hh⟩ := h
  obtain ⟨z, z', hz, hz', hzz⟩ := hh _ hx
  refine ⟨z, z', ?_, ?_, hz, hz', R, hR, forall_mem_cons.2 ⟨hR.pairing.paired hzz, hh⟩⟩
  · show EStateM.Result.ok (m.heap.resolve x) m = _
    rw [Heap.resolve_of_stands hz]
  · show EStateM.Result.ok (m'.heap.resolve x') m' = _
    rw [Heap.resolve_of_stands hz']

theorem both_bind_cell {g : Cell → Run β} {g' : Cell → Run β'} {z z' : Nat} :
    Both (cell z >>= g) (cell z' >>= g') m m' S ↔
      Both (g (m.heap.get z)) (g' (m'.heap.get z')) m m' S := both_bind_of_ok rfl rfl

/-- **The same complaint** about a cell that is not what was expected. -/
theorem both_mismatch (h : Twins m m' held) (hx : (x, x') ∈ held) (hs : m.HasSpine x) :
    Both (mismatch p expected x) (mismatch p expected x') m m' S := by
  have hd : describe x m = .ok (describeIn m.heap x) m := rfl
  have hd' : describe x' m' = .ok (describeIn m'.heap x') m' := rfl
  unfold mismatch
  rw [both_bind_of_ok hd hd', twins_describe h hx hs]
  exact both_fail rfl h.trace

theorem HasSpine.of_stands {z : Nat} (h : m.HasSpine x) (hz : Stands m.heap.get x z) :
    m.HasSpine z := by
  obtain ⟨args, y, hu⟩ := h
  exact ⟨args, y, hu.of_sameEnd ⟨z, hz, .here hz.isInd_eq_false⟩⟩

/-- **The same value is read**, or the same error is given. -/
theorem agree_valueOf (h : Twins m m' held) (hx : (x, x') ∈ held) (hs : m.HasSpine x)
    (hread : ∀ f a, read (.app f a) = none) :
    Agree (valueOf read p expected x) (valueOf read p expected x') m m' := by
  obtain ⟨z, z', hres, hres', hz, hz', hzz⟩ := h.resolve hx
  have hsame : read (m'.heap.get z') = read (m.heap.get z) := by
    have hcells := hzz.alike (.head _) hz.isInd_eq_false hz'.isInd_eq_false
    generalize m.heap.get z = c at hcells
    generalize m'.heap.get z' = c' at hcells
    cases hcells with
    | app => rw [hread, hread]
    | comb | prim | scalar => rfl
  unfold Agree valueOf
  rw [both_bind_of_ok hres hres', both_bind_cell, hsame]
  cases hv : read (m.heap.get z) with
  | some a => exact ⟨rfl, rfl, rfl⟩
  | none => exact both_mismatch hzz (.head _) (hs.of_stands hz)

end Values

/-!
## Combinators
-/

/-- The heads at position `top` of twins have the arguments of a rule on their spines. -/
structure Redexes (m m' : Machine) (top : Nat) (args args' : List Nat) : Prop where
  twins : Twins m m' []
  top_lt : top < m.stack.size
  length : args'.length = args.length
  isInd : (m.heap.get (m.stack.getD (top - args.length) 0)).isInd = false
  isInd' : (m'.heap.get (m'.stack.getD (top - args.length) 0)).isInd = false
  hasArgs : m.HasArgs top args
  hasArgs' : m'.HasArgs top args'

section Combinators

variable {m m' : Machine} {held held' : List (Nat × Nat)} {r r' top : Nat} {args args' : List Nat}
  {x : Nat} {s : Shape}

theorem Extends.isInd {m1 : Machine} (h : Extends m m1) (hm : m.Safe [x])
    (hi : (m.heap.get x).isInd = false) : (m1.heap.get x).isInd = false := by
  rw [h.cells x (hm.inUse mem_cons_self)]
  exact hi

theorem Twins.safe_left {x' : Nat} (h : Twins m m' held) (hx : (x, x') ∈ held) : m.Safe [x] :=
  h.safe.mono (forall_mem_singleton.2 (mem_map.2 ⟨_, hx, rfl⟩))

theorem Twins.safe_right {x' : Nat} (h : Twins m m' held) (hx : (x, x') ∈ held) : m'.Safe [x'] :=
  h.symm.safe_left (mem_map.2 ⟨_, hx, rfl⟩)

namespace Rewriting

section

variable (h : Rewriting m m' held r r')
include h

theorem mono (hr : (r, r') ∈ held') (hsub : ∀ p ∈ held', p ∈ held) :
    Rewriting m m' held' r r' := ⟨h.twins.mono hsub, hr, h.isInd, h.isInd'⟩

theorem alloc {c c' : Cell}
    (hc : Cell.Alike (fun y y' => (y, y') ∈ held) c c') :
    Both (Machine.alloc c) (Machine.alloc c') m m' fun id id' m1 m1' =>
      Rewriting m1 m1' ((id, id') :: held) r r' ∧ m1.stack = m.stack := by
  refine (twins_alloc h.twins hc).mono fun id id' m1 m1' h1 => ?_
  obtain ⟨h1, he, he'⟩ := h1
  exact ⟨⟨h1, .tail _ h.mem, he.isInd (h.twins.safe_left h.mem) h.isInd,
    he'.isInd (h.twins.safe_right h.mem) h.isInd'⟩, he.stack⟩

theorem build (hargs : ∀ p ∈ args.zip args', p ∈ held)
    (hlen : args'.length = args.length) (hs : s.Fits args.length) :
    Both (Machine.build args r s) (Machine.build args' r' s) m m' fun id id' m1 m1' =>
      Rewriting m1 m1' ((id, id') :: held) r r' := by
  induction s generalizing m m' held with
  | arg i =>
    have hi : i < args.length := hs
    refine h.mono (.tail _ h.mem) (forall_mem_cons.2 ⟨?_, fun p hp => hp⟩)
    simp only [getD_eq_getElem?_getD, getElem?_eq_getElem hi,
      getElem?_eq_getElem (hlen ▸ hi : i < args'.length), Option.getD_some]
    exact hargs _ (mem_zip hi hlen)
  | redex => exact h.mono (.head _) (forall_mem_cons.2 ⟨h.mem, fun p hp => hp⟩)
  | app f a hf ha =>
    refine (hf h hargs hs.1).bind fun x x' m1 m1' h1 => ?_
    refine (ha h1 (fun p hp => .tail _ (hargs p hp)) hs.2).bind fun y y' m2 m2' h2 => ?_
    refine (h2.alloc (.app (.tail _ (.head _)) (.head _))).mono fun z z' m3 m3' h3 => ?_
    exact h3.1.mono (.tail _ h.mem) (forall_mem_cons.2 ⟨.head _, fun p hp =>
      .tail _ (.tail _ (.tail _ hp))⟩)

theorem contract (hargs : ∀ p ∈ args.zip args', p ∈ held)
    (hlen : args'.length = args.length) (hs : s.Fits args.length) :
    Both (Machine.contract args r s) (Machine.contract args' r' s) m m' BothFired := by
  cases s with
  | arg _ | redex =>
    exact (h.build hargs hlen hs).bind fun x x' m1 m1' h1 => twins_forward h1 (.head _)
  | app f a =>
    refine (h.build hargs hlen hs.1).bind fun x x' m1 m1' h1 => ?_
    refine (h1.build (fun p hp => .tail _ (hargs p hp)) hlen hs.2).bind fun y y' m2 m2' h2 => ?_
    exact twins_overwrite h2 (.app (.tail _ (.head _)) (.head _))

theorem leaf {c : Cell} (hc : Cell.Alike (fun _ _ => False) c c) :
    Both (overwrite r c) (overwrite r' c) m m' BothFired :=
  twins_overwrite h (hc.mono fun _ _ hf => hf.elim)

theorem string (s : String) :
    Both (do overwrite r (← stringCell s)) (do overwrite r' (← stringCell s)) m m' BothFired := by
  simp only [stringCell, bind_assoc, pure_bind]
  refine (h.alloc (.scalar _)).bind fun x x' m1 m1' h1 => ?_
  refine (h1.1.alloc (.prim (by decide))).bind fun y y' m2 m2' h2 => ?_
  exact twins_overwrite h2.1 (.app (.head _) (.tail _ (.head _)))

end

end Rewriting

theorem Redexes.rewriting (h : Redexes m m' top args args') :
    Rewriting m m' ((m.stack.getD (top - args.length) 0, m'.stack.getD (top - args.length) 0) ::
      args.zip args') (m.stack.getD (top - args.length) 0) (m'.stack.getD (top - args.length) 0) := by
  have hargs := twins_args h.twins h.top_lt h.hasArgs h.hasArgs'
  rw [append_nil] at hargs
  have ht := h.top_lt
  exact ⟨hargs.entry (by omega), .head _, h.isInd, h.isInd'⟩

theorem Redexes.arg_bind {g : Nat → Run β} {g' : Nat → Run β'} (h : Redexes m m' top args args')
    (hk : k < args.length)
    (hg : ∀ a a', args[k]? = some a → (a, a') ∈ args.zip args' → Both (g a) (g' a') m m' S) :
    Both (arg top (k + 1) >>= g) (arg top (k + 1) >>= g') m m' S := by
  have hk' : k < args'.length := h.length ▸ hk
  obtain ⟨f, hc⟩ := h.hasArgs k args[k] (by simp [hk])
  obtain ⟨f', hc'⟩ := h.hasArgs' k args'[k] (by simp [hk'])
  rw [both_bind_of_ok (arg_eq_ok hc) (arg_eq_ok hc')]
  exact hg _ _ (by simp [hk]) (mem_zip hk h.length)

theorem lockstep_fire {c : Combinator} (h : Redexes m m' top args args')
    (hs : c.contractum = some s) (hn : c.arity = some args.length) :
    Both (fire c top) (fire c top) m m' BothFired := by
  have hb := h.rewriting.contract (fun p hp => .tail _ hp) h.length (Combinator.contractum_fits hs hn)
  unfold Both
  rw [fire_eq_contract hs hn h.hasArgs, fire_eq_contract hs (by rw [h.length]; exact hn) h.hasArgs',
    h.length]
  exact hb

end Combinators

/-!
## Primitives
-/

/-- A primitive has its arguments on the spines of twins, those that it asks for evaluated. -/
structure Evaluated (p : Primitive) (m m' : Machine) (top : Nat) (args args' : List Nat) : Prop
    extends Redexes m m' top args args' where
  arity : args.length = p.arity
  evaluated : ∀ k a, k < p.forced → args[k]? = some a → m.HasSpine a

/-- Twins normalise the same cell to the same value. -/
def EvaluatorsAgree (ev ev' : Evaluators) : Prop :=
  ∀ m m' x x', Twins m m' [(x, x')] → Both (ev.normalize x) (ev'.normalize x') m m'
    fun v v' m1 m1' => v' = v ∧ SameTrace m1 m1'

namespace Evaluated

variable {α : Type} {p : Primitive} {m m' : Machine} {top : Nat} {args args' : List Nat}

section

variable (h : Evaluated p m m' top args args')
include h

theorem value {value : Nat → Run α} {read : Cell → Option α} {expected : String}
    (hk : k < p.forced)
    (hvalue : ∀ id, value id = valueOf read p expected id) (hread : ∀ f a, read (.app f a) = none) :
    Agree (arg top (k + 1) >>= value) (arg top (k + 1) >>= value) m m' := by
  have hlt : k < args.length := by
    have := Primitive.forced_le_arity p
    rw [h.arity]; omega
  refine h.toRedexes.arg_bind hlt fun a a' ha haa => ?_
  rw [hvalue, hvalue]
  exact agree_valueOf h.rewriting.twins (.tail _ haa) (h.evaluated k a hk ha) hread

theorem int (hk : k < p.forced) :
    Agree (intArg p top (k + 1)) (intArg p top (k + 1)) m m' :=
  h.value hk (intValue_eq p) fun _ _ => rfl

theorem char (hk : k < p.forced) :
    Agree (charArg p top (k + 1)) (charArg p top (k + 1)) m m' :=
  h.value hk (charValue_eq p) fun _ _ => rfl

theorem double (hk : k < p.forced) :
    Agree (doubleArg p top (k + 1)) (doubleArg p top (k + 1)) m m' :=
  h.value hk (doubleValue_eq p) fun _ _ => rfl

theorem ptr (hk : k < p.forced) :
    Agree (ptrArg p top (k + 1)) (ptrArg p top (k + 1)) m m' :=
  h.value hk (ptrValue_eq p) fun _ _ => rfl

end

end Evaluated

section Primitives

variable {p : Primitive} {m m' : Machine} {held : List (Nat × Nat)} {r r' top : Nat}
  {args args' : List Nat}

theorem both_forward_arg (h : Redexes m m' top args args') (hk : k < args.length) :
    Both (do forward (m.stack.getD (top - args.length) 0) (← arg top (k + 1)))
      (do forward (m'.stack.getD (top - args.length) 0) (← arg top (k + 1))) m m' BothFired :=
  h.arg_bind hk fun _ _ _ haa => twins_forward h.rewriting (.tail _ haa)

theorem both_intRule {f : Int64 → Int64 → Cell} (h : Evaluated p m m' top args args')
    (hr : Rewriting m m' held r r') (hp : 1 < p.forced)
    (hf : ∀ x y, Cell.Alike (fun _ _ => False) (f x y) (f x y)) :
    Both (intRule p r top f) (intRule p r' top f) m m' BothFired :=
  Agree.bind (h.int (by omega)) fun x => Agree.bind (h.int hp) fun y => hr.leaf (hf x y)

theorem both_divisionRule {f : Int64 → Int64 → Int64} (h : Evaluated p m m' top args args')
    (hr : Rewriting m m' held r r') (hp : 1 < p.forced) :
    Both (divisionRule p r top f) (divisionRule p r' top f) m m' BothFired := by
  refine Agree.bind (h.int (by omega)) fun x => Agree.bind (h.int hp) fun y => ?_
  split
  · exact both_fail rfl h.twins.trace
  · exact hr.leaf (.scalar _)

theorem both_doubleRule {f : Double → Double → Cell} (h : Evaluated p m m' top args args')
    (hr : Rewriting m m' held r r') (hp : 1 < p.forced)
    (hf : ∀ x y, Cell.Alike (fun _ _ => False) (f x y) (f x y)) :
    Both (doubleRule p r top f) (doubleRule p r' top f) m m' BothFired :=
  Agree.bind (h.double (by omega)) fun x => Agree.bind (h.double hp) fun y => hr.leaf (hf x y)

theorem both_countTick_bind {g : Unit → Run β} {g' : Unit → Run β'} (h : Twins m m' held)
    (label : Int64) (hg : ∀ stats, Twins { m with stats } { m' with stats } held →
      Both (g ()) (g' ()) { m with stats } { m' with stats } S) :
    Both (countTick label >>= g) (countTick label >>= g') m m' S := by
  refine (both_bind_of_ok rfl rfl).2 ?_
  show Both _ _ _ { m' with stats := _ } _
  simp only [h.trace.stats]
  exact hg _ (h.counters _)

/-- `unpack` lays out the same characters on both sides. -/
theorem lockstep_fireUnpack (h : Evaluated .unpack m m' top args args') :
    Both (fireUnpack top) (fireUnpack top) m m' BothFired := by
  have hlt : 0 < args.length := by rw [h.arity]; decide
  have hone : top - 1 = top - args.length := by rw [h.arity]; rfl
  refine h.toRedexes.arg_bind hlt fun a a' ha haa => ?_
  obtain ⟨z, z', hres, hres', hz, hz', hzz⟩ := h.rewriting.twins.resolve (.tail _ haa)
  have hcells := hzz.alike (.head _) hz.isInd_eq_false hz'.isInd_eq_false
  have hs := (h.evaluated 0 a (by decide) ha).of_stands hz
  have hentry : entry (top - 1) m = .ok (m.stack.getD (top - args.length) 0) m := by rw [hone]; rfl
  have hentry' : entry (top - 1) m' = .ok (m'.stack.getD (top - args.length) 0) m' := by
    rw [hone]; rfl
  have hmismatch : Both (mismatch .unpack "a string literal" z : Run Fired)
      (mismatch .unpack "a string literal" z') m m' BothFired := both_mismatch hzz (.head _) hs
  rw [both_bind_of_ok hres hres', both_bind_of_ok hentry hentry', both_bind_cell]
  generalize m.heap.get z = c at hcells
  generalize m'.heap.get z' = c' at hcells
  cases hcells with
  | app | comb _ | prim _ => exact hmismatch
  | scalar s =>
    cases s with
    | text whole unread =>
      cases unread with
      | nil => exact h.rewriting.leaf (.comb _)
      | cons c unread =>
        refine (h.rewriting.alloc (.scalar _)).bind fun x x' m1 m1' h1 => ?_
        refine (h1.1.alloc (.scalar _)).bind fun y y' m2 m2' h2 => ?_
        have htop : top < m2.stack.size := by rw [h2.2, h1.2]; exact h.top_lt
        have hhead : Rewriting m2 m2' _ _ _ :=
          ⟨h2.1.twins.entry htop, .tail _ h2.1.mem, h2.1.isInd, h2.1.isInd'⟩
        refine (both_bind_of_ok rfl rfl).2 ?_
        refine (hhead.alloc (.app (.head _) (.tail _ (.head _)))).bind fun w w' m3 m3' h3 => ?_
        refine (h3.1.alloc (.comb _)).bind fun k k' m4 m4' h4 => ?_
        refine (h4.1.alloc (.app (.head _) (.tail _ (.tail _ (.tail _ (.tail _ (.head _))))))).bind
          fun l l' m5 m5' h5 => ?_
        exact twins_overwrite h5.1 (.app (.head _) (.tail _ (.tail _ (.head _))))
    | int | char | double | ptr => exact hmismatch

/-- A primitive with its arguments evaluated fires alike on twins. -/
theorem lockstep_firePrimitive {ev' : Evaluators} (hev : EvaluatorsAgree ev ev') (hp : p ≠ .perform)
    (h : Evaluated p m m' top args args') :
    Both (firePrimitive ev p top) (firePrimitive ev' p top) m m' BothFired := by
  have ht := h.twins.trace
  have hredex : entry (top - p.arity) m = .ok (m.stack.getD (top - args.length) 0) m := by
    rw [h.arity]; rfl
  have hredex' : entry (top - p.arity) m' = .ok (m'.stack.getD (top - args.length) 0) m' := by
    rw [h.arity]; rfl
  have hlen := h.arity
  have hr := h.rewriting
  refine (both_bind_of_ok hredex hredex').2 ?_
  cases p with
  | add | sub | mul => exact both_intRule h hr (by decide) fun _ _ => .scalar _
  | quot | rem => exact both_divisionRule h hr (by decide)
  | eq | ne | lt | le | gt | ge => exact both_intRule h hr (by decide) fun _ _ => .comb _
  | fadd | fsub | fmul | fdiv => exact both_doubleRule h hr (by decide) fun _ _ => .scalar _
  | feq | flt | fle => exact both_doubleRule h hr (by decide) fun _ _ => .comb _
  | neg | intToDouble =>
    exact Agree.bind (h.int (by decide)) fun _ => hr.leaf (.scalar _)
  | ord => exact Agree.bind (h.char (by decide)) fun _ => hr.leaf (.scalar _)
  | doubleToInt => exact Agree.bind (h.double (by decide)) fun _ => hr.leaf (.scalar _)
  | chr =>
    refine Agree.bind (h.int (by decide)) fun n => ?_
    cases charOf? n with
    | some c => exact hr.leaf (.scalar _)
    | none => exact both_fail rfl ht
  | showInt => exact Agree.bind (h.int (by decide)) fun _ => hr.string _
  | showDouble => exact Agree.bind (h.double (by decide)) fun _ => hr.string _
  | seq => exact both_forward_arg h.toRedexes (by rw [hlen]; decide)
  | tick =>
    refine Agree.bind (h.int (by decide)) fun n => ?_
    refine both_countTick_bind h.twins n fun stats h1 => ?_
    have hredexes : Redexes { m with stats } { m' with stats } top args args' :=
      { h.toRedexes with twins := h1 }
    exact both_forward_arg hredexes (by rw [hlen]; decide)
  | error =>
    refine h.toRedexes.arg_bind (by rw [hlen]; decide) fun a a' _ haa => ?_
    have haa' : Twins m m' [(a, a')] := h.rewriting.twins.mono (forall_mem_singleton.2 (.tail _ haa))
    refine (hev _ _ _ _ haa').bind fun v v' m1 m1' h1 => ?_
    obtain ⟨rfl, ht1⟩ := h1
    exact both_fail rfl ht1
  | noMatch => exact both_fail rfl ht
  | unpack => exact lockstep_fireUnpack h
  | nullPtr | stdin | stdout | stderr => exact hr.leaf (.scalar _)
  | ptrAdd =>
    exact Agree.bind (h.ptr (by decide)) fun _ => Agree.bind (h.int (by decide)) fun _ =>
      hr.leaf (.scalar _)
  | ptrEq =>
    exact Agree.bind (h.ptr (by decide)) fun _ => Agree.bind (h.ptr (by decide)) fun _ =>
      hr.leaf (.comb _)
  | perform => exact absurd rfl hp
  | getChar | putChar | flush | openFile | close | getArgs | exit | malloc | free | peek | poke =>
    exact both_malformed ht

end Primitives

/-!
## Waiting for arguments
-/

/-- How twins have come out of a rule. -/
def FiredAlike (r r' : Fired) (m m' : Machine) : Prop :=
  match r, r' with
  | .yes, .yes => Twins m m' []
  | .waitingFor a, .waitingFor a' => Twins m m' [(a, a')]
  | _, _ => False

/-- A rule waits for an argument whose spine does not fit on the stack. -/
def RuleDoomed (x : Run Fired) (m : Machine) : Prop :=
  ∃ a, x m = .ok (.waitingFor a) m ∧ m.Oversized a

/-- Twins come out of a rule alike, unless one of them will overflow its stack. -/
def RulesAgree (x x' : Run Fired) (m m' : Machine) : Prop :=
  RuleDoomed x m ∨ RuleDoomed x' m' ∨ Both x x' m m' FiredAlike

theorem RulesAgree.of_fired {x x' : Run Fired} {m m' : Machine} (h : Both x x' m m' BothFired) :
    RulesAgree x x' m m' := by
  refine Or.inr (Or.inr (h.mono fun r r' m1 m1' h1 => ?_))
  obtain ⟨rfl, rfl, h1⟩ := h1
  exact h1

section Waiting

variable {m m' : Machine} {held : List (Nat × Nat)} {outer base top n : Nat}
  {args args' : List Nat} {a f : Nat} {p : Primitive}

theorem Oversized.isWhnfIn (h : m.Oversized a) : m.isWhnfIn a = false := by
  obtain ⟨args, y, hu, hlt⟩ := h
  rw [hu.isWhnfIn_eq, decide_eq_false (by omega), Bool.false_and]

/-- Spines of one length hold twin arguments, read from the top. -/
theorem Spines.redexes (h : Twins m m' held) (hs : Spines outer base m) (hs' : Spines outer base m')
    (hn : (m.heap.get m.onTop).NotApp)
    (hi : (m.heap.get m.onTop).isInd = false)
    (hi' : (m'.heap.get (m'.stack.getD (m.stack.size - 1) 0)).isInd = false)
    (hle : n ≤ m.stack.size - 1 - base) :
    ∃ args args', args.length = n ∧ Redexes m m' (m.stack.size - 1) args args' := by
  have hlt := hs.base_lt
  have htop := (h.entry (i := m.stack.size - 1) (by omega)).alike (.head _) hi hi'
  have hn' := hn
  rw [← htop.eq_of_notApp hn, ← h.size] at hn'
  rw [← h.size] at hi'
  obtain ⟨args, -, hlen, hargs⟩ := hs.current.unwinds hn hi (q := m.stack.size - 1 - n)
    (by omega) (by omega)
  obtain ⟨args', -, hlen', hargs'⟩ := hs'.current.unwinds hn' hi' (q := m.stack.size - 1 - n)
    (by omega) (by rw [h.size]; omega)
  rw [h.size] at hlen' hargs'
  obtain rfl : n = args.length := by omega
  refine ⟨args, args', rfl, h.nil, by omega, by omega, hs.redex_isInd hi hle, ?_, hargs, hargs'⟩
  have hr := hs'.redex_isInd hi' (n := args.length) (by rw [h.size]; exact hle)
  rw [h.size] at hr
  exact hr

theorem hasSpine_reserve (hm : m.Safe []) {i : Nat} (hi : i < m.stack.size)
    (hc : m.heap.get (m.stack.getD i 0) = .app f a) (hs : m.HasSpine a) (k : Nat) :
    Meets (reserve k) m (fun _ m1 => ∃ f' a', m1.heap.get (m.stack.getD i 0) = .app f' a' ∧
      m1.HasSpine a') fun _ _ => True := by
  obtain ⟨G, hG, -⟩ := hm
  refine meets_reserve hG (fun _ _ => ⟨f, a, hc, hs⟩) (fun h' hcol _ _ => ?_) fun _ _ _ => trivial
  obtain ⟨args, y, hu⟩ := hs
  have hk := hG.kept_entry hi
  obtain ⟨-, hka⟩ := kept_app hG.closed hG.roots hk hc
  have hz := hG.closed.stands_resolve (hG.closed.app (hG.entry hi) hc).2
  refine ⟨m.heap.resolve f, m.heap.resolve a, ?_, _, _,
    ((hu.of_sameEnd ⟨_, hz, .here hz.isInd_eq_false⟩).collect hG.closed hG.roots hcol hka).1⟩
  rw [hcol.kept _ hk]
  simp only [Heap.shortcuts, hc, Cell.skip]

/-- Room was made in the middle of an unwinding. -/
structure MadeRoom (outer base : Nat) (m m1 : Machine) : Prop where
  spines : Spines outer base m1
  carries : Carries m.heap.get m1.heap.get m.stack fun _ => True
  steady : Steady m m1

theorem MadeRoom.head {m1 : Machine} {i : Nat} {r : Nat × Nat} (h : MadeRoom outer base m m1)
    (hi : i < m.stack.size) (hr : strictness (m.heap.get (m.stack.getD i 0)) = some r) :
    (m1.heap.get (m.stack.getD i 0)).NotApp ∧ (m1.heap.get (m.stack.getD i 0)).isInd = false :=
  isHead_of_strictness (h.carries.head i hi trivial r hr)

/-- **Both machines make room** in the middle of an unwinding. -/
theorem lockstep_reserve (h : Twins m m' held) (hs : Spines outer base m)
    (hs' : Spines outer base m') (k : Nat) : Both (reserve k) (reserve k) m m' fun _ _ m1 m1' =>
      Twins m1 m1' [] ∧ MadeRoom outer base m m1 ∧ MadeRoom outer base m' m1' := by
  have hl := (spines_reserve hs h.safe.nil k).and (Quiet.reserve k m)
  have hr := (spines_reserve hs' h.symm.safe.nil k).and (Quiet.reserve k m')
  refine (((twins_reserve h k).and_left hl).and_right hr).mono fun _ _ m1 m1' h1 => ?_
  obtain ⟨⟨h1, hl, hst⟩, hr, hst'⟩ := h1
  exact ⟨h1, ⟨hl.1, hl.2, hst⟩, hr.1, hr.2, hst'⟩

/-- Both machines overwrite the redex by the same alternative. -/
theorem lockstep_selectAlternative {tag : Nat} (h : Redexes m m' top args args')
    (hn : args.length = n + 1) (htag : tag < n)
    (hc : m.heap.get (m.stack.getD (top - 1) 0) = .app f a) (hs : m.HasSpine a) :
    Both (selectAlternative n top tag) (selectAlternative n top tag) m m' BothFired := by
  have hlen := h.length
  obtain ⟨g, hscrut⟩ := h.hasArgs 0 (args[0]) (by simp)
  obtain ⟨g', hscrut'⟩ := h.hasArgs' 0 (args'[0]) (by simp)
  obtain ⟨l, halt⟩ := h.hasArgs (tag + 1) (args[tag + 1]) (by simp)
  obtain ⟨l', halt'⟩ := h.hasArgs' (tag + 1) (args'[tag + 1]) (by simp)
  rw [hc] at hscrut
  cases hscrut
  obtain ⟨fields, y, hu⟩ := hs
  obtain ⟨fields', y', hu', hfields, -, htw⟩ :=
    h.rewriting.twins.unwinds (.tail _ (mem_zip (k := 0) (by omega) hlen)) hu
  have hzip : ∀ p ∈ (args[tag + 1] :: fields).zip (args'[tag + 1] :: fields'),
      p ∈ (y, y') :: fields.zip fields' ++ ((m.stack.getD (top - args.length) 0,
        m'.stack.getD (top - args.length) 0) :: args.zip args') := by
    intro p hp
    rw [zip_cons_cons] at hp
    rcases mem_cons.1 hp with rfl | hp
    · exact mem_append_right _ (.tail _ (mem_zip (by omega) hlen))
    · exact mem_append_left _ (.tail _ hp)
  have hfits : (Shape.applied fields.length).Fits (args[tag + 1] :: fields).length :=
    Shape.applied_fits (by simp)
  have hr : Rewriting m m' _ _ _ := ⟨htw, mem_append_right _ (.head _), h.isInd, h.isInd'⟩
  have hb := hr.contract hzip (by simp [hfields]) hfits
  unfold Both
  rw [selectAlternative_eq_contract hc hu.spineOf_eq halt,
    selectAlternative_eq_contract hscrut' hu'.spineOf_eq halt', hfields, ← hn]
  exact hb

theorem fireCase_eq_waiting (ha : arg top 1 m = .ok a m) (hw : m.isWhnfIn a = false) :
    fireCase n top m = .ok (.waitingFor a) m := by
  have hisWhnf : isWhnf a m = .ok false m := by rw [← hw]; rfl
  unfold fireCase
  rw [bind_ok ha, bind_ok hisWhnf]
  rfl

/-- A case on an evaluated scrutinee selects alike. -/
theorem lockstep_evaluatedCase {k : UInt32} (h : Twins m m' []) (hs : Spines outer base m)
    (hs' : Spines outer base m') (htop : m.heap.get m.onTop = .comb (.caseOf k))
    (hi' : (m'.heap.get (m'.stack.getD (m.stack.size - 1) 0)).isInd = false)
    (hle : k.toNat + 1 ≤ m.stack.size - 1 - base) {a' : Nat}
    (hc : m.heap.get (m.stack.getD (m.stack.size - 1 - 1) 0) = .app f a)
    (harg' : arg (m.stack.size - 1) 1 m' = .ok a' m') (htw : Twins m m' [(a, a')])
    (hw : m.isWhnfIn a = true) (hw' : m'.isWhnfIn a' = true) :
    Both (fireCase k.toNat (m.stack.size - 1)) (fireCase k.toNat (m.stack.size - 1)) m m'
      FiredAlike := by
  have hlt := hs.base_lt
  have htop' : m'.heap.get (m'.stack.getD (m.stack.size - 1) 0) = .comb (.caseOf k) := by
    have ha := (h.entry (i := m.stack.size - 1) (by omega)).alike (.head _) (by rw [htop]; rfl) hi'
    rw [← htop]
    exact ha.eq_of_notApp (by rw [htop]; exact fun _ _ h => by cases h)
  have hspine := hasSpine_of_isWhnfIn (htw.safe_left (.head _)) hw
  obtain ⟨z, z', hres, hres', hz, hz', hzz⟩ := htw.resolve (.head _)
  obtain ⟨fields, y, hu⟩ := hspine.of_stands hz
  obtain ⟨fields', y', hu', hfields, hy, -⟩ := hzz.unwinds (.head _) hu
  have hisWhnf : isWhnf a m = .ok true m := by rw [← hw]; rfl
  have hisWhnf' : isWhnf a' m' = .ok true m' := by rw [← hw']; rfl
  have hsp : spine z m = .ok (y, fields) m := by rw [← hu.spineOf_eq]; rfl
  have hsp' : spine z' m' = .ok (y', fields') m' := by rw [← hu'.spineOf_eq]; rfl
  have hd : describe z m = .ok (describeIn m.heap z) m := rfl
  have hd' : describe z' m' = .ok (describeIn m.heap z) m' := by
    rw [← twins_describe hzz (.head _) (hspine.of_stands hz)]; rfl
  -- what is no saturated constructor is reported with the same description
  have hmismatch : ∀ {α : Type} {Q : α → α → Machine → Machine → Prop},
      Both (do fail (.typeMismatch "case" "a saturated constructor" (← describe z)) : Run α)
        (do fail (.typeMismatch "case" "a saturated constructor" (← describe z')) : Run α)
        m m' Q := by
    intro α Q
    rw [both_bind_of_ok hd hd']
    exact both_fail rfl h.trace
  unfold fireCase
  rw [both_bind_of_ok (arg_eq_ok hc) harg', both_bind_of_ok hisWhnf hisWhnf']
  simp only [Bool.not_true, Bool.false_eq_true, if_false]
  rw [both_bind_of_ok hres hres', both_bind_of_ok hsp hsp', both_bind_cell, hy]
  cases m.heap.get y with
  | comb c =>
    cases c with
    | con tag arity =>
      simp only [hfields]
      by_cases hlen : fields.length ≠ arity.toNat
      · simp only [if_pos hlen]
        rw [both_bind_of_ok hd hd']
        exact both_fail rfl h.trace
      by_cases htag : k.toNat ≤ tag.toNat
      · simp only [if_neg hlen, if_pos htag]
        exact both_fail rfl h.trace
      simp only [if_neg hlen, if_neg htag]
      -- either machine may collect here, so the redexes are found again
      refine ((lockstep_reserve h hs hs' _).and_left
        (hasSpine_reserve h.safe (by omega) hc hspine _)).bind fun _ _ m1 m1' h1 => ?_
      obtain ⟨⟨h1, hm1, hm1'⟩, f1, a1, hc1, hspine1⟩ := h1
      have hhead := hm1.head (i := m.stack.size - 1) (by omega) (by rw [htop]; rfl)
      have hhead' := hm1'.head (i := m.stack.size - 1) (by rw [h.size]; omega) (by rw [htop']; rfl)
      rw [← hm1.steady.stack] at hhead hhead' hc1 hle ⊢
      rw [← hm1'.steady.stack] at hhead'
      obtain ⟨args, args', hn, hr⟩ := hm1.spines.redexes h1 hm1'.spines hhead.1 hhead.2 hhead'.2 hle
      refine (lockstep_selectAlternative hr hn (by omega) hc1 hspine1).mono fun r r' m2 m2' h2 => ?_
      obtain ⟨rfl, rfl, h2⟩ := h2
      exact h2
    | _ => exact hmismatch
  | _ => exact hmismatch

/-- A case fires alike, unless one scrutinee will overflow its stack. -/
theorem lockstep_fireCase {k : UInt32} (h : Twins m m' []) (hs : Spines outer base m)
    (hs' : Spines outer base m')
    (htop : m.heap.get m.onTop = .comb (.caseOf k))
    (hi' : (m'.heap.get (m'.stack.getD (m.stack.size - 1) 0)).isInd = false)
    (hle : k.toNat + 1 ≤ m.stack.size - 1 - base) :
    RulesAgree (fireCase k.toNat (m.stack.size - 1)) (fireCase k.toNat (m.stack.size - 1)) m m' := by
  obtain ⟨args, args', hn, hr⟩ := hs.redexes h hs' (by rw [htop]; exact fun _ _ h => by cases h)
    (by rw [htop]; rfl) hi' hle
  have hlen := hr.length
  have hlt := hs.base_lt
  obtain ⟨f, hc⟩ := hr.hasArgs 0 (args[0]) (by simp)
  obtain ⟨f', hc'⟩ := hr.hasArgs' 0 (args'[0]) (by simp)
  have harg := arg_eq_ok hc
  have harg' := arg_eq_ok hc'
  have hpair := mem_zip (k := 0) (by omega) hlen
  generalize args[0] = a at hc harg hpair
  generalize args'[0] = a' at hc' harg' hpair
  have htw : Twins m m' [(a, a')] := hr.rewriting.twins.mono (forall_mem_singleton.2 (.tail _ hpair))
  rcases twins_isWhnf htw (.head _) with heq | ho | ho
  · right; right
    cases hw : m.isWhnfIn a with
    | false =>
      rw [hw] at heq
      unfold Both
      rw [fireCase_eq_waiting harg hw, fireCase_eq_waiting harg' heq.symm]
      exact htw
    | true =>
      rw [hw] at heq
      exact lockstep_evaluatedCase h hs hs' htop hi' hle hc harg' htw hw heq.symm
  · exact Or.inl ⟨a, fireCase_eq_waiting harg ho.isWhnfIn, ho⟩
  · exact Or.inr (Or.inl ⟨a', fireCase_eq_waiting harg' ho.isWhnfIn, ho⟩)

/-- How twins agree on the first argument that is not evaluated. -/
def FoundAlike (m m' : Machine) (pairs : List (Nat × Nat)) (r r' : Option Nat) (m1 m1' : Machine) :
    Prop :=
  m1 = m ∧ m1' = m' ∧ match r, r' with
    | none, none => True
    | some a, some a' => (a, a') ∈ pairs
    | _, _ => False

/-- Both machines find the same argument unevaluated, or one an oversized one. -/
theorem lockstep_firstUnevaluated (h : Redexes m m' top args args') (k n : Nat)
    (hn : k + n ≤ args.length) :
    (∃ a, firstUnevaluated top (k + 1) n m = .ok (some a) m ∧ m.Oversized a) ∨
      (∃ a, firstUnevaluated top (k + 1) n m' = .ok (some a) m' ∧ m'.Oversized a) ∨
      Both (firstUnevaluated top (k + 1) n) (firstUnevaluated top (k + 1) n) m m'
        (FoundAlike m m' (args.zip args')) := by
  induction n generalizing k with
  | zero => exact Or.inr (Or.inr ⟨rfl, rfl, trivial⟩)
  | succ n ih =>
    have hlen := h.length
    obtain ⟨f, hc⟩ := h.hasArgs k (args[k]) (by simp)
    obtain ⟨f', hc'⟩ := h.hasArgs' k (args'[k]) (by simp)
    have hpair := mem_zip (k := k) (by omega) hlen
    have hone : ∀ {m : Machine} {a : Nat}, arg top (k + 1) m = .ok a m →
        firstUnevaluated top (k + 1) (n + 1) m =
          if m.isWhnfIn a then firstUnevaluated top (k + 1 + 1) n m else .ok (some a) m := by
      intro m a ha
      have hw : isWhnf a m = .ok (m.isWhnfIn a) m := rfl
      conv_lhs => unfold firstUnevaluated
      rw [bind_ok ha, bind_ok hw]
      split <;> rfl
    have hl := hone (arg_eq_ok hc)
    have hr := hone (arg_eq_ok hc')
    rcases twins_isWhnf h.rewriting.twins (.tail _ hpair) with heq | ho | ho
    · cases hw : m.isWhnfIn args[k] with
      | true =>
        rw [hw, if_pos rfl] at hl
        rw [← heq, hw, if_pos rfl] at hr
        unfold Both
        rw [hl, hr]
        exact ih (k + 1) (by omega)
      | false =>
        rw [hw, if_neg (by decide)] at hl
        rw [← heq, hw, if_neg (by decide)] at hr
        refine Or.inr (Or.inr ?_)
        unfold Both
        rw [hl, hr]
        exact ⟨rfl, rfl, hpair⟩
    · rw [ho.isWhnfIn, if_neg (by decide)] at hl
      exact Or.inl ⟨_, hl, ho⟩
    · rw [ho.isWhnfIn, if_neg (by decide)] at hr
      exact Or.inr (Or.inl ⟨_, hr, ho⟩)

theorem fireStrict_eq_waiting (h : firstUnevaluated top 1 p.forced m = .ok (some a) m) :
    fireStrict ev p top m = .ok (.waitingFor a) m := by
  unfold fireStrict
  rw [bind_ok h]
  rfl

/-- A strict primitive asks for the same argument or fires alike. -/
theorem lockstep_fireStrict {ev' : Evaluators} (hev : EvaluatorsAgree ev ev') (hp : p ≠ .perform)
    (h : Redexes m m' top args args') (hn : args.length = p.arity) :
    RulesAgree (fireStrict ev p top) (fireStrict ev' p top) m m' := by
  have hforced := Primitive.forced_le_arity p
  rcases lockstep_firstUnevaluated h 0 p.forced (by omega) with ⟨a, ha, ho⟩ | ⟨a, ha, ho⟩ | hb
  · exact Or.inl ⟨a, fireStrict_eq_waiting ha, ho⟩
  · exact Or.inr (Or.inl ⟨a, fireStrict_eq_waiting ha, ho⟩)
  refine Or.inr (Or.inr ((hb.and_left (firstUnevaluated_spec 1 p.forced)).bind
    fun r r' m1 m1' h1 => ?_))
  obtain ⟨⟨rfl, rfl, hfound⟩, -, hspec⟩ := h1
  cases r with
  | some a =>
    cases r' with
    | some a' =>
      exact h.rewriting.twins.mono (forall_mem_singleton.2 (.tail _ hfound))
    | none => exact hfound.elim
  | none =>
    cases r' with
    | some a' => exact hfound.elim
    | none =>
      have he : Evaluated p m1 m1' top args args' := by
        refine ⟨h, hn, fun k a hk ha => ?_⟩
        obtain ⟨f, hc⟩ := h.hasArgs k a ha
        rw [Nat.add_comm] at hc
        have hklt : k < args.length := by omega
        obtain rfl : args[k] = a := by simpa [hklt] using ha
        exact hasSpine_of_isWhnfIn (h.rewriting.twins.safe_left (.tail _ (mem_zip hklt h.length)))
          (hspec k f _ hk hc)
      refine (lockstep_firePrimitive hev hp he).mono fun r r' m2 m2' h2 => ?_
      obtain ⟨rfl, rfl, h2⟩ := h2
      exact h2

end Waiting

/-!
## Steps
-/

/-- How twins have come out of a step. -/
def ProgressAlike (r r' : Progress) (m m' : Machine) : Prop :=
  match r, r' with
  | .again, .again => Twins m m' []
  | .force a, .force a' => Twins m m' [(a, a')]
  | .done, .done => Twins m m' []
  | _, _ => False

/-- A step finds that a cell has to be evaluated whose spine does not fit on the stack. -/
def StepDoomed (x : Run Progress) (m : Machine) : Prop :=
  ∃ a, x m = .ok (.force a) m ∧ m.Oversized a

/-- Twins come out of a step alike, unless one of them will overflow its stack. -/
def StepsAgree (x x' : Run Progress) (m m' : Machine) : Prop :=
  StepDoomed x m ∨ StepDoomed x' m' ∨ Both x x' m m' ProgressAlike

section Step

variable {m m' : Machine} {ev ev' : Evaluators} {outer base top n : Nat} {x x' : Run Fired}

theorem both_afterRule (h : Both x x' m m' FiredAlike) :
    Both (do afterRule top n (← x)) (do afterRule top n (← x')) m m' ProgressAlike := by
  refine h.bind fun r r' m1 m1' h1 => ?_
  cases r <;> cases r'
  · have h2 := (h1.counters { m1.stats with steps := m1.stats.steps + 1 }).shrink (top - n + 1)
    show Twins _ { m1' with stats := _, stack := _ } []
    simp only [h1.trace.stats]
    exact h2
  · exact h1.elim
  · exact h1.elim
  · exact h1

theorem RulesAgree.step (h : RulesAgree x x' m m')
    (hx : step ev base m = (do afterRule top n (← x) : Run Progress) m)
    (hx' : step ev' base m' = (do afterRule top n (← x') : Run Progress) m') :
    StepsAgree (step ev base) (step ev' base) m m' := by
  refine h.imp (fun hd => ?_) (Or.imp (fun hd => ?_) fun hb => .congr hx hx' (both_afterRule hb))
  · obtain ⟨a, ha, ho⟩ := hd
    exact ⟨a, by rw [hx, bind_ok ha]; rfl, ho⟩
  · obtain ⟨a, ha, ho⟩ := hd
    exact ⟨a, by rw [hx', bind_ok ha]; rfl, ho⟩

/-- **A step in lockstep**, where neither machine has an indirection on top: twins take the same
step, unless one of them goes for a spine that does not fit on its stack. -/
theorem lockstep_step (hev : EvaluatorsAgree ev ev') (h : Twins m m' []) (hs : Spines outer base m)
    (hs' : Spines outer base m')
    (hi : (m.heap.get m.onTop).isInd = false)
    (hi' : (m'.heap.get (m'.stack.getD (m.stack.size - 1) 0)).isInd = false) :
    StepsAgree (step ev base) (step ev' base) m m' := by
  have hlt := hs.base_lt
  have htops := h.entry (i := m.stack.size - 1) (by omega)
  have halike := htops.alike (.head _) hi hi'
  have hsize := h.size
  -- what is no application is the same in both
  have hsame : (m.heap.get m.onTop).NotApp → m'.heap.get m'.onTop = m.heap.get m.onTop := by
    intro hn
    rw [onTop, hsize]
    exact halike.eq_of_notApp hn
  obtain ⟨x, hx⟩ := exists_stepIs ev base m
  cases hx with
  | app hc =>
    cases hc' : m'.heap.get (m'.stack.getD (m.stack.size - 1) 0) with
    | app f' a' =>
      rw [hc, hc'] at halike
      rw [← hsize] at hc'
      cases halike with
      | app hf _ =>
        refine Or.inr (Or.inr (.congr (StepIs.app hc).eq (StepIs.app hc').eq ?_))
        exact (twins_push hf (.head _)).bind fun _ _ _ _ h1 => h1.1.nil
    | _ => rw [hc, hc'] at halike; cases halike
  | ind hc | loop hc => rw [hc] at hi; cases hi
  | free hc => rw [hc] at halike; cases halike
  | done hr =>
    have hr' : rests (m'.heap.get m'.onTop) (m'.stack.size - 1 - base) = true := by
      rw [hsame (notApp_of_rests hr), hsize]; exact hr
    exact Or.inr (Or.inr ((both_of_ok (StepIs.done hr).eq (StepIs.done hr').eq).2 h))
  | comb hc hn hle =>
    have hhead : (m.heap.get m.onTop).NotApp := by rw [hc]; exact fun _ _ h => by cases h
    have hstep' : step ev' base m' = _ :=
      (StepIs.comb ((hsame hhead).trans hc) hn (by rw [hsize]; exact hle)).eq
    rw [hsize] at hstep'
    refine RulesAgree.step ?_ (StepIs.comb hc hn hle).eq hstep'
    rcases Combinator.contractum_or_caseOf hn with ⟨s, hcon⟩ | ⟨k, rfl, rfl⟩
    · obtain ⟨args, args', rfl, hr⟩ := hs.redexes h hs' hhead hi hi' hle
      exact .of_fired (lockstep_fire hr hcon hn)
    · exact lockstep_fireCase h hs hs' hc hi' hle
  | @prim p hc ha hle =>
    have hhead : (m.heap.get m.onTop).NotApp := by rw [hc]; exact fun _ _ h => by cases h
    have hp : p ≠ .perform := by
      rw [halike.eq_of_notApp hhead, hc] at halike
      cases halike with
      | prim hp => exact hp
    have hstep' : step ev' base m' = _ :=
      (StepIs.prim ((hsame hhead).trans hc) ha (by rw [hsize]; exact hle)).eq
    rw [hsize] at hstep'
    obtain ⟨args, args', hlen, hr⟩ := hs.redexes h hs' hhead hi hi' hle
    exact (lockstep_fireStrict hev hp hr hlen).step (StepIs.prim hc ha hle).eq hstep'
  | scalar hc hne =>
    have hhead : (m.heap.get m.onTop).NotApp := by rw [hc]; exact fun _ _ h => by cases h
    have hd : describeIn m'.heap m'.onTop = describeIn m.heap m.onTop := by
      rw [onTop, hsize]
      exact twins_describe htops (.head _) ⟨[], _, .head (.here hi) hhead⟩
    have hstep' : step ev' base m' = _ :=
      (StepIs.scalar ((hsame hhead).trans hc) (by rw [hsize]; exact hne)).eq
    refine Or.inr (Or.inr ?_)
    unfold Both
    rw [(StepIs.scalar hc hne).eq, hstep', hd]
    exact Or.inr (Or.inr ⟨rfl, h.trace⟩)

end Step

end Machine

end GraphReduction
