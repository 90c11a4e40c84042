import GraphReduction.Proofs.Machine.Agreement
import GraphReduction.Proofs.Machine.Unfolding

/-!
# Firing rules on a graph with trees

Where the tree of a spine has a weak head normal form, the rule of its head neither fails nor ties a
loop, and what it waits for has a weak head normal form as well. The trees of the roots are reduced
by it, at most.
-/

namespace GraphReduction

open List
open GraphReduction.Tree (Red Evaluates Eval Par)

/-- The cell of a result of a primitive. -/
def Cell.ofResult : Literal ⊕ Bool → Cell
  | .inl l => .scalar (.ofLiteral l)
  | .inr b => .comb (.ofBool b)

theorem Primitive.forced_of_result? {p : Primitive} {lits : List Literal} {r : Literal ⊕ Bool}
    (h : p.result? lits = some r) : p.forced = p.arity := by
  unfold result? at h
  split at h <;> first | rfl | cases h

namespace Machine

variable {Δ : Name → Option Tree} {m m' : Machine} {G G' : Nat → Prop} {σ σ' : Nat → Tree}
  {x y top i n outer base : Nat} {args : List Nat} {c : Combinator} {p : Primitive} {ev : Evaluators}

/-- The redex of the head on top of the stack and `n` arguments. -/
def redexOf (m : Machine) (n : Nat) : Nat := m.stack.getD (m.stack.size - 1 - n) 0

/-- The head on top of the stack is the atom `a`, and `args` are the arguments of its rule. The tree
of the spine around the redex has a weak head normal form. -/
structure Saturated (Δ : Name → Option Tree) (m : Machine) (G : Nat → Prop) (σ : Nat → Tree)
    (a : Atom) (args : List Nat) : Prop where
  unfolds : Unfolds Δ m G σ
  length_lt : args.length < m.stack.size
  hasArgs : m.HasArgs (m.stack.size - 1) args
  red : Red Δ (σ (m.redexOf args.length)) ((Tree.atom a).apps (args.map σ))
  evaluates : ∃ rest, Evaluates Δ ((σ (m.redexOf args.length)).apps rest)

/-- The trees of the roots have been reduced, to trees of the cells of `m'`. -/
def Reduced (Δ : Name → Option Tree) (m : Machine) (σ : Nat → Tree) (m' : Machine) : Prop :=
  ∃ G' σ', Unfolds Δ m' G' σ' ∧ ∀ x ∈ m.roots, Red Δ (σ x) (σ' x)

/-- How a rule leaves the trees. -/
def RuleReduces (Δ : Name → Option Tree) (m : Machine) (G : Nat → Prop) (σ : Nat → Tree) :
    Fired → Machine → Prop
  | .yes, m' => Reduced Δ m σ m'
  | .waitingFor a, m' => m' = m ∧ G a ∧ Evaluates Δ (σ a)

theorem Unfolds.safe (h : Unfolds Δ m G σ) : m.Safe [] := ⟨G, h.sound, by simp⟩

/-- A spine on the stack reads as its top applied to arguments. -/
theorem Unfolds.segment (h : Unfolds Δ m G σ) {b t q : Nat}
    (hs : Segment m.heap.get m.stack b t) (ht : t < m.stack.size)
    (hi : (m.heap.get (m.stack.getD t 0)).isInd = false) (hbq : b ≤ q) (hqt : q ≤ t) :
    ∃ rest, Red Δ (σ (m.stack.getD b 0)) ((σ (m.stack.getD q 0)).apps rest) := by
  induction q, hbq using Nat.le_induction with
  | base => exact ⟨[], .refl⟩
  | succ q hbq ih =>
    obtain ⟨rest, hrest⟩ := ih (by omega)
    obtain ⟨f, a, hc, z, hf, hz⟩ := hs q hbq (by omega)
    -- the entries above the base are no indirections
    have hend : (m.heap.get (m.stack.getD (q + 1) 0)).isInd = false := by
      rcases Nat.lt_or_ge (q + 1) t with hlt | hge
      · obtain ⟨f', a', hc', -⟩ := hs (q + 1) (by omega) hlt
        rw [hc']; rfl
      · rw [show q + 1 = t by omega]; exact hi
    rw [hz.eq_self hend] at hf
    have hG := h.sound.entry (i := q) (by omega)
    have hshow := h.shows _ hG
    rw [hc] at hshow
    refine ⟨σ a :: rest, hrest.trans (Red.apps (.trans hshow ?_) rest)⟩
    exact Red.app (h.stands (h.sound.closed.app hG hc).1 hf) .refl

theorem exists_saturated (h : Unfolds Δ m G σ) (hs : Spines outer base m)
    (he : Evaluates Δ (σ (m.stack.getD base 0))) {a : Atom}
    (hn : (m.heap.get m.onTop).NotApp)
    (hi : (m.heap.get m.onTop).isInd = false)
    (ha : Red Δ (σ m.onTop) (.atom a))
    (hle : n ≤ m.stack.size - 1 - base) :
    ∃ args, args.length = n ∧ Saturated Δ m G σ a args := by
  have hlt := hs.base_lt
  obtain ⟨args, hu, hlen, hargs⟩ :=
    hs.current.unwinds hn hi (q := m.stack.size - 1 - n) (by omega) (by omega)
  obtain rfl : n = args.length := by omega
  obtain ⟨-, -, hred⟩ := h.unwinds (h.sound.entry (by omega)) hu
  obtain ⟨rest, hrest⟩ :=
    h.segment hs.current (by omega) hi (q := m.stack.size - 1 - args.length) (by omega) (by omega)
  exact ⟨args, rfl, h, by omega, hargs, .trans hred (Red.apps ha _), rest, he.red hrest⟩

theorem exists_firstUnevaluated (h : m.HasArgs top args) (hi : i + n ≤ args.length) :
    ∃ r, firstUnevaluated top (i + 1) n m = .ok r m := by
  induction n generalizing i with
  | zero => exact ⟨none, rfl⟩
  | succ n ih =>
    rw [firstUnevaluated, bind_arg h i (getElem?_eq_getElem (by omega))]
    show ∃ r, (if m.isWhnfIn _ = true then firstUnevaluated top (i + 1 + 1) n
      else Pure.pure (some _)) m = .ok r m
    split
    · exact ih (by omega)
    · exact ⟨_, rfl⟩

section Literals

variable {lits : List Literal} {redex : Nat} {u v : Int64}

/-- The arguments below stack position `top` are literals. -/
def HasLiterals (m : Machine) (top : Nat) (lits : List Literal) : Prop :=
  ∀ (i : Nat) l, lits[i]? = some l → ∃ x, arg top (i + 1) m = .ok x m ∧
    m.heap.get (m.heap.resolve x) = .scalar (.ofLiteral l)

theorem valueOf_eq_ok {α : Type} {read : Cell → Option α} {expected : String} {r : α}
    (h : read (m.heap.get (m.heap.resolve x)) = some r) : valueOf read p expected x m = .ok r m := by
  have hcell : cell (m.heap.resolve x) m = .ok (m.heap.get (m.heap.resolve x)) m := rfl
  rw [valueOf, bind_ok (x := resolve x) rfl, bind_ok hcell, h]
  rfl

namespace HasLiterals

theorem int (h : m.HasLiterals top lits) (hl : lits[i]? = some (.int u)) :
    intArg p top (i + 1) m = .ok u m := by
  obtain ⟨x, hx, hc⟩ := h i _ hl
  rw [intArg, bind_ok hx, intValue_eq]
  exact valueOf_eq_ok (by rw [hc]; rfl)

theorem char (h : m.HasLiterals top lits) {c : Char} (hl : lits[i]? = some (.char c)) :
    charArg p top (i + 1) m = .ok c m := by
  obtain ⟨x, hx, hc⟩ := h i _ hl
  rw [charArg, bind_ok hx, charValue_eq]
  exact valueOf_eq_ok (by rw [hc]; rfl)

theorem intRule (h : m.HasLiterals top [.int u, .int v]) (f : Int64 → Int64 → Cell) :
    Machine.intRule p redex top f m = Machine.overwrite redex (f u v) m := by
  rw [Machine.intRule, bind_ok (h.int (i := 0) rfl), bind_ok (h.int (i := 1) rfl)]

theorem divisionRule (h : m.HasLiterals top [.int u, .int v]) (hv : v ≠ 0)
    (f : Int64 → Int64 → Int64) :
    Machine.divisionRule p redex top f m = Machine.overwrite redex (.int (f u v)) m := by
  rw [Machine.divisionRule, bind_ok (h.int (i := 0) rfl), bind_ok (h.int (i := 1) rfl), if_neg hv]

/-- **A primitive of literals is overwritten by its result.** -/
theorem firePrimitive {r : Literal ⊕ Bool} (h : m.HasLiterals top lits)
    (hr : p.result? lits = some r) : Machine.firePrimitive ev p top m =
      Machine.overwrite (m.stack.getD (top - p.arity) 0) (.ofResult r) m := by
  unfold Primitive.result? at hr
  split at hr
  case h_4 | h_5 =>
    split at hr
    · cases hr
    rename_i hv
    cases hr
    simp only [Machine.firePrimitive, bind_entry]
    exact h.divisionRule hv _
  case h_6 =>
    cases hr
    simp only [Machine.firePrimitive, bind_entry]
    rw [bind_ok (h.int (i := 0) rfl)]
    rfl
  case h_13 =>
    cases hr
    simp only [Machine.firePrimitive, bind_entry]
    rw [bind_ok (h.char (i := 0) rfl)]
    rfl
  case h_14 =>
    obtain ⟨c, hc, rfl⟩ := Option.map_eq_some_iff.1 hr
    simp only [Machine.firePrimitive, bind_entry]
    rw [bind_ok (h.int (i := 0) rfl), hc]
    rfl
  case h_15 => cases hr
  all_goals
    cases hr
    simp only [Machine.firePrimitive, bind_entry]
    exact h.intRule _

end HasLiterals

end Literals

namespace Saturated

variable {a : Atom}

section

variable (h : Saturated Δ m G σ a args)
include h

theorem redex_mem : G (m.redexOf args.length) := by
  have hlt := h.length_lt
  exact h.unfolds.sound.entry (by omega)

theorem mem (hx : args[i]? = some x) : G x := by
  obtain ⟨f, hc⟩ := h.hasArgs i x hx
  have hlt := h.length_lt
  exact (h.unfolds.sound.closed.app (h.unfolds.sound.entry (by omega)) hc).2

theorem forall_mem : ∀ x ∈ args, G x := by
  intro x hx
  obtain ⟨i, hi⟩ := getElem?_of_mem hx
  exact h.mem hi

theorem exists_eval :
    ∃ n rest w, Eval Δ n (((Tree.atom a).apps (args.map σ)).apps rest) w := by
  obtain ⟨rest, n, w, he⟩ := h.evaluates
  obtain ⟨w', he', -⟩ := (Red.apps h.red rest).eval he
  exact ⟨n, rest, w', he'⟩

/-- **What a redex is contracted to does not stand for the redex**, as its evaluation is lower. -/
theorem resolve_ne (hx : G x)
    (hlower : ∀ n rest w, Eval Δ n (((Tree.atom a).apps (args.map σ)).apps rest) w →
      ∃ k, n = k + 1 ∧ Eval Δ k ((σ x).apps rest) w) : m.heap.resolve x ≠ m.redexOf args.length := by
  intro heq
  obtain ⟨rest, hrest⟩ := h.evaluates
  obtain ⟨n, w, he, hleast⟩ := hrest.exists_least
  obtain ⟨w1, he1, -⟩ := (Red.apps h.red rest).eval he
  obtain ⟨k, rfl, he2⟩ := hlower _ _ _ he1
  have hback : Red Δ (σ x) (σ (m.redexOf args.length)) := heq ▸ h.unfolds.resolve hx
  obtain ⟨w3, he3, -⟩ := (Red.apps hback rest).eval he2
  exact hleast k w3 (Nat.lt_succ_self k) he3

end

/-!
## Combinators
-/

/-- A combinator's contractum is the reduct of its tree. -/
theorem fire {s : Shape} (h : Saturated Δ m G σ (.comb c) args) (hs : c.contractum = some s)
    (hn : c.arity = some args.length) :
    Meets (Machine.fire c (m.stack.size - 1)) m (RuleReduces Δ m G σ) fun e _ => e.Exhausted := by
  have hroots := h.unfolds.sound.roots
  unfold Meets
  rw [fire_eq_contract hs hn h.hasArgs]
  have hrule : Par Δ ((Tree.comb c).apps (args.map σ)) (Tree.shape (args.map σ) _ s) :=
    .contract c _ hs (by rw [length_map]; exact hn)
  by_cases hY : c = .Y
  · subst hY
    cases hs
    obtain ⟨f, rfl⟩ := length_eq_one_iff.1 (Option.some.inj hn).symm
    have hknot := h.unfolds.knot (h.forall_mem f (by simp)) h.redex_mem h.red
    exact ⟨G, _, hknot, fun x _ => Reading.le_update (R := Tree.reading Δ) h.red x⟩
  · have hfits := Combinator.contractum_fits hs hn
    have hred : Red Δ (σ (m.redexOf args.length))
        (Tree.shape (args.map σ) (σ (m.redexOf args.length)) s) := by
      rw [Tree.shape_contractum hs hY _ _ ((Tree.comb c).apps (args.map σ))]
      exact h.red.tail hrule
    refine (h.unfolds.contract h.forall_mem h.redex_mem hfits
      (by rw [Tree.shape_reading hfits]; exact hred)).mono (fun r m' h' => ?_) fun e _ he => ?_
    · obtain ⟨rfl, G', σ', h', hg⟩ := h'
      exact ⟨G', σ', h', fun x hx => by rw [hg.agree x (hroots x hx)]⟩
    rcases he with he | rfl | ⟨i, rfl, heq⟩
    · exact he
    · cases c <;> cases hs
    · refine absurd heq (h.resolve_ne (mem_of_getD h.forall_mem hfits) fun n rest w he => ?_)
      obtain ⟨k, hk, he'⟩ := he.of_contractum hs (by rw [length_map]; exact hn)
      have hi : i < args.length := hfits
      refine ⟨k, hk, ?_⟩
      simpa [Tree.shape, getD_eq_getElem?_getD, hi] using he'

section Cases

variable {k tag arity : UInt32} {scrut alt : Nat} {alts fields : List Nat}

theorem scrutinee (h : Saturated Δ m G σ (.comb (.caseOf k)) (scrut :: alts))
    (hu : Unwinds m.heap.get scrut fields y) (hcon : m.heap.get y = .comb (.con tag arity)) :
    Red Δ (σ scrut) ((Tree.comb (.con tag arity)).apps (fields.map σ)) := by
  obtain ⟨hy, -, hspine⟩ := h.unfolds.unwinds (h.mem (i := 0) rfl) hu
  have hshow := h.unfolds.shows y hy
  rw [hcon] at hshow
  exact .trans hspine (Red.apps hshow _)

/-- The tree of a case reduces to that of the alternative. -/
theorem alternative (h : Saturated Δ m G σ (.comb (.caseOf k)) (scrut :: alts))
    (hlen : alts.length = k.toNat) (hu : Unwinds m.heap.get scrut fields y)
    (hcon : m.heap.get y = .comb (.con tag arity)) (hfields : fields.length = arity.toNat)
    (halt : alts[tag.toNat]? = some alt) :
    Red Δ (σ (m.redexOf (scrut :: alts).length)) ((σ alt).apps (fields.map σ)) := by
  have hrule : Par Δ ((Tree.comb (.caseOf k)).apps
      ((Tree.comb (.con tag arity)).apps (fields.map σ) :: alts.map σ))
      ((σ alt).apps (fields.map σ)) := by
    refine .case (by rw [length_map]; exact hfields) (by rw [length_map]; exact hlen) rfl
      rfl ?_ ?_ (by rw [getElem?_map, halt]; rfl)
    all_goals
      intro i a a' ha ha'
      rw [ha] at ha'
      cases ha'
      exact .refl a
  exact (h.red.trans (Red.apps (Red.app .refl (h.scrutinee hu hcon)) (alts.map σ))).tail hrule

/-- A case fires to its alternative, or asks for the scrutinee. -/
theorem fireCase (h : Saturated Δ m G σ (.comb (.caseOf k)) args)
    (hlen : args.length = k.toNat + 1) :
    Meets (Machine.fireCase k.toNat (m.stack.size - 1)) m (RuleReduces Δ m G σ)
      fun e _ => e.Exhausted := by
  obtain ⟨scrut, alts, rfl⟩ := exists_cons_of_length_eq_add_one hlen
  have halts : alts.length = k.toNat := by simpa using hlen
  have hlt := h.length_lt
  have hscrut : G scrut := h.mem (i := 0) rfl
  -- the scrutinee has a constructor as its weak head normal form
  obtain ⟨n, rest, w, he⟩ := h.exists_eval
  obtain ⟨j, tag, arity, fields, alt, -, hs, hfields, halt, -⟩ :=
    Eval.of_case (by rw [length_map]; exact halts) he
  refine (h.unfolds.fireCase h.hasArgs (by omega) halts ?_).mono (fun r m' h' => ?_)
    fun e _ he => he.resolve_right ?_
  · intro tag arity fields y alt hu hcon hfields halt
    rw [← halts]
    exact h.alternative halts hu hcon hfields halt
  · rcases h' with ⟨rfl, rfl⟩ | ⟨rfl, G', σ', h', hc⟩
    · exact ⟨rfl, hscrut, j, _, hs⟩
    · refine ⟨G', σ', h', fun x hx => ?_⟩
      have hG := h.unfolds.sound
      rw [hc.agree x (hG.roots x hx) (.inr (hG.closed.kept_of_root hG.roots hx))]
  · rintro ⟨sargs, y, hu, hr, hfault⟩
    obtain ⟨a, hred, hra, -, hcomb⟩ := h.unfolds.rests hscrut hu hr
    obtain ⟨rfl, hargs⟩ := hred.eval_con hra hs
    rw [getElem?_map] at halt
    obtain ⟨alt, hin, rfl⟩ := Option.map_eq_some_iff.1 halt
    have hlen' : sargs.length = arity.toNat := by rw [← hfields, hargs.length_eq, length_map]
    -- an alternative without fields is evaluated in place of the case
    obtain ⟨rfl, heq⟩ := hfault tag arity alt (hcomb _ rfl) hlen' hin
    rw [← halts] at heq
    refine h.resolve_ne (h.mem (i := tag.toNat + 1) hin) (fun n rest w he => ?_) heq
    obtain ⟨j, tag', arity', fields', alt', hj, hs, -, ha', he'⟩ :=
      Eval.of_case (by rw [length_map]; exact halts) he
    obtain ⟨heq, hnil⟩ := Red.eval_con hred rfl hs
    cases heq
    cases hnil
    rw [getElem?_map, hin] at ha'
    cases ha'
    exact ⟨j, hj, he'⟩

end Cases

/-!
## Primitives
-/

theorem literal (h : Saturated Δ m G σ a args) (hx : args[i]? = some x) {n : Nat} {l : Literal}
    (he : Eval Δ n (σ x) (.atom (.lit l))) (hw : m.isWhnfIn x = true) :
    Red Δ (σ x) (.atom (.lit l)) ∧ m.heap.get (m.heap.resolve x) = .scalar (.ofLiteral l) := by
  obtain ⟨sargs, y, hu, -, hr⟩ := (isWhnfIn_iff h.unfolds.sound.closed (h.mem hx)).1 hw
  obtain ⟨b, hred, hrb, hlit, -⟩ := h.unfolds.rests (h.mem hx) hu hr
  obtain ⟨rfl, hnil⟩ := hred.eval_lit hrb he
  obtain rfl := map_eq_nil_iff.1 hnil
  have hresolve : m.heap.resolve x = y := by
    cases hu.path
    rfl
  rw [hresolve]
  exact ⟨hred, hlit l rfl⟩

/-- A primitive asks for an argument, or fires as its rule says. -/
theorem fireStrict (h : Saturated Δ m G σ (.prim p) args) (hlen : args.length = p.arity)
    (haction : p.isAction = false) :
    Meets (Machine.fireStrict ev p (m.stack.size - 1)) m (RuleReduces Δ m G σ)
      fun e _ => e.Exhausted := by
  obtain ⟨n, rest, w, he⟩ := h.exists_eval
  obtain ⟨j, lits, r, -, hr, hlits, hargs, -⟩ :=
    Eval.of_prim (by rw [length_map]; exact hlen) haction he
  rw [length_map] at hlits
  have harg : ∀ (i : Nat) x l, args[i]? = some x → lits[i]? = some l →
      Eval Δ j (σ x) (.atom (.lit l)) := fun i x l hx hl =>
    hargs i (σ x) l (by rw [getElem?_map, hx]; rfl) hl
  have hforced := Primitive.forced_of_result? hr
  obtain ⟨found, hfound⟩ := exists_firstUnevaluated h.hasArgs (i := 0) (n := p.forced) (by omega)
  obtain ⟨-, hspec⟩ := (firstUnevaluated_spec 1 p.forced).ok hfound
  rw [Machine.fireStrict, meets_bind, meets_of_ok hfound]
  cases found with
  | some x =>
    -- the argument asked for has a value, because the rule needs it
    obtain ⟨-, k, f, hk, hc⟩ := hspec
    have hx : args[k]? = some args[k] := getElem?_eq_getElem (by omega)
    obtain ⟨g, hg⟩ := h.hasArgs k _ hx
    rw [Nat.add_comm, hg] at hc
    cases hc
    exact ⟨rfl, h.mem hx, j, _, harg k _ _ hx (getElem?_eq_getElem (by omega))⟩
  | none =>
    -- every argument is evaluated, so its cell holds the literal of its tree
    have hliteral : ∀ (i : Nat) x l, args[i]? = some x → lits[i]? = some l →
        Red Δ (σ x) (.atom (.lit l)) ∧ m.heap.get (m.heap.resolve x) = .scalar (.ofLiteral l) := by
      intro i x l hx hl
      obtain ⟨f, hc⟩ := h.hasArgs i x hx
      have hi := (List.getElem?_eq_some_iff.1 hx).1
      refine h.literal hx (harg i x l hx hl) (hspec i f x (by omega) ?_)
      rw [Nat.add_comm]
      exact hc
    have hliterals : m.HasLiterals (m.stack.size - 1) lits := by
      intro i l hl
      have hi := (List.getElem?_eq_some_iff.1 hl).1
      have hx : args[i]? = some args[i] := getElem?_eq_getElem (by omega)
      obtain ⟨f, hc⟩ := h.hasArgs i _ hx
      exact ⟨args[i], arg_eq_ok hc, (hliteral i _ l hx hl).2⟩
    have hred : Red Δ (σ (m.redexOf args.length)) (Tree.ofResult r) := by
      refine (h.red.trans (Red.spine .refl (forall₂_of_getElem? ?_ ?_))).tail (.prim hr)
      · rw [length_map, length_map, hlits]
      · intro i a b ha hb
        rw [getElem?_map] at ha hb
        obtain ⟨x, hx, rfl⟩ := Option.map_eq_some_iff.1 ha
        obtain ⟨l, hl, rfl⟩ := Option.map_eq_some_iff.1 hb
        exact (hliteral i x l hx hl).1
    show Meets (Machine.firePrimitive ev p (m.stack.size - 1)) m _ _
    unfold Meets
    rw [hliterals.firePrimitive hr, ← hlen]
    refine ⟨G, σ, h.unfolds.overwrite h.redex_mem (h.unfolds.sound.update h.redex_mem ?_ ?_ ?_) ?_,
      fun _ _ => .refl⟩
    all_goals cases r with
      | inl l => first | rfl | exact ⟨l, rfl, hred⟩ | simp [Cell.ofResult, Cell.children]
      | inr b => first | rfl | exact hred | simp [Cell.ofResult, Cell.children]

end Saturated

/-!
## A look at a spine
-/

/-- The trees of the first `n` entries of the stack and of the definitions have been reduced. -/
structure Follows (Δ : Name → Option Tree) (n : Nat) (m : Machine) (σ : Nat → Tree) (m' : Machine)
    (σ' : Nat → Tree) : Prop where
  entries : ∀ i, i < n → Red Δ (σ (m.stack.getD i 0)) (σ' (m'.stack.getD i 0))
  pinned : ∀ x ∈ m.pinned, Red Δ (σ x) (σ' x)

namespace Follows

theorem refl (n : Nat) (m : Machine) (σ : Nat → Tree) : Follows Δ n m σ m σ :=
  ⟨fun _ _ => .refl, fun _ _ => .refl⟩

theorem trans {m1 : Machine} {σ1 : Nat → Tree} (h : Follows Δ n m σ m1 σ1)
    (h' : Follows Δ n m1 σ1 m' σ') (hp : m1.pinned = m.pinned) : Follows Δ n m σ m' σ' :=
  ⟨fun i hi => (h.entries i hi).trans (h'.entries i hi),
    fun x hx => (h.pinned x hx).trans (h'.pinned x (by rw [hp]; exact hx))⟩

theorem mono {k : Nat} (h : Follows Δ n m σ m' σ') (hk : k ≤ n) : Follows Δ k m σ m' σ' :=
  ⟨fun i hi => h.entries i (by omega), h.pinned⟩

theorem evaluates (h : Follows Δ n m σ m' σ') (hi : i < n)
    (he : Evaluates Δ (σ (m.stack.getD i 0))) : Evaluates Δ (σ' (m'.stack.getD i 0)) :=
  he.red (h.entries i hi)

end Follows

/-- How a look at the spine at `base` leaves the trees. -/
def StepReduces (Δ : Name → Option Tree) (base : Nat) (m : Machine) (G : Nat → Prop)
    (σ : Nat → Tree) : Progress → Machine → Prop
  | .again, m' => ∃ G' σ', Unfolds Δ m' G' σ' ∧ Follows Δ (base + 1) m σ m' σ'
  | .force a, m' => m' = m ∧ G a ∧ Evaluates Δ (σ a)
  | .done, m' => m' = m

theorem reduces_afterRule {x : Run Fired} (hle : n ≤ m.stack.size - 1 - base)
    (hlt : base < m.stack.size) (hquiet : Quiet x)
    (hx : Meets x m (RuleReduces Δ m G σ) fun e _ => e.Exhausted) :
    Meets (do afterRule (m.stack.size - 1) n (← x)) m (StepReduces Δ base m G σ)
      fun e _ => e.Exhausted := by
  refine (hx.also (hquiet m)).bind fun r m1 h1 => ?_
  obtain ⟨hr, hst⟩ := h1
  cases r with
  | waitingFor a => exact hr
  | yes =>
    obtain ⟨G', σ', h', hroots⟩ := hr
    simp only [afterRule, meets_bind, meets_modify, meets_truncate, meets_pure]
    have hcut := h'.shrink (m.stack.size - 1 - n + 1)
    refine ⟨G', σ', hcut.congr rfl hcut.sound.roots, fun i hi => ?_, fun y hy => ?_⟩
    · show Red Δ _ (σ' ((m1.stack.shrink (m.stack.size - 1 - n + 1)).getD i 0))
      rw [getD_shrink (by omega), hst.stack]
      exact hroots _ (mem_roots (by omega))
    · exact hroots y (mem_append_right _ hy)

/-- **A look at a spine** whose tree has a weak head normal form. -/
theorem reduces_step (hperform : ∀ id, Quiet (ev.perform id))
    (hnormalize : ∀ id, Quiet (ev.normalize id)) (hs : Spines outer base m) (h : Unfolds Δ m G σ)
    (he : Evaluates Δ (σ (m.stack.getD base 0))) :
    Meets (step ev base) m (StepReduces Δ base m G σ) fun e _ => e.Exhausted := by
  have hlt := hs.base_lt
  have ht : m.stack.size - 1 < m.stack.size := by omega
  have hG := h.sound.entry ht
  have hshow := h.shows _ hG
  refine meets_step fun x hx => ?_
  cases hx with
  | @app f a hc =>
    simp only [meets_bind, meets_push, meets_pure]
    split
    · trivial
    refine ⟨G, σ, h.push (h.sound.closed.app hG hc).1, fun i hi => ?_, fun _ _ => .refl⟩
    show Red Δ _ (σ ((m.stack.push f).getD i 0))
    rw [getD_push_lt (by omega)]
  | @ind t hc =>
    rw [hc] at hshow
    refine ⟨G, σ, h.setEntry _ (h.sound.closed.ind hG hc), fun i hi => ?_, fun _ _ => .refl⟩
    show Red Δ _ (σ ((m.stack.setIfInBounds (m.stack.size - 1) t).getD i 0))
    by_cases htop : i = m.stack.size - 1
    · rw [htop, getD_set_eq ht]
      exact hshow
    · rw [getD_set_ne htop]
  | loop hc => exact absurd rfl ((h.safe.entry ht).ind mem_cons_self hc).2
  | comb hc hn hle =>
    rw [hc] at hshow
    obtain ⟨args, rfl, hsat⟩ := exists_saturated h hs he (by rw [hc]; exact fun _ _ h => by cases h)
      (by rw [hc]; rfl) hshow hle
    refine reduces_afterRule hle hlt (quiet_fire _ _) ?_
    rcases Combinator.contractum_or_caseOf hn with ⟨s, hcon⟩ | ⟨k, rfl, hlen⟩
    · exact hsat.fire hcon hn
    · exact hsat.fireCase hlen
  | prim hc ha hle =>
    rw [hc] at hshow
    obtain ⟨args, hlen, hsat⟩ := exists_saturated h hs he
      (by rw [hc]; exact fun _ _ h => by cases h) (by rw [hc]; rfl) hshow hle
    exact reduces_afterRule hle hlt (quiet_fireStrict hperform hnormalize) (hsat.fireStrict hlen ha)
  | done => rfl
  | scalar hc hne =>
    -- a literal with arguments has no weak head normal form
    rw [hc] at hshow
    obtain ⟨l, -, hred⟩ := hshow
    obtain ⟨args, hlen, hsat⟩ := exists_saturated h hs he
      (by rw [hc]; exact fun _ _ h => by cases h) (by rw [hc]; rfl) hred (Nat.le_refl _)
    obtain ⟨n, rest, w, heval⟩ := hsat.exists_eval
    rw [← Tree.apps_append] at heval
    rcases heval.spine_cases with ⟨hr, -⟩ | ⟨k, -, hf⟩
    · have hzero : (args.map σ ++ rest).length = 0 := by simpa [Atom.rests] using hr
      rw [length_append, length_map] at hzero
      omega
    · cases hf
  | free hc =>
    have hfree := h.sound.closed.inUse _ hG
    rw [hc] at hfree
    cases hfree

end Machine

end GraphReduction
