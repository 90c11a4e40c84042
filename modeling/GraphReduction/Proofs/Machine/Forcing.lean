import GraphReduction.Proofs.Machine.Turns

/-!
# Arguments that are forced

A strict rule suspends its spine for an argument that is not in weak head normal form, and looks at the
spine again once the argument is evaluated. Whether it is evaluated is found out by counting, and when
the evaluation is done is found out by unwinding, so the rule would never fire if the two disagreed.
-/

namespace GraphReduction

open List

namespace Machine

theorem size_le_of_push (id : Nat) (m : Machine) :
    Meets (push id) m (fun _ m' => m'.stack.size ≤ m'.stackLimit) fun _ _ => True := by
  rw [meets_push]
  split
  · trivial
  · simp only [Array.size_push]; omega

/-- **Counting and unwinding agree** on what is in weak head normal form, as long as the spine fits on
the stack and safe points find room. -/
theorem isWhnfIn_iff_calm {m m0 : Machine} {n fuel : Nat} (hac : m.heap.Acyclic)
    (hopen : (do enter; push n : Run Unit) m = .ok () m0)
    (hfits : ∀ c k, boundedSpine m.heap m.stackLimit (m.heap.resolve n) 0 = some (c, k) →
      m.stack.size + k < m.stackLimit)
    (hroomy : ∀ m1, Glides m0 m1 → ∃ m2, safePoint m1 = .ok () m2) :
    m.isWhnfIn n = true ↔ ∃ m', Calm ⟨perform fuel, normalize fuel⟩ m.stack.size m0 m' := by
  obtain rfl := enter_push_eq hopen
  have hahead : ∀ r, { m with depth := m.depth + 1, stack := m.stack.push n }.spineAhead m.stack.size r =
      boundedSpine m.heap r (m.heap.resolve n) 0 := by
    intro r
    simp only [spineAhead, Array.size_push, Nat.add_sub_cancel, getD_push_eq, Nat.sub_self]
  have he := hac.ends { m with depth := m.depth + 1, stack := m.stack.push n }.roots
  rw [isWhnfIn_eq]
  constructor
  · intro hw
    cases hb : boundedSpine m.heap m.stackLimit (m.heap.resolve n) 0 with
    | none => rw [hb] at hw; cases hw
    | some r =>
      obtain ⟨c, k⟩ := r
      rw [hb] at hw
      have hfit := hfits c k hb
      have hs := he.stands_resolve (.root (top_mem_roots (by simp)))
      obtain ⟨j, hp⟩ := hs.path
      obtain ⟨m1, m', hg, hroom, hrest⟩ := glides_of_counted
        (m := { m with depth := m.depth + 1, stack := m.stack.push n }) hp hs.isInd_eq_false
        ((hahead _).trans hb) hw (by simp only; omega) (by simp) he hroomy
      exact ⟨m', calm_of_glides hg hroom hrest⟩
  · rintro ⟨m', hcalm⟩
    obtain ⟨m1, hg, hroom, hrest⟩ := exists_glides_of_calm hcalm
    obtain ⟨_, m2, -, hpush⟩ := exists_of_bind_ok hopen
    obtain ⟨r, c, k, hfit, hcount, hr⟩ := counted_of_glides hg hroom hrest (by simp)
      ((size_le_of_push n m2).ok hpush) he
    rw [hahead] at hcount
    simp only [Array.size_push] at hfit
    rw [boundedSpine_mono hcount (by omega)]
    exact hr

/-- The argument at position `p` of a suspended spine is the cell that is evaluated at position `e`. -/
def Fills (p e : Nat) (m : Machine) : Prop :=
  ∃ f a, m.heap.get (m.stack.getD p 0) = .app f a ∧ SameEnd m.heap.get a (m.stack.getD e 0)

section Fills

variable {m m' m1 : Machine} {inner b p e base fuel n x : Nat} {l : List Nat}

theorem Stacked.bottom {W : Nat → Nat → Prop} {bs : List Nat} (h : Stacked W (bs ++ [b]) e) :
    W b (bs.getLast?.getD e) := by
  induction bs generalizing e with
  | nil =>
    cases h with
    | cons _ hw _ => exact hw
  | cons c bs ih =>
    cases h with
    | cons _ _ h => rw [getLast?_cons]; exact ih h

theorem Fills.carry {P : Nat → Prop} (h : Fills p e m)
    (hc : Carries m.heap.get m'.heap.get m.stack P) (hP : P p) (hpe : p < e) (he : e < m.stack.size) :
    ∃ f a, m'.heap.get (m.stack.getD p 0) = .app f a ∧ SameEnd m'.heap.get a (m.stack.getD e 0) := by
  obtain ⟨f, a, hcell, hend⟩ := h
  obtain ⟨f', a', hcell', hends⟩ := hc.app p (by omega) hP f a hcell
  exact ⟨f', a', hcell', (hends e he).2 hend⟩

/-- **What fills the argument of the spine that was suspended last goes on to do so.** -/
theorem lasts_fills (hl : l.length = inner) (hbp : b ≤ p) (hpe : p < e) : Lasts inner (inner + 1) e
    fun m => m.frames.toList.take (inner + 1) = l ++ [b] ∧ Fills p e m where
  room := by
    intro base n m m' h hm hK
    have hst := (Quiet.reserve n m).ok hm
    have hlt := h.spines.base_lt
    have hle := h.low_le
    refine ⟨by rw [hst.frames]; exact hK.1, ?_⟩
    unfold Fills
    rw [hst.stack]
    exact hK.2.carry ((spines_reserve h.spines h.plain.safe n).ok hm).2 trivial hpe (by omega)
  look := by
    intro base fuel r m m' h hm hK
    have hl' := looked h.plain h.spines hm
    have hlt := h.spines.base_lt
    have hle := h.low_le
    refine ⟨by rw [hl'.above.frames]; exact hK.1, ?_⟩
    have hfills : ∃ f a, m'.heap.get (m.stack.getD p 0) = .app f a ∧
        SameEnd m'.heap.get a (m.stack.getD e 0) := by
      rcases hl'.rewrites with heap | ⟨R, hR⟩
      · rw [heap]; exact hK.2
      · refine hK.2.carry hR.carries ?_ hpe (by omega)
        -- the spine is clear of the redex
        have hdrop : m.frames.toList.drop inner = b :: m.frames.toList.drop (inner + 1) := by
          conv_lhs => rw [← take_append_drop (inner + 1) m.frames.toList, hK.1]
          rw [append_assoc, drop_append_of_le_length (by omega), ← hl, drop_length]
          rfl
        have hlowest := h.lowest
        have hclear := hR.suspended
        rw [hdrop, reverse_cons] at hclear
        have hbottom := hclear.bottom
        rw [getLast?_reverse, ← headD_eq_head?_getD] at hbottom
        unfold lowest at hlowest
        rw [hlowest] at hbottom
        exact hbottom p hbp hpe
    obtain ⟨f, a, hcell, z, ha, hz⟩ := hfills
    refine ⟨f, a, ?_, z, ha, ((look_step fuel base m).ok hm).stands hlt hle hz⟩
    rw [getD_of_take hl'.above.stack (by omega)]
    exact hcell
  keep := by
    intro m m' hheap _ hframes hstack hK
    refine ⟨hframes.trans hK.1, ?_⟩
    unfold Fills
    rw [hheap, hstack p (by omega), hstack e (Nat.le_refl e)]
    exact hK.2

theorem isWhnfIn_argument {f a : Nat} (hp : Plain m []) (hx : x ∈ m.roots) (hc : m.heap.get x = .app f a)
    (hw : m.isWhnfIn a = true) (hm : reserve n m = .ok () m') :
    ∃ f' a', m'.heap.get x = .app f' a' ∧ m'.isWhnfIn a' = true := by
  obtain ⟨G, hG, -⟩ := hp.safe
  have hmeets : Meets (reserve n) m (fun _ m' => ∃ f' a', m'.heap.get x = .app f' a' ∧
      m'.isWhnfIn a' = true) fun _ _ => True := by
    refine meets_reserve hG (fun _ _ => ⟨f, a, hc, hw⟩) (fun h' hcoll _ _ => ?_) fun _ _ _ => trivial
    have hkx := hG.closed.kept_of_root hG.roots hx
    have hGa := (hG.closed.app (hG.roots x hx) hc).2
    obtain ⟨args, y, hu, hlen, hrest⟩ := (isWhnfIn_iff hG.closed hGa).1 hw
    have hs := hG.closed.stands_resolve hGa
    obtain ⟨hu', hy⟩ := (hu.of_sameEnd ⟨_, hs, .here hs.isInd_eq_false⟩).collect hG.closed hG.roots hcoll
      (kept_app hG.closed hG.roots hkx hc).2
    refine ⟨m.heap.resolve f, m.heap.resolve a, ?_, ?_⟩
    · simp only [hcoll.kept _ hkx, Heap.shortcuts, hc, Cell.skip]
    · rw [Unwinds.isWhnfIn_eq (m := { m with heap := h' }) hu']
      simp only [hy, length_map, hrest, Bool.and_true]
      exact decide_eq_true hlen
  exact hmeets.ok hm

end Fills

section Forced

/-- The rule at the end of the spine at `base` asks for its argument `a`, which stands in entry `p`. -/
def AsksAt (m : Machine) (base p a : Nat) : Prop :=
  ∃ arity forced k f, strictness (m.heap.get m.onTop) = some (arity, forced) ∧
    arity ≤ m.stack.size - 1 - base ∧ k < forced ∧ p = m.stack.size - 1 - (k + 1) ∧
    m.heap.get (m.stack.getD p 0) = .app f a

variable {m1 m2 m3 m4 m5 m6 : Machine} {outer base b b' fuel fuel' a : Nat}

theorem size_le_of_suspend (base id : Nat) (m : Machine) :
    Meets (suspend base id) m (fun _ m' => m'.stack.size ≤ m'.stackLimit) fun _ _ => True := by
  simp only [suspend, meets_bind, meets_enter, meets_modify, meets_top]
  split
  · trivial
  · exact size_le_of_push id _

/-- The spine at `base` is left waiting for the argument it asks for. -/
theorem underway_suspend (hp : Plain m2 []) (hs : Spines outer base m2)
    (ha : Awaits m2.heap.get m2.stack base (m2.stack.size - 1) a) (hsus : suspend base a m2 = .ok b m3) :
    b = m2.stack.size ∧ m3.frames.size = m2.frames.size + 1 ∧
    Underway m2.frames.size (m2.frames.size + 1) b b m3 ∧
    m3.frames.toList.take (m2.frames.size + 1) = m2.frames.toList ++ [base] ∧
    ∃ p, base ≤ p ∧ p < b ∧ AsksAt m2 base p a ∧ Fills p b m3 := by
  have hlt := hs.base_lt
  have hpa := hp.awaited hs ha
  have hs' : Spines m2.frames.size base m2 := by
    refine ⟨⟨Nat.le_refl _, ?_, hlt⟩, hs.current, ?_⟩
    · rw [← Array.length_toList, drop_length]; simp
    · rw [← Array.length_toList, drop_length]; exact .nil
  have hspines := (spines_suspend hs' hpa.safe ha).ok hsus
  have hplain := hpa.suspend hsus
  obtain ⟨G, hG, hheld⟩ := hpa.safe
  obtain ⟨z, hz⟩ := hG.closed.ends a (hheld a mem_cons_self)
  obtain ⟨rfl, rfl⟩ := suspend_eq hsus
  have hframes : (m2.frames.push base).toList.length = m2.frames.size + 1 := by simp
  obtain ⟨arity, forced, k, f, hst, hle, hk, hc⟩ := ha
  have hforced := forced_le_arity hst
  refine ⟨rfl, by simp, ⟨hplain, hspines, by omega, by simp, ?_⟩, ?_, m2.stack.size - 1 - (k + 1),
    by omega, by omega, ⟨arity, forced, k, f, hst, hle, hk, rfl, hc⟩, f, a, ?_, z, hz, ?_⟩
  · unfold lowest
    rw [← hframes, drop_length]
    rfl
  · rw [← hframes, take_length, Array.toList_push]
  · rw [getD_push_lt (by omega)]; exact hc
  · rw [getD_push_eq]; exact hz

/-- **A rule does not ask for the same argument again.** Once the evaluation of an argument that it was
suspended for is done, the argument is in weak head normal form, and it still is when the rule is looked
at again. -/
theorem forced_once (hp : Plain m1 []) (hs : Spines outer base m1)
    (hforce : step ⟨perform fuel, normalize fuel⟩ base m1 = .ok (.force a) m2)
    (hsus : suspend base a m2 = .ok b m3) (hturns : Turns m3.frames.size b m3 b' m4)
    (hroom : safePoint m4 = .ok () m5)
    (hdone : step ⟨perform fuel', normalize fuel'⟩ b' m5 = .ok .done m6)
    (hframes : m6.frames.size = m3.frames.size) :
    ∃ p f' a', AsksAt m2 base p a ∧ m6.heap.get (m6.stack.getD p 0) = .app f' a' ∧
      SameEnd m6.heap.get a' (m6.stack.getD b 0) ∧ m6.isWhnfIn a' = true ∧
      ∃ m7, resume b' m6 = .ok base m7 ∧ ∀ m8, safePoint m7 = .ok () m8 →
        ∃ f'' a'', m8.heap.get (m8.stack.getD p 0) = .app f'' a'' ∧ m8.isWhnfIn a'' = true ∧
          ∀ fuel y m9, step ⟨perform fuel, normalize fuel⟩ base m8 = .ok (.force y) m9 → y ≠ a'' := by
  have hl := looked hp hs hforce
  obtain ⟨hb, hsize, hway, hfr, p, hbp, hpb, hasks, hfills⟩ :=
    underway_suspend hl.plain hl.keeps.1 hl.keeps.2.2.1 hsus
  rw [hsize] at hturns
  have hlasts := lasts_fills (e := b) (p := p) (l := m2.frames.toList) Array.length_toList hbp hpb
  obtain ⟨hway4, hK4⟩ := hway.lasts hlasts hturns ⟨hfr, hfills⟩
  have hway5 := hway4.reserve hroom
  obtain ⟨hfr5, f', a', hslot', hend⟩ := hlasts.room hway4 hroom hK4
  have hfit : m5.stack.size ≤ m5.stackLimit := by
    have hwithin := within_of_moves ((moves_of_turns hturns).trans ((allows_moves.safePoint m4).ok hroom))
    have hstart := (size_le_of_suspend base a m2).ok hsus
    have hgrown := hwithin.stack
    rw [hwithin.stackLimit]
    omega
  cases (look_step fuel' b' m5).ok hdone with
  | done hrest =>
    have hall : m5.frames.toList = m2.frames.toList ++ [base] := by
      rw [← hfr5, take_of_length_le (by rw [Array.length_toList]; omega)]
    obtain rfl : b' = b := by
      have hlowest := hway5.lowest
      unfold lowest at hlowest
      rw [drop_of_length_le (by rw [Array.length_toList]; omega)] at hlowest
      exact hlowest
    -- the spine that was unwound is that of the argument
    have hlt := hway5.spines.base_lt
    obtain ⟨args, hu, hlen, -⟩ := hway5.spines.current.unwinds (notApp_of_rests hrest)
      (isInd_of_rests hrest) (Nat.le_refl b') (by omega)
    have hw : m5.isWhnfIn a' = true := by
      rw [(hu.of_sameEnd (SameEnd.symm hend)).isWhnfIn_eq, hlen, show rests _ _ = true from hrest]
      simp; omega
    have hres : resume b' m5 = .ok base { m5 with
        stack := m5.stack.shrink b', frames := m5.frames.pop, depth := m5.depth - 1 } := by
      have hback : m5.frames.back?.getD b' = base := by
        rw [← Array.getLast?_toList, hall]; simp
      show EStateM.Result.ok (m5.frames.back?.getD b') _ = _
      rw [hback]
    have hp7 := hway5.plain.resume hres
    have hs7 := (spines_resume hway5.spines (by omega)).ok hres
    refine ⟨p, f', a', hasks, hslot', hend, hw, _, hres, fun m8 hroom8 => ?_⟩
    have hst := (Quiet.safePoint _).ok hroom8
    have hroot : m5.stack.getD p 0 ∈ ({ m5 with
        stack := m5.stack.shrink b', frames := m5.frames.pop, depth := m5.depth - 1 } : Machine).roots := by
      rw [← getD_shrink hpb]
      exact mem_roots (by simp only [Array.size_shrink]; omega)
    obtain ⟨f'', a'', hslot'', hw''⟩ := isWhnfIn_argument hp7 hroot hslot' hw hroom8
    refine ⟨f'', a'', ?_, hw'', fun k y m9 hstep => ?_⟩
    · rw [hst.stack, getD_shrink hpb]; exact hslot''
    · have hl8 := looked (hp7.reserve hroom8) ((spines_reserve hs7 hp7.safe _).ok hroom8).1 hstep
      rintro rfl
      rw [hl8.keeps.2.2.2] at hw''
      cases hw''

/-- **Unwinding and counting agree on what is evaluated.** Let the indirections of a heap lead nowhere
in circles. A cell is in weak head normal form exactly if unwinding it on a fresh frame is done without
firing a rule and without forcing anything, where the spine fits on the stack and safe points find room.
And let a program be loaded that has no primitive that performs an action inside an evaluation, and any
calls be made of it. When the evaluation of an argument that a rule was suspended for is done, what then
stands in the entry of this argument is the cell that was evaluated, and it is in weak head normal form. It
still is when the rule is looked at again, so the rule does not ask for it a second time. The cell that was
asked for need not be in weak head normal form by then: it may have been given back. -/
theorem unwinding_respects_isWhnf :
    (∀ (m m₀ : Machine) (n fuel : Nat), m.heap.Acyclic → (do enter; push n : Run Unit) m = .ok () m₀ →
      (∀ c k, boundedSpine m.heap m.stackLimit (m.heap.resolve n) 0 = some (c, k) →
        m.stack.size + k < m.stackLimit) →
      (∀ m₁, Glides m₀ m₁ → ∃ m₂, safePoint m₁ = .ok () m₂) →
      (m.isWhnfIn n = true ↔ ∃ m', Calm ⟨perform fuel, normalize fuel⟩ m.stack.size m₀ m')) ∧
    ∀ (config : Config) (world : World) (m₀ m m₁ m₂ m₃ m₄ m₅ m₆ : Machine) (spines : List (Nat × Nat))
      (outer base b b' fuel fuel' a : Nat), Reached config world .idle m₀ → Lacks .perform m₀ →
      Calls m₀ m → Visits m spines (.look outer fuel base) m₁ →
      step ⟨perform fuel, normalize fuel⟩ base m₁ = .ok (.force a) m₂ → suspend base a m₂ = .ok b m₃ →
      Turns m₃.frames.size b m₃ b' m₄ → safePoint m₄ = .ok () m₅ →
      step ⟨perform fuel', normalize fuel'⟩ b' m₅ = .ok .done m₆ → m₆.frames.size = m₃.frames.size →
      ∃ p f' a', AsksAt m₂ base p a ∧ m₆.heap.get (m₆.stack.getD p 0) = .app f' a' ∧
        SameEnd m₆.heap.get a' (m₆.stack.getD b 0) ∧ m₆.isWhnfIn a' = true ∧
        ∃ m₇, resume b' m₆ = .ok base m₇ ∧ ∀ m₈, safePoint m₇ = .ok () m₈ →
          ∃ f'' a'', m₈.heap.get (m₈.stack.getD p 0) = .app f'' a'' ∧ m₈.isWhnfIn a'' = true ∧
            ∀ fuel y m₉, step ⟨perform fuel, normalize fuel⟩ base m₈ = .ok (.force y) m₉ → y ≠ a'' := by
  refine ⟨fun m m₀ n fuel hac hopen hfits hroomy => isWhnfIn_iff_calm hac hopen hfits hroomy, ?_⟩
  intro config world m₀ m m₁ m₂ m₃ m₄ m₅ m₆ spines outer base b b' fuel fuel' a h₀ hlacks hcalls hvisit
    hforce hsus hturns hroom hdone hframes
  have hfree : m.PerformFree := fun x _ => lacks_of_calls (by decide) hcalls hlacks x
  have hlayered : Layered outer base spines m₁ :=
    guarded_of_visits (guarded_of_performFree (reached_of_calls h₀ hcalls) hfree) hvisit
  exact forced_once hlayered.plain hlayered.unwinding hforce hsus hturns hroom hdone hframes

/-- The negation with its argument evaluated. -/
def negated (stack : Array Nat) : Machine :=
  { negating 2 #[0] stack with
    heap := (negating 2 #[0] stack).heap.set 4 (.ind 3)
    stats := { steps := 1 } }

theorem turns_negating : Turns 1 2 (negating 2 #[0] #[5, 1, 4]) 2 (negated #[5, 1, 3]) := by
  have hpush : step ⟨perform 0, normalize 0⟩ 2 (negating 2 #[0] #[5, 1, 4]) =
      .ok .again (negating 2 #[0] #[5, 1, 4, 2]) := rfl
  have hfire : step ⟨perform 0, normalize 0⟩ 2 (negating 2 #[0] #[5, 1, 4, 2]) =
      .ok .again (negated #[5, 1, 4]) := rfl
  have hfollow : step ⟨perform 0, normalize 0⟩ 2 (negated #[5, 1, 4]) =
      .ok .again (negated #[5, 1, 3]) := rfl
  exact .next (safePoint_negating _ _ _) (.again hpush) (.next (safePoint_negating _ _ _) (.again hfire)
    (.next rfl (.again hfollow) (.refl _ _)))

theorem acyclic_negating : (negating 0 #[] #[]).heap.Acyclic := by
  intro n x hp
  have hind : ∀ x t, ((negating 0 #[] #[]).heap.get x).target? = some t → x = 0 ∧ t = 5 := by
    intro x t h
    unfold Heap.get at h
    rw [cells_negating] at h
    rcases x with _ | _ | _ | _ | _ | _ | x
    case zero => exact ⟨rfl, by simpa [Cell.target?, eq_comm] using h⟩
    all_goals simp [Cell.target?] at h
  cases hp with
  | cons h hp =>
    obtain ⟨rfl, rfl⟩ := hind _ _ h
    cases hp with
    | cons h _ => exact absurd (hind _ _ h).1 (by decide)

theorem roomy_negating {stack : Array Nat} {m : Machine} (hg : Glides (negating 1 #[] stack) m) :
    ∃ m2, safePoint m = .ok () m2 := by
  obtain ⟨stack', rfl⟩ : ∃ stack', m = negating 1 #[] stack' := by
    generalize hm : negating 1 #[] stack = m0 at hg
    induction hg generalizing stack with
    | refl m => exact ⟨stack, hm.symm⟩
    | push hroom _ _ _ ih =>
      subst hm
      cases (safePoint_negating _ _ _).symm.trans hroom
      exact ih rfl
    | follow hroom _ _ _ ih =>
      subst hm
      cases (safePoint_negating _ _ _).symm.trans hroom
      exact ih rfl
  exact ⟨_, safePoint_negating _ _ _⟩

/-- Unwinding the number is calm and unwinding the negation is not, through the indirection to it. The
argument of the negation is evaluated when the frame that was opened for it is done. -/
theorem unwinding_respects_isWhnf_negating :
    (∃ m', Calm ⟨perform 0, normalize 0⟩ 0 (negating 1 #[] #[3]) m') ∧
    (¬ ∃ m', Calm ⟨perform 0, normalize 0⟩ 0 (negating 1 #[] #[0]) m') ∧
    ∃ f' a', (negated #[5, 1, 3]).heap.get 5 = .app f' a' ∧ SameEnd (negated #[5, 1, 3]).heap.get a' 3 ∧
      (negated #[5, 1, 3]).isWhnfIn a' = true ∧
      ∃ m₇, resume 2 (negated #[5, 1, 3]) = .ok 0 m₇ ∧ ∀ m₈, safePoint m₇ = .ok () m₈ →
        ∃ f'' a'', m₈.heap.get (m₈.stack.getD 0 0) = .app f'' a'' ∧ m₈.isWhnfIn a'' = true ∧
          ∀ fuel y m₉, step ⟨perform fuel, normalize fuel⟩ 0 m₈ = .ok (.force y) m₉ → y ≠ a'' := by
  have hagree := unwinding_respects_isWhnf.1 (negating 0 #[] #[])
  refine ⟨?_, ?_, ?_⟩
  · refine (hagree (negating 1 #[] #[3]) 3 0 acyclic_negating rfl ?_ fun _ => roomy_negating).1 rfl
    intro c k h
    cases (show some (Cell.scalar (.int 5), 0) = some (c, k) from h)
    decide
  · refine mt (hagree (negating 1 #[] #[0]) 0 0 acyclic_negating rfl ?_ fun _ => roomy_negating).2
      Bool.false_ne_true
    intro c k h
    cases (show some (Cell.prim .neg, 1) = some (c, k) from h)
    decide
  · obtain ⟨p, f', a', hasks, h⟩ := unwinding_respects_isWhnf.2 {} default _ _ _ _ _ _ _ _ [] 0 0 2 2 1 0 4
      reached_negating lacks_negating (.none _) visits_negation rfl rfl turns_negating rfl rfl rfl
    obtain ⟨arity, forced, k, f, hst, -, hk, rfl, -⟩ := hasks
    cases (show some (1, 1) = some (arity, forced) from hst)
    obtain rfl : k = 0 := by omega
    exact ⟨f', a', h⟩

/-- The negation, where every safe point collects, after `n` collections. -/
def straining (n depth : Nat) (frames stack : Array Nat) : Machine :=
  let m := negating depth frames stack
  { m with gcStress := true, heap := { m.heap with stats := { m.heap.stats with collections := n } } }

/-- After the rule for `I`, when two cells hold `c` and `d` and `gone` ones were given back. -/
def strained (n gone : Nat) (c d : Cell) (stack : Array Nat) : Machine :=
  let m := straining n 2 #[0] stack
  { m with
    heap := ⟨#[.ind 5, .prim .neg, c, .scalar (.int 5), d, .app 1 3], m.heap.capacity, some 2, gone,
      ⟨n, gone, m.heap.stats.peakLive⟩⟩
    stats := { steps := 1 } }

theorem visits_straining :
    Visits (straining 0 0 #[] #[]) [] (.look 0 1 0) (straining 3 1 #[] #[5, 1]) := by
  have hroom : safePoint (straining 0 1 #[] #[0]) = .ok () (straining 1 1 #[] #[0]) := by cbv
  have hroom' : safePoint (straining 1 1 #[] #[5]) = .ok () (straining 2 1 #[] #[5]) := by cbv
  have hstart : (do enter; push 0 : Run Unit) (straining 0 0 #[] #[]) = .ok () (straining 0 1 #[] #[0]) := rfl
  have h0 : Visits (straining 0 0 #[] #[]) [] (.unwind 0 4 0) (straining 0 1 #[] #[0]) :=
    .turn (.whnf .start (.head _)) (by simp) (by simp) (.startWhnf hstart)
  have h1 : Visits (straining 0 0 #[] #[]) [] (.unwind 0 3 0) (straining 1 1 #[] #[5]) :=
    .again (.turn h0 (by simp) (by simp) (.safePoint hroom)) rfl
  have h2 : Visits (straining 0 0 #[] #[]) [] (.unwind 0 2 0) (straining 2 1 #[] #[5, 1]) :=
    .again (.turn h1 (by simp) (by simp) (.safePoint hroom')) rfl
  exact .turn h2 (by simp) (by simp) (.safePoint (by cbv))

theorem turns_straining :
    Turns 1 2 (straining 3 2 #[0] #[5, 1, 4]) 2 (strained 6 1 (.free none) (.ind 3) #[5, 1, 3]) := by
  have hroom : safePoint (straining 3 2 #[0] #[5, 1, 4]) = .ok () (straining 4 2 #[0] #[5, 1, 4]) := by cbv
  have hpush : step ⟨perform 0, normalize 0⟩ 2 (straining 4 2 #[0] #[5, 1, 4]) =
      .ok .again (straining 4 2 #[0] #[5, 1, 4, 2]) := rfl
  have hroom' : safePoint (straining 4 2 #[0] #[5, 1, 4, 2]) =
      .ok () (straining 5 2 #[0] #[5, 1, 4, 2]) := by cbv
  obtain ⟨m, hfire, hroom''⟩ : ∃ m, step ⟨perform 0, normalize 0⟩ 2 (straining 5 2 #[0] #[5, 1, 4, 2]) =
      .ok .again m ∧ safePoint m = .ok () (strained 6 1 (.free none) (.ind 3) #[5, 1, 4]) :=
    ⟨_, rfl, by cbv⟩
  have hfollow : step ⟨perform 0, normalize 0⟩ 2 (strained 6 1 (.free none) (.ind 3) #[5, 1, 4]) =
      .ok .again (strained 6 1 (.free none) (.ind 3) #[5, 1, 3]) := rfl
  exact .next hroom (.again hpush) (.next hroom' (.again hfire)
    (.next hroom'' (.again hfollow) (.refl _ _)))

/-- **The cell that a rule asked for may be given back.** Its frame goes on with what it stands for, and a
collection makes the rule's spine skip it. When the frame is done, the cell is not in weak head normal
form. -/
theorem forced_cell_given_back : ∃ m₀ m₁ m₂ m₃ m₄ m₅ m₆ : Machine,
    Reached { gcStress := true } default .idle m₀ ∧ Lacks .perform m₀ ∧ Visits m₀ [] (.look 0 1 0) m₁ ∧
    step ⟨perform 1, normalize 1⟩ 0 m₁ = .ok (.force 4) m₂ ∧ suspend 0 4 m₂ = .ok 2 m₃ ∧
    Turns m₃.frames.size 2 m₃ 2 m₄ ∧ safePoint m₄ = .ok () m₅ ∧
    step ⟨perform 0, normalize 0⟩ 2 m₅ = .ok .done m₆ ∧ m₆.frames.size = m₃.frames.size ∧
    m₆.heap.get 4 = .free none ∧ m₆.isWhnfIn 4 = false := by
  have hroom : safePoint (strained 6 1 (.free none) (.ind 3) #[5, 1, 3]) =
      .ok () (strained 7 2 (.free (some 4)) (.free none) #[5, 1, 3]) := by cbv
  exact ⟨_, _, _, _, _, _, _, .next .start (.loadImage negationImage), lacks_negating, visits_straining, rfl,
    rfl, turns_straining, hroom, rfl, rfl, rfl, rfl⟩

end Forced

end Machine

end GraphReduction
