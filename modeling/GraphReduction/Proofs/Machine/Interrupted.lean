import GraphReduction.Proofs.Machine.Rules

/-!
# Spines below an evaluation

An evaluation that is started in the middle of another one, for the text of an error, works above
the spine whose head asked for it. That spine and those suspended below it belong to an unwinding
that never goes on, but they stay on the stack, and the collector keeps their cells in use.
-/

namespace GraphReduction

open List

namespace Machine

/-!
## The spines below an evaluation
-/

/-- The first and the last position of the parts of the stack that start at the given positions,
the innermost first, and are followed by position `e`. -/
def spans : List Nat → Nat → List (Nat × Nat)
  | [], _ => []
  | b :: bs, e => (b, e - 1) :: spans bs b

/-- The spines below an evaluation that works from position `e` on: the spine that was interrupted
for it, those suspended below that one, and the same again for the evaluation around them. -/
inductive Beneath (v : View) (s : Array Nat) (e : Nat) : List (Nat × Nat) → Prop
  | nil : Beneath v s e []
  | cons {b h : Nat} {bs : List Nat} {below : List (Nat × Nat)} : b < h → h < e → Segment v s b h →
    v (s.getD h 0) = .prim .error → Stacked (Waits v s) bs b → Beneath v s e below →
    Beneath v s e ((b, h) :: (spans bs b ++ below))

section Spans

variable {W : Nat → Nat → Prop} {bs : List Nat} {e : Nat} {p : Nat × Nat}

theorem Stacked.of_mem_spans (h : Stacked W bs e) (hp : p ∈ spans bs e) :
    p.1 ≤ p.2 ∧ p.2 < e ∧ W p.1 (p.2 + 1) := by
  induction h with
  | nil => cases hp
  | @cons b e bs hlt hw _ ih =>
    rcases mem_cons.1 hp with rfl | hp
    · refine ⟨by simp only; omega, by simp only; omega, ?_⟩
      simp only
      rw [Nat.sub_add_cancel (by omega)]
      exact hw
    · obtain ⟨h1, h2, h3⟩ := ih hp
      exact ⟨h1, by omega, h3⟩

end Spans

section Beneath

variable {v v' : View} {s s' : Array Nat} {e e' i R : Nat} {l : List (Nat × Nat)} {p : Nat × Nat}
  {P : Nat → Prop}

theorem Segment.busy_of_error {b h : Nat} (hs : Segment v s b h) (hbh : b < h)
    (hh : v (s.getD h 0) = .prim .error) : Busy v (s.getD b 0) := by
  obtain ⟨args, hu, hlen, -⟩ := hs.unwinds (by rw [hh]; exact fun _ _ h => by cases h)
    (by rw [hh]; rfl) (Nat.le_refl b) (by omega)
  refine ⟨args, _, hu, ?_⟩
  rw [hh]
  exact rests_of_strictness (c := .prim .error) rfl (show 1 ≤ args.length by omega)

section

variable (h : Beneath v s e l)
include h

theorem Beneath.of_mem (hp : p ∈ l) : p.1 ≤ p.2 ∧ p.2 < e ∧
    Segment v s p.1 p.2 ∧ ∃ r, strictness (v (s.getD p.2 0)) = some r ∧ r.1 ≤ p.2 - p.1 := by
  induction h with
  | nil => cases hp
  | @cons b h bs below hbh hhe hseg hhead hst _ ih =>
    rcases mem_cons.1 hp with rfl | hp
    · refine ⟨Nat.le_of_lt hbh, hhe, hseg, (1, 1), by rw [hhead]; rfl, ?_⟩
      show 1 ≤ h - b
      omega
    rcases mem_append.1 hp with hp | hp
    · obtain ⟨h1, h2, hw⟩ := hst.of_mem_spans hp
      obtain ⟨a, ⟨arity, forced, k, f, hstr, hle, -⟩, -⟩ := hw.awaits
      exact ⟨h1, by omega, hw.segment, _, hstr, hle⟩
    · exact ih hp

theorem Beneath.mono (he : e ≤ e') : Beneath v s e' l := by
  induction h with
  | nil => exact .nil
  | cons hbh hhe hseg hhead hst _ ih => exact .cons hbh (by omega) hseg hhead hst ih

theorem Beneath.restrict (he : ∀ p ∈ l, p.2 < e') : Beneath v s e' l := by
  induction h with
  | nil => exact .nil
  | @cons b h bs below hbh _ hseg hhead hst _ ih =>
    exact .cons hbh (he (b, h) (by simp)) hseg hhead hst (ih fun p hp => he p (by simp [hp]))

theorem Beneath.congr (hs : ∀ i, i < e → s'.getD i 0 = s.getD i 0) :
    Beneath v s' e l := by
  induction h with
  | nil => exact .nil
  | @cons b h bs below hbh hhe hseg hhead hst _ ih =>
    refine .cons hbh hhe (hseg.congr fun i hi => hs i (by omega)) ?_ ?_ ih
    · rw [hs h hhe]; exact hhead
    · refine hst.imp fun b' e' hbe he' hw => hw.congr (fun i hi => hs i (by omega)) hbe fun a hse => ?_
      rw [hs e' (by omega)]
      exact hse

theorem Beneath.carry (hc : Carries v v' s P)
    (herr : ∀ i, i < s.size → P i → v (s.getD i 0) = .prim .error → v' (s.getD i 0) = .prim .error)
    (he : e ≤ s.size) (hP : ∀ p ∈ l, ∀ i, p.1 ≤ i → i ≤ p.2 → P i) : Beneath v' s e l := by
  induction h with
  | nil => exact .nil
  | @cons b h bs below hbh hhe hseg hhead hst _ ih =>
    have hPh : ∀ i, b ≤ i → i ≤ h → P i := hP (b, h) (by simp)
    refine .cons hbh hhe (hseg.carry hc (by omega) fun i hbi hih => hPh i hbi (by omega))
      (herr h (by omega) (hPh h (by omega) (by omega)) hhead) ?_
      (ih fun p hp => hP p (by simp [hp]))
    have hPs : ∀ p ∈ spans bs b, ∀ i, p.1 ≤ i → i ≤ p.2 → P i := fun p hp => hP p (by simp [hp])
    clear ih hP
    have hbs : b < s.size := by omega
    clear hseg hhead hPh hbh hhe
    induction hst with
    | nil => exact .nil
    | @cons b' e' bs hlt hw _ ih' =>
      refine .cons hlt (hw.carry hc hlt hbs fun i hbi hie => ?_)
        (ih' (fun p hp => hPs p (mem_cons_of_mem _ hp)) (by omega))
      exact hPs (b', e' - 1) (by simp [spans]) i hbi (by simp only; omega)

/-- **A redex is not on a spine below the evaluation that contracts it.** -/
theorem Beneath.ne_redex (hR : Redex v R) (hp : p ∈ l) (hi : p.1 ≤ i)
    (hi' : i ≤ p.2) : s.getD i 0 ≠ R := by
  obtain ⟨args, y, hu, hready, hne⟩ := hR
  induction h with
  | nil => cases hp
  | @cons b h bs below hbh hhe hseg hhead hst _ ih =>
    have hn : (v (s.getD h 0)).NotApp := by rw [hhead]; exact fun _ _ h => by cases h
    rcases mem_cons.1 hp with rfl | hp
    · -- the spine of the redex would be the interrupted one, whose head never fires
      rintro rfl
      obtain ⟨args', hu', -, -⟩ := hseg.unwinds hn (by rw [hhead]; rfl) hi hi'
      obtain ⟨-, rfl⟩ := hu.unique hu'
      exact hne hhead
    rcases mem_append.1 hp with hp | hp
    · have hbusy := hst.busy (hseg.busy_of_error hbh hhead)
      obtain ⟨-, -, hw, hb⟩ := hbusy.of_mem_spans hp
      exact hw.ne_redex hb hu hready hi (by omega)
    · exact ih hp

end

end Beneath

/-!
## What a step spares
-/

/-- The redex `R` was overwritten, after a collection at most. -/
structure Contracts (R : Nat) (m m0 m' : Machine) : Prop where
  room : m0 = m ∨ ∃ k, reserve k m = .ok () m0
  isInd : (m0.heap.get R).isInd = false
  busy : Busy m0.heap.get R
  touches : Touches R m0.heap.get m'.heap.get
  ends : ∃ z, Stands m'.heap.get R z

/-- How the cells on the stack come through a step that overwrites the redex `R`, below which the
spines that start at `bs` are suspended. -/
structure Spares (R : Nat) (bs : List Nat) (base : Nat) (m m' : Machine) : Prop where
  contracts : ∃ m0, Contracts R m m0 m'
  redex : Redex m.heap.get R
  suspended : Stacked (fun b e => ∀ i, b ≤ i → i < e → m.stack.getD i 0 ≠ R) bs base
  carries : Carries m.heap.get m'.heap.get m.stack fun i => m.stack.getD i 0 ≠ R
  skips : ∀ i, i < m.stack.size → m.stack.getD i 0 ≠ R →
    m'.heap.get (m.stack.getD i 0) = m.heap.get (m.stack.getD i 0) ∨
      m'.heap.get (m.stack.getD i 0) = m.heap.shortcuts (m.stack.getD i 0)

/-- A step overwrites a redex, or leaves the heap as it is. -/
def Rewrites (outer base : Nat) (m m' : Machine) : Prop :=
  m'.heap = m.heap ∨ ∃ R, Spares R (m.frames.toList.drop outer).reverse base m m'

section Steps

variable {m m' : Machine} {outer base : Nat}

theorem Carries.trans {v v1 v2 : View} {s : Array Nat} {P : Nat → Prop} (h : Carries v v1 s P)
    (h' : Carries v1 v2 s P) : Carries v v2 s P := by
  refine ⟨fun i hi hP f a hc => ?_, fun i hi hP r hr => h'.head i hi hP r (h.head i hi hP r hr)⟩
  obtain ⟨f1, a1, hc1, hends1⟩ := h.app i hi hP f a hc
  obtain ⟨f2, a2, hc2, hends2⟩ := h'.app i hi hP f1 a1 hc1
  exact ⟨f2, a2, hc2, fun j hj => ⟨fun hs => (hends2 j hj).1 ((hends1 j hj).1 hs),
    fun hs => (hends2 j hj).2 ((hends1 j hj).2 hs)⟩⟩

theorem Carries.mono {v v1 : View} {s : Array Nat} {P P' : Nat → Prop} (h : Carries v v1 s P)
    (hP : ∀ i, P' i → P i) : Carries v v1 s P' :=
  ⟨fun i hi h' => h.app i hi (hP i h'), fun i hi h' => h.head i hi (hP i h')⟩

theorem Stepped.rewrites {r : Progress} (hs : Stepped outer base m r m') (hlt : base < m.stack.size) :
    Rewrites outer base m m' := by
  cases hs with
  | push | follow | waits | done => exact Or.inl rfl
  | @fired n m0 m1 _ h hs1 hst1 hle =>
    obtain ⟨hred, z, hz⟩ := h.ends hs1 hst1 hle hlt
    obtain ⟨G0, hG0, -⟩ := h.safe
    have hentry : ∀ i, i < m.stack.size → G0 (m.stack.getD i 0) := by
      intro i hi
      rw [← h.steady.stack]
      exact hG0.entry (by rw [h.steady.stack]; exact hi)
    have hc := h.touches.carries hred hz hG0.closed hentry
    refine Or.inr ⟨_, ⟨m0, h.room, hred, h.busy, h.touches, z, hz⟩, h.redex, h.clear.suspended,
      (h.carries.mono fun _ _ => trivial).trans hc, fun i hi hne => ?_⟩
    show m1.heap.get _ = _ ∨ m1.heap.get _ = _
    rw [h.touches _ hne (hG0.closed.inUse _ (hentry i hi))]
    exact h.skips i hi

theorem getD_of_take {s s' : Array Nat} {k i : Nat} (h : s'.toList.take k = s.toList.take k)
    (hi : i < k) : s'.getD i 0 = s.getD i 0 := by
  have := congrArg (fun l => l[i]?) h
  simp only [getElem?_take_of_lt hi, Array.getElem?_toList] at this
  rw [Array.getD_eq_getD_getElem?, Array.getD_eq_getD_getElem?, this]

variable {e : Nat} {below : List (Nat × Nat)}

/-- **A step leaves the spines below the evaluation alone.** -/
theorem Beneath.rewrites (h : Beneath m.heap.get m.stack e below) (hr : Rewrites outer base m m')
    (ha : Above base m m') (he : e ≤ base) (hlt : base < m.stack.size) :
    Beneath m'.heap.get m'.stack e below := by
  refine Beneath.congr (s := m.stack) ?_ fun i hi => getD_of_take ha.stack (by omega)
  rcases hr with hr | ⟨R, hR⟩
  · rw [hr]; exact h
  · refine h.carry hR.carries (fun i hi hne herr => ?_) (by omega)
      fun p hp i hi hi' => h.ne_redex hR.redex hp hi hi'
    rcases hR.skips i hi hne with hk | hk
    · rw [hk, herr]
    · rw [hk, Heap.shortcuts, herr]; rfl

theorem Beneath.reserve (h : Beneath m.heap.get m.stack e below) (hm : m.Safe []) (n : Nat)
    (he : e ≤ m.stack.size) :
    Meets (reserve n) m (fun _ m' => Beneath m'.heap.get m'.stack e below) fun _ _ => True := by
  have hskip := skips_reserve hm n
  obtain ⟨G, hG, -⟩ := hm
  have hcarry : Meets (Machine.reserve n) m (fun _ m' => m'.stack = m.stack ∧
      Carries m.heap.get m'.heap.get m.stack fun _ => True) fun _ _ => True :=
    meets_reserve hG (fun _ _ => ⟨rfl, .refl _ _⟩) (fun h' hc _ _ => ⟨rfl, carries_collect hG hc⟩)
      fun _ _ _ => trivial
  refine (hskip.and hcarry).mono (fun _ m' h1 => ?_) fun _ _ _ => trivial
  obtain ⟨hs, hstack, hc⟩ := h1
  rw [hstack]
  refine h.carry hc (fun i hi _ herr => ?_) he fun _ _ _ _ _ => trivial
  rcases hs i hi with hk | hk
  · rw [hk, herr]
  · rw [hk, Heap.shortcuts, herr]; rfl

end Steps

end Machine

end GraphReduction
