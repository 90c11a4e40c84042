import GraphReduction.Proofs.Machine.Twins

/-!
# Readings of a graph

A reading takes every cell to an element that comes to what the cell holds. Rules overwrite cells,
and the elements stay as they are if that of the redex comes to what it is overwritten with.
-/

namespace GraphReduction

open List

universe u

/-- Elements that can be applied to each other, what they come to, and those that the leaves of a
graph are read as. -/
structure Reading (D : Type u) where
  app : D → D → D
  leaf : Cell → D → Prop
  le : D → D → Prop
  refl : ∀ d, le d d
  trans : ∀ {a b c}, le a b → le b c → le a c
  mono : ∀ {f f' a a'}, le f f' → le a a' → le (app f a) (app f' a')

namespace Reading

variable {D : Type u} (R : Reading D)

/-- The application of an element to several others, one after the other. -/
def apply (f : D) (xs : List D) : D := xs.foldl R.app f

/-- The element of a shape, given those of the arguments and of the redex. -/
def shape (val : Nat → D) (redex : D) : Shape → D
  | .arg i => val i
  | .redex => redex
  | .app f a => R.app (shape val redex f) (shape val redex a)

/-- An element comes to what a cell holds, where the cells that it refers to are read as `σ`. -/
def Shows (σ : Nat → D) (d : D) : Cell → Prop
  | .app f a => R.le d (R.app (σ f) (σ a))
  | .ind x => R.le d (σ x)
  | .free _ => True
  | c => R.leaf c d

variable {R} {σ σ' : Nat → D} {d : D} {c : Cell}

theorem apply_concat {f a : D} {xs : List D} : R.apply f (xs ++ [a]) = R.app (R.apply f xs) a :=
  foldl_append

theorem apply_mono {f f' : D} {as bs : List D} (hf : R.le f f') (hargs : Forall₂ R.le as bs) :
    R.le (R.apply f as) (R.apply f' bs) := by
  induction hargs generalizing f f' with
  | nil => exact hf
  | cons ha _ ih => exact ih (R.mono hf ha)

theorem shape_congr {val val' : Nat → D} {r r' : D} {s : Shape} {n : Nat} (hs : s.Fits n)
    (hval : ∀ i < n, val i = val' i) (hr : r = r') : R.shape val r s = R.shape val' r' s := by
  induction s with
  | arg i => exact hval i hs
  | redex => exact hr
  | app f a ihf iha => simp only [shape, ihf hs.1, iha hs.2]

theorem shape_applied {alt : Nat} {fields : List Nat} {r : D} :
    R.shape (fun i => σ ((alt :: fields).getD i 0)) r (.applied fields.length) =
      R.apply (σ alt) (fields.map σ) := by
  suffices hgen : ∀ k ≤ fields.length,
      R.shape (fun i => σ ((alt :: fields).getD i 0)) r (.applied k) =
        R.apply (σ alt) ((fields.take k).map σ) by
    rw [hgen _ (Nat.le_refl _), take_length]
  intro k
  induction k with
  | zero => intro _; rfl
  | succ k ih =>
    intro hk
    show R.app (R.shape _ r (.applied k)) (σ ((alt :: fields).getD (k + 1) 0)) = _
    rw [ih (by omega), take_add_one, getElem?_eq_getElem hk, map_append, Option.toList_some,
      map_singleton, apply_concat, getD_cons_succ, getD_eq_getElem?_getD, getElem?_eq_getElem hk,
      Option.getD_some]

theorem Shows.mono (h : R.Shows σ d c) (hc : ∀ y ∈ c.children, R.le (σ y) (σ' y)) :
    R.Shows σ' d c := by
  cases c with
  | app f a =>
    exact R.trans h (R.mono (hc f (by simp [Cell.children])) (hc a (by simp [Cell.children])))
  | ind y => exact R.trans h (hc y (by simp [Cell.children]))
  | comb | prim | scalar | free => exact h

theorem le_update {x : Nat} (hd : R.le (σ x) d) (z : Nat) :
    R.le (σ z) (Function.update σ x d z) := by
  by_cases hzx : z = x
  · subst hzx
    rw [Function.update_self]
    exact hd
  · rw [Function.update_of_ne hzx]
    exact R.refl _

end Reading

namespace Machine

variable {D : Type u} {R : Reading D} {σ σ' σ1 : Nat → D} {G G' G1 : Nat → Prop}
  {m m' m1 : Machine} {x y redex top : Nat} {args : List Nat} {d : D} {c : Cell} {h' : Heap}

/-- **The elements `σ` come to what the cells hold**, for the cells in `G` of a sound machine. -/
structure ReadAs (R : Reading D) (m : Machine) (G : Nat → Prop) (σ : Nat → D) : Prop where
  sound : m.Sound G
  shows : ∀ x, G x → R.Shows σ (σ x) (m.heap.get x)

/-- More cells are read, and none has been given back. -/
structure Grows (m : Machine) (G : Nat → Prop) (σ : Nat → D) (m' : Machine) (G' : Nat → Prop)
    (σ' : Nat → D) : Prop where
  mono : ∀ x, G x → G' x
  agree : ∀ x, G x → σ' x = σ x
  covers : (∀ x, (m.heap.get x).isFree = false → G x) → ∀ x, (m'.heap.get x).isFree = false → G' x
  collections : m'.heap.stats.collections = m.heap.stats.collections

/-- Cells are read as before, but for those that a collection gave back. -/
structure Continues (m : Machine) (G : Nat → Prop) (σ : Nat → D) (m' : Machine) (G' : Nat → Prop)
    (σ' : Nat → D) : Prop where
  agree : ∀ x, G x → m'.heap.stats.collections = m.heap.stats.collections ∨
    m.heap.Kept m.roots x → σ' x = σ x
  covers : (∀ x, (m.heap.get x).isFree = false → G x) → ∀ x, (m'.heap.get x).isFree = false → G' x

theorem Grows.refl : Grows m G σ m G σ := ⟨fun _ h => h, fun _ _ => rfl, id, rfl⟩

theorem Grows.trans (h : Grows m G σ m1 G1 σ1) (h1 : Grows m1 G1 σ1 m' G' σ') :
    Grows m G σ m' G' σ' :=
  ⟨fun x hx => h1.mono x (h.mono x hx),
    fun x hx => (h1.agree x (h.mono x hx)).trans (h.agree x hx),
    fun hm => h1.covers (h.covers hm), h1.collections.trans h.collections⟩

theorem Grows.continues (h : Grows m G σ m' G' σ') : Continues m G σ m' G' σ' :=
  ⟨fun x hx _ => h.agree x hx, h.covers⟩

theorem Grows.continues_collect (hc : Heap.Collects m.heap m.roots h')
    (h : Grows { m with heap := h' } (m.heap.Kept m.roots) σ m' G' σ') :
    Continues m G σ m' G' σ' := by
  refine ⟨fun x _ hx => h.agree x (hx.resolve_left ?_), fun _ => h.covers fun x hx => ?_⟩
  · rw [h.collections]
    exact fun heq => absurd (hc.collections.symm.trans heq) (Nat.succ_ne_self _)
  · by_contra hk
    rw [hc.freed x hk] at hx
    cases hx

theorem Grows.set (hx : G x) (hlt : x < m.heap.cells.size) :
    Grows m G σ { m with heap := m.heap.set x c } G σ := by
  refine ⟨fun _ h => h, fun _ _ => rfl, fun hm y hy => ?_, rfl⟩
  by_cases hyx : y = x
  · exact hyx ▸ hx
  · refine hm y ?_
    rw [← View.update_of_ne (v := m.heap.get) (c := c) hyx, ← Heap.get_set hlt]
    exact hy

theorem mem_of_getD {i : Nat} (hargs : ∀ a ∈ args, G a) (hi : i < args.length) :
    G (args.getD i 0) := by
  refine hargs _ ?_
  rw [getD_eq_getElem?_getD, getElem?_eq_getElem hi]
  exact getElem_mem hi

namespace ReadAs

section

variable (h : ReadAs R m G σ)
include h

theorem stands (hx : G x) (hs : Stands m.heap.get x y) : R.le (σ x) (σ y) := by
  induction hs with
  | here => exact R.refl _
  | @there x t y hc _ ih =>
    have hshow := h.shows x hx
    rw [hc] at hshow
    exact R.trans hshow (ih (h.sound.closed.ind hx hc))

theorem resolve (hx : G x) : R.le (σ x) (σ (m.heap.resolve x)) :=
  h.stands hx (h.sound.closed.stands_resolve hx)

/-- **A cell comes to its spine.** -/
theorem unwinds (hx : G x) (hu : Unwinds m.heap.get x args y) :
    G y ∧ (∀ a ∈ args, G a) ∧ R.le (σ x) (R.apply (σ y) (args.map σ)) := by
  induction hu with
  | head hs _ => exact ⟨h.sound.closed.stands hx hs, by simp, h.stands hx hs⟩
  | @app x z f a y args hs hc _ ih =>
    have hz := h.sound.closed.stands hx hs
    obtain ⟨hf, ha⟩ := h.sound.closed.app hz hc
    obtain ⟨hy, hargs, hle⟩ := ih hf
    have hshow := h.shows z hz
    rw [hc] at hshow
    refine ⟨hy, fun b hb => ?_, ?_⟩
    · rcases mem_append.1 hb with hb | hb
      · exact hargs b hb
      · rw [mem_singleton.1 hb]; exact ha
    · rw [map_append, map_singleton, Reading.apply_concat]
      exact R.trans (R.trans (h.stands hx hs) hshow) (R.mono hle (R.refl _))

/-!
### Making room
-/

theorem collect (hc : Heap.Collects m.heap m.roots h') :
    ReadAs R { m with heap := h' } (m.heap.Kept m.roots) σ := by
  refine ⟨h.sound.collect hc, fun x hx => ?_⟩
  have hG := h.sound.closed
  have hx' := hG.of_kept h.sound.roots hx
  have hshow := h.shows x hx'
  show R.Shows σ (σ x) (h'.get x)
  rw [hc.kept x hx, Heap.shortcuts]
  cases hcell : m.heap.get x with
  | app f a =>
    rw [hcell] at hshow
    obtain ⟨hf, ha⟩ := hG.app hx' hcell
    exact R.trans hshow (R.mono (h.resolve hf) (h.resolve ha))
  | _ =>
    rw [hcell] at hshow
    exact hshow

/-!
### New cells
-/

/-- A new cell extends the reading by what its contents show. -/
theorem alloc (hfree : c.isFree = false) (hind : c.isInd = false) (hc : ∀ y ∈ c.children, G y)
    (hd : R.Shows σ d c) :
    Meets (Machine.alloc c) m (fun id m' => ∃ G' σ', ReadAs R m' G' σ' ∧ Grows m G σ m' G' σ' ∧
      G' id ∧ σ' id = d) fun e _ => e.Exhausted := by
  refine meets_alloc h.sound hfree hind hc (fun id h' hid hal hs => ?_) trivial
  have hold : ∀ x, G x → Function.update σ id d x = σ x := by
    intro x hx
    have hne : x ≠ id := by rintro rfl; exact hid hx
    exact Function.update_of_ne hne d σ
  have hnew : Function.update σ id d id = d := Function.update_self id d σ
  refine ⟨_, Function.update σ id d, ⟨hs, fun x hx => ?_⟩,
    ⟨fun _ => Or.inl, hold, fun hm x hx => ?_, hal.collections⟩, Or.inr rfl, hnew⟩
  · show R.Shows _ _ (h'.get x)
    rw [hal.view]
    by_cases hxid : x = id
    · subst hxid
      rw [View.update_self, hnew]
      exact hd.mono fun y hy => by rw [hold y (hc y hy)]; exact R.refl _
    · have hx := hx.resolve_right hxid
      rw [View.update_of_ne hxid, hold x hx]
      refine (h.shows x hx).mono fun y hy => ?_
      rw [hold y (h.sound.closed.child x hx y hy)]
      exact R.refl _
  · by_cases hxid : x = id
    · exact Or.inr hxid
    · refine Or.inl (hm x ?_)
      rw [← View.update_of_ne (v := m.heap.get) (c := c) hxid, ← hal.view]
      exact hx

/-!
### Overwriting a redex
-/

theorem setCell (hx : G x) (hd : R.le (σ x) d) (hs : Sound { m with heap := m.heap.set x c } G)
    (hc : R.Shows (Function.update σ x d) d c) :
    ReadAs R { m with heap := m.heap.set x c } G (Function.update σ x d) := by
  refine ⟨hs, fun y hy => ?_⟩
  show R.Shows _ _ ((m.heap.set x c).get y)
  rw [Heap.get_set (h.sound.lt_size hx)]
  by_cases hyx : y = x
  · subst hyx
    rw [View.update_self, Function.update_self]
    exact hc
  · rw [View.update_of_ne hyx, Function.update_of_ne hyx]
    exact (h.shows y hy).mono fun z _ => Reading.le_update hd z

/-- A cell that comes to its new contents may be overwritten with them. -/
theorem overwrite (hx : G x) (hs : Sound { m with heap := m.heap.set x c } G)
    (hc : R.Shows σ (σ x) c) : ReadAs R { m with heap := m.heap.set x c } G σ := by
  have hset := h.setCell (d := σ x) hx (R.refl _) hs (by rw [Function.update_eq_self]; exact hc)
  rwa [Function.update_eq_self] at hset

theorem forward (hr : G redex) (hx : G x) (hle : R.le (σ redex) (σ x)) :
    Meets (Machine.forward redex x) m
      (fun r m' => r = .yes ∧ ReadAs R m' G σ ∧ Grows m G σ m' G σ)
      fun e _ => e.Exhausted ∨ m.heap.resolve x = redex := by
  have hst := h.sound.closed.stands_resolve hx
  simp only [Machine.forward, updateInd, meets_bind, meets_resolve, meets_ite, meets_malformed,
    meets_setCell, meets_pure]
  split
  · exact .inr ‹_›
  rename_i hne
  have hs := h.sound.update_ind hr (h.sound.closed.resolve hx) hne hst.isInd_eq_false
  exact ⟨trivial, h.overwrite hr hs (R.trans hle (h.resolve hx)), .set hr (h.sound.lt_size hr)⟩

end

section Contraction

variable {s : Shape}

/-- The cells built for a shape read as the shape does. -/
theorem build (h : ReadAs R m G σ) (hargs : ∀ a ∈ args, G a) (hr : G redex)
    (hs : s.Fits args.length) :
    Meets (Machine.build args redex s) m (fun id m' => ∃ G' σ', ReadAs R m' G' σ' ∧
      Grows m G σ m' G' σ' ∧ G' id ∧ σ' id = R.shape (fun i => σ (args.getD i 0)) (σ redex) s)
      fun e _ => e.Exhausted := by
  induction s generalizing m G σ with
  | arg i => exact ⟨G, σ, h, .refl, mem_of_getD hargs hs, rfl⟩
  | redex => exact ⟨G, σ, h, .refl, hr, rfl⟩
  | app f a ihf iha =>
    simp only [Machine.build]
    refine (ihf h hargs hr hs.1).bind ?_
    rintro x m1 ⟨G1, σ1, h1, hg1, hx, ex⟩
    refine (iha h1 (fun b hb => hg1.mono b (hargs b hb)) (hg1.mono _ hr) hs.2).bind ?_
    rintro y m2 ⟨G2, σ2, h2, hg2, hy, ey⟩
    refine (h2.alloc (c := .app x y) (d := R.app (σ2 x) (σ2 y)) rfl rfl
      (by simp [Cell.children, hg2.mono x hx, hy]) (R.refl _)).imp ?_
    rintro z m3 ⟨G3, σ3, h3, hg3, hz, ez⟩
    refine ⟨G3, σ3, h3, (hg1.trans hg2).trans hg3, hz, ?_⟩
    -- the second part is built after the first, where the arguments are read as before
    have ey' : σ2 y = R.shape (fun i => σ (args.getD i 0)) (σ redex) a := by
      rw [ey]
      exact Reading.shape_congr hs.2 (fun i hi => hg1.agree _ (mem_of_getD hargs hi))
        (hg1.agree _ hr)
    rw [ez, hg2.agree x hx, ex, ey']
    rfl

/-- **A redex may be overwritten by a shape that it comes to.** -/
theorem contract (h : ReadAs R m G σ) (hargs : ∀ a ∈ args, G a) (hr : G redex)
    (hs : s.Fits args.length)
    (hle : R.le (σ redex) (R.shape (fun i => σ (args.getD i 0)) (σ redex) s)) :
    Meets (Machine.contract args redex s) m (fun r m' => r = .yes ∧ ∃ G' σ', ReadAs R m' G' σ' ∧
      Grows m G σ m' G' σ') fun e _ => e.Exhausted ∨ s = .redex ∨
        ∃ i, s = .arg i ∧ m.heap.resolve (args.getD i 0) = redex := by
  cases s with
  | redex =>
    refine (h.forward hr hr hle).mono (fun _ m' h' => ⟨h'.1, G, σ, h'.2⟩) fun _ _ _ => .inr (.inl rfl)
  | arg i =>
    refine (h.forward hr (mem_of_getD hargs hs) hle).mono (fun _ m' h' => ⟨h'.1, G, σ, h'.2⟩) ?_
    exact fun _ _ he => he.imp_right fun he => .inr ⟨i, rfl, he⟩
  | app f a =>
    simp only [Machine.contract]
    refine ((h.build hargs hr hs.1).mono (fun _ _ h => h) fun _ _ he => .inl he).bind ?_
    rintro x m1 ⟨G1, σ1, h1, hg1, hx, ex⟩
    refine ((h1.build (fun b hb => hg1.mono b (hargs b hb)) (hg1.mono _ hr) hs.2).mono
      (fun _ _ h => h) fun _ _ he => .inl he).bind ?_
    rintro y m2 ⟨G2, σ2, h2, hg2, hy, ey⟩
    have hg := hg1.trans hg2
    have hcell : R.Shows σ2 (σ2 redex) (.app x y) := by
      show R.le (σ2 redex) (R.app (σ2 x) (σ2 y))
      rw [ey, Reading.shape_congr hs.2 (fun i hi => hg1.agree _ (mem_of_getD hargs hi))
        (hg1.agree _ hr), hg.agree _ hr, hg2.agree x hx, ex]
      exact hle
    simp only [Machine.overwrite, meets_bind, meets_setCell, meets_pure]
    have hs2 := h2.sound.update (hg.mono _ hr) (c := .app x y) rfl rfl
      (by simp [Cell.children, hg2.mono x hx, hy])
    have hr2 := hg.mono _ hr
    exact ⟨trivial, G2, σ2, h2.overwrite hr2 hs2 hcell, hg.trans (.set hr2 (h2.sound.lt_size hr2))⟩

end Contraction

/-!
### Cases
-/

section Cases

variable {scrut alt tag n : Nat} {alts fields : List Nat}

/-- Selecting overwrites the redex by the alternative on the fields. -/
theorem selectAlternative (h : ReadAs R m G σ) (hargs : m.HasArgs top (scrut :: alts))
    (hlt : top < m.stack.size) (halt : alts[tag]? = some alt)
    (hu : Unwinds m.heap.get scrut fields y)
    (hcase : R.le (σ (m.stack.getD (top - (n + 1)) 0)) (R.apply (σ alt) (fields.map σ))) :
    Meets (Machine.selectAlternative n top tag) m (fun r m' => r = .yes ∧ ∃ G' σ',
      ReadAs R m' G' σ' ∧ Grows m G σ m' G' σ') fun e _ => e.Exhausted ∨
        fields = [] ∧ m.heap.resolve alt = m.stack.getD (top - (n + 1)) 0 := by
  obtain ⟨f, hf⟩ := hargs 0 scrut rfl
  obtain ⟨g, hg⟩ := hargs (tag + 1) alt halt
  have hG := h.sound.closed
  have hscrut := (hG.app (h.sound.entry (i := top - (0 + 1)) (by omega)) hf).2
  have hmem : ∀ a ∈ alt :: fields, G a := by
    intro a ha
    rcases mem_cons.1 ha with rfl | ha
    · exact (hG.app (h.sound.entry (i := top - (tag + 1 + 1)) (by omega)) hg).2
    · exact (h.unwinds hscrut hu).2.1 a ha
  unfold Meets
  rw [selectAlternative_eq_contract hf hu.spineOf_eq hg]
  refine (h.contract hmem (h.sound.entry (by omega)) (Shape.applied_fits (by simp))
    (by rw [Reading.shape_applied]; exact hcase)).mono (fun _ _ h => h) fun _ _ he => ?_
  refine he.imp_right fun he => ?_
  cases fields with
  | nil =>
    rcases he with he | ⟨i, hi, he⟩
    · cases he
    · cases hi
      exact ⟨rfl, he⟩
  | cons => rcases he with he | ⟨i, hi, -⟩ <;> contradiction

/-- **The rule of `Case`** waits for the scrutinee, selects an alternative, or fails: the scrutinee
has no alternative, or the alternative is the redex. -/
theorem fireCase (h : ReadAs R m G σ) (hargs : m.HasArgs top (scrut :: alts))
    (hlt : top < m.stack.size) (hlen : alts.length = n)
    (hcase : ∀ {tag arity : UInt32} {fields y alt}, Unwinds m.heap.get scrut fields y →
      m.heap.get y = .comb (.con tag arity) → fields.length = arity.toNat →
      alts[tag.toNat]? = some alt →
      R.le (σ (m.stack.getD (top - (n + 1)) 0)) (R.apply (σ alt) (fields.map σ))) :
    Meets (Machine.fireCase n top) m (fun r m' => r = .waitingFor scrut ∧ m' = m ∨ r = .yes ∧
      ∃ G' σ', ReadAs R m' G' σ' ∧ Continues m G σ m' G' σ') fun e _ => e.Exhausted ∨
        ∃ fields y, Unwinds m.heap.get scrut fields y ∧
          rests (m.heap.get y) fields.length = true ∧
          ∀ (tag arity : UInt32) alt, m.heap.get y = .comb (.con tag arity) →
            fields.length = arity.toNat → alts[tag.toNat]? = some alt →
            fields = [] ∧ m.heap.resolve alt = m.stack.getD (top - (n + 1)) 0 := by
  obtain ⟨f, hf⟩ := hargs 0 scrut rfl
  have hG := h.sound.closed
  have hroot := h.sound.kept_entry (i := top - (0 + 1)) (by omega)
  have hscrut : G scrut := (hG.app (hG.of_kept h.sound.roots hroot) hf).2
  simp only [Machine.fireCase, meets_bind, meets_of_ok (arg_eq_ok hf), meets_isWhnf, meets_ite,
    meets_pure, meets_resolve, meets_spine, meets_cell]
  split
  · exact .inl ⟨trivial, trivial⟩
  rename_i hw
  -- the scrutinee is evaluated: its spine says which alternative to take
  obtain ⟨fields, y, hu, -, hr⟩ := (isWhnfIn_iff hG hscrut).1 (by simpa using hw)
  rw [spineOf_resolve hG hscrut, hu.spineOf_eq]
  split
  · rename_i tag arity hcon
    simp only [meets_bind, meets_ite, meets_fail, meets_describe]
    split
    · rename_i hne
      refine .inr ⟨fields, y, hu, hr, fun tag' arity' _ hcon' hlen' => ?_⟩
      rw [hcon] at hcon'
      cases hcon'
      exact absurd hlen' hne
    rename_i hfields
    have hfields : fields.length = arity.toNat := not_not.1 hfields
    split
    · rename_i htag
      refine .inr ⟨fields, y, hu, hr, fun tag' arity' alt hcon' _ halt => ?_⟩
      rw [hcon] at hcon'
      cases hcon'
      obtain ⟨hlt, -⟩ := List.getElem?_eq_some_iff.1 halt
      omega
    rename_i htag
    obtain ⟨alt, halt⟩ : ∃ alt, alts[tag.toNat]? = some alt := ⟨_, getElem?_eq_getElem (by omega)⟩
    have hle := hcase hu hcon hfields halt
    -- both ways to fail are stated for every alternative that the tag could mean
    have hfault : ∀ e : Halt, (e.Exhausted ∨
        fields = [] ∧ m.heap.resolve alt = m.stack.getD (top - (n + 1)) 0) →
        e.Exhausted ∨ ∃ fields y, Unwinds m.heap.get scrut fields y ∧
          rests (m.heap.get y) fields.length = true ∧
          ∀ (tag arity : UInt32) alt, m.heap.get y = .comb (.con tag arity) →
            fields.length = arity.toNat → alts[tag.toNat]? = some alt →
            fields = [] ∧ m.heap.resolve alt = m.stack.getD (top - (n + 1)) 0 := by
      refine fun e he => he.imp_right fun he => ⟨fields, y, hu, hr, ?_⟩
      intro tag' arity' alt' hcon' _ halt'
      rw [hcon] at hcon'
      cases hcon'
      rw [halt] at halt'
      cases halt'
      exact he
    refine meets_reserve h.sound (fun _ _ => ?_) (fun h' hc _ _ => ?_) fun _ _ _ => .inl trivial
    · refine (h.selectAlternative hargs hlt halt hu hle).mono ?_ fun e _ => hfault e
      rintro r m' ⟨rfl, G', σ', h', hg⟩
      exact .inr ⟨rfl, G', σ', h', hg.continues⟩
    · -- the collection has made the arguments and the fields skip indirections
      have hargs' := hargs.collect h.sound hlt hc
      have hres := hG.stands_resolve hscrut
      obtain ⟨hu', -⟩ := (hu.of_sameEnd ⟨_, hres, .here hres.isInd_eq_false⟩).collect hG
        h.sound.roots hc (kept_app hG h.sound.roots hroot hf).2
      have hmem := (h.unwinds hscrut hu).2.1
      obtain ⟨g, hg⟩ := hargs (tag.toNat + 1) alt halt
      have haltroot := h.sound.kept_entry (i := top - (tag.toNat + 1 + 1)) (by omega)
      have hGalt : G alt := (hG.app (hG.of_kept h.sound.roots haltroot) hg).2
      have hle' : R.le (σ (m.stack.getD (top - (n + 1)) 0))
          (R.apply (σ (m.heap.resolve alt)) ((fields.map m.heap.resolve).map σ)) := by
        refine R.trans hle (Reading.apply_mono (h.resolve hGalt) ?_)
        rw [map_map, forall₂_map_left_iff, forall₂_map_right_iff]
        exact forall₂_same.2 fun x hx => h.resolve (hmem x hx)
      refine ((h.collect hc).selectAlternative hargs' hlt (by simp [halt]) hu' hle').mono ?_
        fun e _ he => hfault e ?_
      · rintro r m' ⟨rfl, G', σ', h', hg⟩
        exact .inr ⟨rfl, G', σ', h', hg.continues_collect hc⟩
      · refine he.imp_right ?_
        rintro ⟨hnil, he⟩
        refine ⟨map_eq_nil_iff.1 hnil, ?_⟩
        rwa [resolve_collect hG h.sound.roots hc (kept_app hG h.sound.roots haltroot hg).2
          (hG.stands_resolve hGalt).isInd_eq_false] at he
  · rename_i hno
    simp only [meets_bind, meets_describe, meets_fail]
    exact .inr ⟨fields, y, hu, hr, fun tag arity _ hcon => absurd hcon (hno tag arity)⟩

end Cases

end ReadAs

end Machine

end GraphReduction
