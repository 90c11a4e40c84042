import GraphReduction.Proofs.Heap.Spine

/-!
# Pairings of two heaps

Two heaps hold the same graph if their cells that are no indirections can be paired one to one,
such that paired cells have the same contents and refer to cells that stand for paired ones. They
may differ in where the cells are, and in indirections.
-/

namespace GraphReduction

open List

/-- `x` and `x'` stand for cells that `R` pairs. -/
def Paired (R : Nat → Nat → Prop) (v v' : View) (x x' : Nat) : Prop :=
  ∃ y y', Stands v x y ∧ Stands v' x' y' ∧ R y y'

/-- The same contents, with references that `E` relates. The primitive that runs an action in the
middle of an evaluation is left out. -/
inductive Cell.Alike (E : Nat → Nat → Prop) : Cell → Cell → Prop
  | app {f f' a a' : Nat} : E f f' → E a a' → Alike E (.app f a) (.app f' a')
  | comb (c : Combinator) : Alike E (.comb c) (.comb c)
  | prim {p : Primitive} : p ≠ .perform → Alike E (.prim p) (.prim p)
  | scalar (s : Scalar) : Alike E (.scalar s) (.scalar s)

namespace Cell.Alike

variable {E E' : Nat → Nat → Prop} {c c' : Cell}

theorem mono (h : Alike E c c') (hE : ∀ x x', E x x' → E' x x') : Alike E' c c' := by
  cases h with
  | app hf ha => exact .app (hE _ _ hf) (hE _ _ ha)
  | comb _ | prim _ | scalar _ => constructor <;> assumption

theorem symm (h : Alike E c c') : Alike (fun x' x => E x x') c' c := by
  cases h with
  | app _ _ | comb _ | prim _ | scalar _ => constructor <;> assumption

theorem isFree_left (h : Alike E c c') : c.isFree = false := by cases h <;> rfl

theorem isInd_left (h : Alike E c c') : c.isInd = false := by cases h <;> rfl

theorem isInd_right (h : Alike E c c') : c'.isInd = false := by cases h <;> rfl

theorem eq_of_notApp (h : Alike E c c') (hn : c.NotApp) : c' = c := by
  cases h with
  | app => exact absurd rfl (hn _ _)
  | comb | prim | scalar => rfl

end Cell.Alike

/-- `R` pairs cells of two heaps one to one, with the same contents. -/
structure Pairing (R : Nat → Nat → Prop) (v v' : View) : Prop where
  alike : ∀ x x', R x x' → Cell.Alike (Paired R v v') (v x) (v' x')
  left : ∀ x x' y', R x x' → R x y' → x' = y'
  right : ∀ x y x', R x x' → R y x' → x = y

variable {R : Nat → Nat → Prop} {v v' : View} {x x' y y' z z' w w' : Nat} {c c' : Cell}

theorem Paired.symm (h : Paired R v v' x x') : Paired (fun a' a => R a a') v' v x' x := by
  obtain ⟨y, y', hy, hy', hR⟩ := h
  exact ⟨y', y, hy', hy, hR⟩

theorem Paired.of_sameEnd (h : Paired R v v' x x') (hx : SameEnd v x w) : Paired R v v' w x' := by
  obtain ⟨y, y', hy, hy', hR⟩ := h
  obtain ⟨z, hz, hw⟩ := hx
  obtain rfl := hy.unique hz
  exact ⟨y, y', hw, hy', hR⟩

namespace Pairing

theorem symm (h : Pairing R v v') : Pairing (fun a' a => R a a') v' v := by
  refine ⟨fun x' x hR => ?_, fun x' x y hx hy => h.right _ _ _ hx hy,
    fun x' y' x hx hy => h.left _ _ _ hx hy⟩
  exact (h.alike x x' hR).symm.mono fun _ _ => Paired.symm

theorem paired (h : Pairing R v v') (hR : R x x') : Paired R v v' x x' :=
  ⟨x, x', .here (h.alike _ _ hR).isInd_left, .here (h.alike _ _ hR).isInd_right, hR⟩

theorem of_paired (hp : Paired R v v' x x') (hx : (v x).isInd = false)
    (hx' : (v' x').isInd = false) : R x x' := by
  obtain ⟨y, y', hy, hy', hR⟩ := hp
  rw [hy.eq_self hx, hy'.eq_self hx'] at hR
  exact hR

theorem closed (h : Pairing R v v') : Closed v fun x => ∃ x', Paired R v v' x x' := by
  refine ⟨?_, ?_, ?_⟩
  · rintro x ⟨x', y, y', hs, hs', hR⟩
    cases hs with
    | here => exact (h.alike _ _ hR).isFree_left
    | there hc _ => rw [hc]; rfl
  · rintro x ⟨x', y, y', hs, hs', hR⟩ z hz
    cases hs with
    | here =>
      have ha := h.alike _ _ hR
      generalize hc : v x = c at ha hz
      generalize v' y' = c' at ha
      cases ha with
      | app hf ha =>
        simp only [Cell.children, mem_cons, not_mem_nil, or_false] at hz
        rcases hz with rfl | rfl
        · exact ⟨_, hf⟩
        · exact ⟨_, ha⟩
      | _ => simp [Cell.children] at hz
    | there hc ht =>
      rw [hc] at hz
      simp only [Cell.children, mem_singleton] at hz
      subst hz
      exact ⟨x', y, y', ht, hs', hR⟩
  · rintro x ⟨x', y, y', hs, -⟩
    exact ⟨y, hs⟩

/-- What is closed, and free of `perform`, is paired with itself. -/
theorem self {G : Nat → Prop} (hG : Closed v G) (hp : ∀ x, G x → v x ≠ .prim .perform) :
    ∃ R, Pairing R v v ∧ ∀ x, G x → Paired R v v x x := by
  let R : Nat → Nat → Prop := fun x x' => x' = x ∧ G x ∧ (v x).isInd = false
  have hpaired : ∀ x, G x → Paired R v v x x := by
    intro x hx
    obtain ⟨y, hy⟩ := hG.ends x hx
    exact ⟨y, y, hy, hy, rfl, hG.stands hx hy, hy.isInd_eq_false⟩
  refine ⟨R, ⟨?_, ?_, ?_⟩, hpaired⟩
  · rintro _ x ⟨rfl, hx, hind⟩
    have hfree := hG.inUse x hx
    have hne := hp x hx
    cases hc : v x with
    | app f a =>
      obtain ⟨hf, ha⟩ := hG.app hx hc
      exact .app (hpaired f hf) (hpaired a ha)
    | ind t => rw [hc] at hind; cases hind
    | free next => rw [hc] at hfree; cases hfree
    | comb c => exact .comb c
    | prim p => exact .prim fun h => hne (by rw [hc, h])
    | scalar s => exact .scalar s
  · rintro x _ _ ⟨rfl, -⟩ ⟨rfl, -⟩; rfl
  · rintro x _ _ ⟨rfl, -⟩ ⟨rfl, -⟩; rfl

/-- Cells allocated on both sides are paired, and nothing else changes. -/
theorem insert (h : Pairing R v v') (hx : (v x).isFree = true) (hx' : (v' x').isFree = true)
    (hc : Cell.Alike (Paired R v v') c c') :
    ∃ R', Pairing R' (v.update x c) (v'.update x' c') ∧ R' x x' ∧
      ∀ y y', Paired R v v' y y' → Paired R' (v.update x c) (v'.update x' c') y y' := by
  have hnot : ∀ y', ¬ R x y' := fun y' hR => by
    rw [(h.alike _ _ hR).isFree_left] at hx; cases hx
  have hnot' : ∀ y, ¬ R y x' := fun y hR => by
    rw [(h.symm.alike _ _ hR).isFree_left] at hx'; cases hx'
  have hkeep : ∀ {v : View} {x : Nat} {c : Cell}, (v x).isFree = true → ∀ {y z}, Stands v y z →
      (v z).isFree = false → Stands (v.update x c) y z := by
    intro v x c hx y z hs hz
    refine hs.congr fun a ha => ?_
    have hne : a ≠ x := by
      rintro rfl
      cases ha with
      | here => rw [hx] at hz; cases hz
      | there hc _ => rw [hc] at hx; cases hx
    rw [View.update_of_ne hne]
  have hmono : ∀ y y', Paired R v v' y y' →
      Paired (fun a a' => R a a' ∨ a = x ∧ a' = x') (v.update x c) (v'.update x' c') y y' := by
    rintro y y' ⟨z, z', hs, hs', hR⟩
    exact ⟨z, z', hkeep hx hs (h.alike _ _ hR).isFree_left,
      hkeep hx' hs' (h.symm.alike _ _ hR).isFree_left, Or.inl hR⟩
  refine ⟨fun a a' => R a a' ∨ a = x ∧ a' = x', ⟨?_, ?_, ?_⟩, Or.inr ⟨rfl, rfl⟩, hmono⟩
  · rintro a a' (hR | ⟨rfl, rfl⟩)
    · have hne : a ≠ x := fun he => hnot a' (he ▸ hR)
      have hne' : a' ≠ x' := fun he => hnot' a (he ▸ hR)
      rw [View.update_of_ne hne, View.update_of_ne hne']
      exact (h.alike a a' hR).mono hmono
    · rw [View.update_self, View.update_self]
      exact hc.mono hmono
  · rintro a a' b' (hR | ⟨ha, ha'⟩) (hR' | ⟨hb, hb'⟩)
    · exact h.left _ _ _ hR hR'
    · exact absurd (hb ▸ hR) (hnot _)
    · exact absurd (ha ▸ hR') (hnot _)
    · rw [ha', hb']
  · rintro a b a' (hR | ⟨ha, ha'⟩) (hR' | ⟨hb, hb'⟩)
    · exact h.right _ _ _ hR hR'
    · exact absurd (hb' ▸ hR) (hnot' _)
    · exact absurd (ha' ▸ hR') (hnot' _)
    · rw [ha, hb]

theorem update (h : Pairing R v v') (hR : R x x') (hc : Cell.Alike (Paired R v v') c c') :
    Pairing R (v.update x c) (v'.update x' c') ∧
      ∀ y y', Paired R v v' y y' → Paired R (v.update x c) (v'.update x' c') y y' := by
  have ha := h.alike _ _ hR
  have hmono : ∀ y y', Paired R v v' y y' → Paired R (v.update x c) (v'.update x' c') y y' := by
    rintro y y' ⟨z, z', hs, hs', hzz⟩
    exact ⟨z, z', hs.update_leaf ha.isInd_left hc.isInd_left,
      hs'.update_leaf ha.isInd_right hc.isInd_right, hzz⟩
  refine ⟨⟨fun a a' hR' => ?_, h.left, h.right⟩, hmono⟩
  by_cases hax : a = x
  · subst hax
    obtain rfl := h.left _ _ _ hR hR'
    rw [View.update_self, View.update_self]
    exact hc.mono hmono
  · have hax' : a' ≠ x' := fun he => hax (h.right _ _ _ hR' (he ▸ hR))
    rw [View.update_of_ne hax, View.update_of_ne hax']
    exact (h.alike a a' hR').mono hmono

/-- A pair overwritten by indirections to a pair stays paired. -/
theorem forward (h : Pairing R v v') (hR : R x x') (hz : R z z') (hne : z ≠ x) :
    ∃ R', Pairing R' (v.update x (.ind z)) (v'.update x' (.ind z')) ∧ ∀ y y', Paired R v v' y y' →
      Paired R' (v.update x (.ind z)) (v'.update x' (.ind z')) y y' := by
  have hne' : z' ≠ x' := fun he => hne (h.right _ _ _ hz (he ▸ hR))
  have ha := h.alike _ _ hR
  have haz := h.alike _ _ hz
  have hmono : ∀ y y', Paired R v v' y y' → Paired (fun a a' => R a a' ∧ a ≠ x)
      (v.update x (.ind z)) (v'.update x' (.ind z')) y y' := by
    rintro y y' ⟨w, w', hs, hs', hw⟩
    have h1 := hs.update_ind ha.isInd_left hne haz.isInd_left
    have h2 := hs'.update_ind ha.isInd_right hne' haz.isInd_right
    by_cases hwx : w = x
    · subst hwx
      obtain rfl := h.left _ _ _ hR hw
      rw [if_pos rfl] at h1 h2
      exact ⟨z, z', h1, h2, hz, hne⟩
    · have hwx' : w' ≠ x' := fun he => hwx (h.right _ _ _ hw (he ▸ hR))
      rw [if_neg hwx] at h1
      rw [if_neg hwx'] at h2
      exact ⟨w, w', h1, h2, hw, hwx⟩
  refine ⟨fun a a' => R a a' ∧ a ≠ x, ⟨?_, ?_, ?_⟩, hmono⟩
  · rintro a a' ⟨hR', hax⟩
    have hax' : a' ≠ x' := fun he => hax (h.right _ _ _ hR' (he ▸ hR))
    rw [View.update_of_ne hax, View.update_of_ne hax']
    exact (h.alike a a' hR').mono hmono
  · exact fun a a' b' h1 h2 => h.left _ _ _ h1.1 h2.1
  · exact fun a b a' h1 h2 => h.right _ _ _ h1.1 h2.1

/-- A collection on one side keeps the pairs it can reach. -/
theorem collect {h h' : Heap} {roots : List Nat} (hp : Pairing R h.get v')
    (hroots : ∀ x ∈ roots, ∃ x', Paired R h.get v' x x') (hc : Heap.Collects h roots h') :
    ∃ R', Pairing R' h'.get v' ∧ ∀ y y', h.Kept roots y → Paired R h.get v' y y' →
      Paired R' h'.get v' y y' := by
  have hG := hp.closed
  have hmono : ∀ y y', h.Kept roots y → Paired R h.get v' y y' →
      Paired (fun a a' => R a a' ∧ h.Kept roots a) h'.get v' y y' := by
    rintro y y' hk ⟨z, z', hs, hs', hR⟩
    exact ⟨z, z', hG.stands_collect hroots hc hk hs, hs', hR, hG.kept_stands hroots hk hs⟩
  refine ⟨fun a a' => R a a' ∧ h.Kept roots a, ⟨?_, ?_, ?_⟩, hmono⟩
  · rintro a a' ⟨hR, hk⟩
    have ha := hp.alike a a' hR
    rw [hc.kept a hk]
    simp only [Heap.shortcuts]
    generalize hcell : h.get a = ca at ha
    generalize v' a' = ca' at ha
    cases ha with
    | @app f f' b b' hf hb =>
      obtain ⟨hkf, hkb⟩ := Machine.kept_app hG hroots hk hcell
      have hres : ∀ {x x'}, Paired R h.get v' x x' → Paired R h.get v' (h.resolve x) x' := by
        intro x x' hx
        have hs := hG.stands_resolve ⟨x', hx⟩
        exact hx.of_sameEnd ⟨_, hs, .here hs.isInd_eq_false⟩
      exact .app (hmono _ _ hkf (hres hf)) (hmono _ _ hkb (hres hb))
    | comb _ | prim _ | scalar _ => constructor <;> assumption
  · exact fun a a' b' h1 h2 => hp.left _ _ _ h1.1 h2.1
  · exact fun a b a' h1 h2 => hp.right _ _ _ h1.1 h2.1

end Pairing

/-- Paired cells have spines of one length, paired throughout. -/
theorem Unwinds.paired (h : Pairing R v v') {args : List Nat} (hu : Unwinds v x args y)
    (hp : Paired R v v' x x') : ∃ args' y', Unwinds v' x' args' y' ∧
      Forall₂ (Paired R v v') args args' ∧ R y y' := by
  induction hu generalizing x' with
  | head hs hn =>
    obtain ⟨z, z', hz, hz', hR⟩ := hp
    obtain rfl := hz.unique hs
    refine ⟨[], z', .head hz' ?_, .nil, hR⟩
    rw [(h.alike _ _ hR).eq_of_notApp hn]
    exact hn
  | app hs hc _ ih =>
    obtain ⟨z, z', hz, hz', hR⟩ := hp
    obtain rfl := hz.unique hs
    have ha := h.alike _ _ hR
    rw [hc] at ha
    generalize hc' : v' z' = c' at ha
    cases ha with
    | app hf ha =>
      obtain ⟨args', y', hu', hargs, hy⟩ := ih hf
      exact ⟨args' ++ [_], y', .app hz' hc' hu', rel_append hargs (.cons ha .nil), hy⟩

end GraphReduction
