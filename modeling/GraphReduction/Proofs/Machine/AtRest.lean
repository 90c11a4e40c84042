import GraphReduction.Proofs.Machine.Lockstep
import GraphReduction.Proofs.Machine.Moves

/-!
# Spines at rest

Whether a cell is in weak head normal form is decided twice: by counting the arguments on its spine
(`isWhnfIn`), and by unwinding the spine on the stack. The first has its own bound on the number of
arguments, and the second goes through safe points, where a collection may change the spine.
-/

namespace GraphReduction

open List

namespace Heap

/-!
## Chains that end
-/

/-- Every chain of indirections that starts at a cell in reach ends. -/
def Ends (h : Heap) (roots : List Nat) : Prop :=
  ∀ x, Reachable h.get (· ∈ roots) x → ∃ y, Stands h.get x y

/-- No way along indirections leads back. -/
def Acyclic (h : Heap) : Prop := ∀ n x, ¬ Path (fun a => (h.get a).target?) (n + 1) x x

section Ends

variable {h : Heap} {roots : List Nat} {x y n : Nat}

theorem Acyclic.ends (hac : h.Acyclic) (roots : List Nat) : h.Ends roots := by
  intro x _
  have hsub : ∀ {n x y}, Path h.forward n x y → Path (fun a => (h.get a).target?) n x y := by
    intro n x y hp
    induction hp with
    | nil x => exact .nil x
    | cons hx _ ih => exact .cons (Cell.target?_eq_some.2 (forward_eq_some.1 hx).1) ih
  have hrest := forward_resolve (h := h) (fun n x hp => hac n x (hsub hp)) x
  refine ⟨h.resolve x, stands_resolve ?_⟩
  cases hc : h.get (h.resolve x) with
  | ind t =>
    -- an indirection that leads nowhere else would lead back to itself
    by_cases ht : t = h.resolve x
    · subst ht
      exact absurd (.cons (Cell.target?_eq_some.2 hc) (.nil _)) (hac 0 _)
    · rw [forward_eq_some.2 ⟨hc, ht⟩] at hrest
      cases hrest
  | _ => rfl

theorem reachable_of_stands {R : Nat → Prop} (hx : Reachable h.get R x) (hs : Stands h.get x y) :
    Reachable h.get R y := by
  induction hs with
  | here => exact hx
  | there hc _ ih => exact ih (.child hx (by rw [hc]; exact mem_singleton_self _))

theorem Ends.reachable (he : h.Ends roots) (hx : Reachable h.shortcuts (· ∈ roots) x) :
    Reachable h.get (· ∈ roots) x := by
  induction hx with
  | root hx => exact .root hx
  | @child x y hx hy ih =>
    have hend : ∀ z ∈ (h.get x).children, Reachable h.get (· ∈ roots) (h.resolve z) := by
      intro z hz
      have hzr := Reachable.child ih hz
      obtain ⟨w, hw⟩ := he z hzr
      rw [resolve_of_stands hw]
      exact reachable_of_stands hzr hw
    unfold shortcuts at hy
    cases hc : h.get x with
    | app f a =>
      simp only [hc, Cell.skip, Cell.children, mem_cons, not_mem_nil, or_false] at hy hend
      rcases hy with rfl | rfl
      · exact hend f (.inl rfl)
      · exact hend a (.inr rfl)
    | ind t =>
      rw [hc] at hy
      exact .child ih (by rw [hc]; exact hy)
    | _ => rw [hc] at hy; cases hy

theorem Ends.of_roots {roots' : List Nat} (he : h.Ends roots)
    (hr : ∀ x ∈ roots', Reachable h.get (· ∈ roots) x) : h.Ends roots' := by
  intro x hx
  refine he x ?_
  induction hx with
  | root hx => exact hr _ hx
  | child _ hy ih => exact .child ih hy

theorem Ends.stands_resolve (he : h.Ends roots) (hx : Reachable h.get (· ∈ roots) x) :
    Stands h.get x (h.resolve x) := by
  obtain ⟨y, hy⟩ := he x hx
  rw [resolve_of_stands hy]
  exact hy

/-- **A collection leaves the indirections in reach as they are.** -/
theorem path_collect (hx : Reachable h.shortcuts (· ∈ roots) x)
    (hp : Path (fun a => (h.get a).target?) n x y) :
    Path (fun a => ((collect roots h).2.get a).target?) n x y ∧
      Reachable h.shortcuts (· ∈ roots) y := by
  induction hp with
  | nil x => exact ⟨.nil x, hx⟩
  | @cons n x t y hc _ ih =>
    have ht : Reachable h.shortcuts (· ∈ roots) t := by
      refine .child hx ?_
      rw [shortcuts, Cell.target?_eq_some.1 hc]
      exact mem_singleton_self t
    obtain ⟨hp, hy⟩ := ih ht
    refine ⟨.cons ?_ hp, hy⟩
    rw [get_collect hx, shortcuts, Cell.target?_skip]
    exact hc

theorem stands_of_path (hp : Path (fun a => (h.get a).target?) n x y)
    (hy : (h.get y).isInd = false) : Stands h.get x y := by
  induction hp with
  | nil x => exact .here hy
  | cons hc _ ih => exact .there (Cell.target?_eq_some.1 hc) (ih hy)

theorem stands_collect (hx : Reachable h.shortcuts (· ∈ roots) x) (hs : Stands h.get x y) :
    Stands (collect roots h).2.get x y ∧ Reachable h.shortcuts (· ∈ roots) y := by
  obtain ⟨n, hp⟩ := hs.path
  obtain ⟨hp', hy⟩ := path_collect hx hp
  refine ⟨stands_of_path hp' ?_, hy⟩
  rw [get_collect hy, shortcuts, Cell.isInd_skip]
  exact hs.isInd_eq_false

theorem Ends.collect (he : h.Ends roots) : (collect roots h).2.Ends roots := by
  intro x hx
  have hx' : Reachable h.shortcuts (· ∈ roots) x :=
    (reachable_congr fun _ hy => get_collect hy).1 hx
  obtain ⟨y, hy⟩ := he x (he.reachable hx')
  exact ⟨y, (stands_collect hx' hy).1⟩

theorem get_collect_of_notApp (hx : Reachable h.shortcuts (· ∈ roots) x) (hc : (h.get x).NotApp) :
    (Heap.collect roots h).2.get x = h.get x := by
  rw [get_collect hx, shortcuts]
  cases hcell : h.get x with
  | app f a => exact absurd hcell (hc f a)
  | _ => rfl

/-- **A collection does not change what counting the arguments on a spine finds.** -/
theorem Ends.boundedSpine_collect {x limit n : Nat} (he : h.Ends roots)
    (hx : Reachable h.shortcuts (· ∈ roots) x) :
    Machine.boundedSpine (Heap.collect roots h).2 limit ((Heap.collect roots h).2.resolve x) n =
      Machine.boundedSpine h limit (h.resolve x) n := by
  obtain ⟨-, hz⟩ := stands_collect hx (he.stands_resolve (he.reachable hx))
  rw [resolve_collect hx]
  rcases (h.get (h.resolve x)).notApp_or_app with hc | ⟨f, a, hc⟩
  · have hsame := get_collect_of_notApp hz hc
    rw [Machine.boundedSpine_of_notApp hc, Machine.boundedSpine_of_notApp (by rw [hsame]; exact hc), hsame]
  · have hcell : (Heap.collect roots h).2.get (h.resolve x) = .app (h.resolve f) (h.resolve a) := by
      rw [get_collect hz, shortcuts, hc]; rfl
    rw [Machine.boundedSpine_of_app hc, Machine.boundedSpine_of_app hcell]
    cases limit with
    | zero => rfl
    | succ limit =>
      have hf : Reachable h.shortcuts (· ∈ roots) (h.resolve f) :=
        .child hz (by rw [shortcuts, hc]; exact mem_cons_self)
      have hff : h.resolve (h.resolve f) = h.resolve f := resolve_of_stands (.here
        (he.stands_resolve (.child (he.reachable hz) (by rw [hc]; exact mem_cons_self))).isInd_eq_false)
      simp only
      rw [Ends.boundedSpine_collect he hf, hff]
termination_by limit

end Ends

end Heap

namespace Machine

/-!
## Counting
-/

section Counting

variable {h : Heap} {x r k n limit : Nat} {c : Cell}

theorem le_of_boundedSpine (hb : boundedSpine h r x k = some (c, n)) : k ≤ n := by
  induction r generalizing x k with
  | zero =>
    rcases (h.get x).notApp_or_app with hc | ⟨f, a, hc⟩
    · rw [boundedSpine_of_notApp hc] at hb; cases hb; exact Nat.le_refl _
    · rw [boundedSpine_of_app hc] at hb; cases hb
  | succ r ih =>
    rcases (h.get x).notApp_or_app with hc | ⟨f, a, hc⟩
    · rw [boundedSpine_of_notApp hc] at hb; cases hb; exact Nat.le_refl _
    · rw [boundedSpine_of_app hc] at hb
      exact Nat.le_of_succ_le (ih hb)

theorem boundedSpine_mono (hb : boundedSpine h r x k = some (c, n)) (hle : r ≤ limit) :
    boundedSpine h limit x k = some (c, n) := by
  induction limit generalizing r x k with
  | zero =>
    obtain rfl : r = 0 := by omega
    exact hb
  | succ limit ih =>
    rcases (h.get x).notApp_or_app with hc | ⟨f, a, hc⟩
    · rw [boundedSpine_of_notApp hc] at hb ⊢
      exact hb
    · rw [boundedSpine_of_app hc] at hb ⊢
      cases r with
      | zero => cases hb
      | succ r => exact ih hb (by omega)

end Counting

/-- What counting finds of the spine at `base` from the top of the stack on, with at most `r` more
arguments. -/
def spineAhead (m : Machine) (base r : Nat) : Option (Cell × Nat) :=
  boundedSpine m.heap r (m.heap.resolve (m.stack.getD (m.stack.size - 1) 0)) (m.stack.size - 1 - base)

section Ahead

variable {m m1 : Machine} {base r : Nat}

theorem top_mem_roots (hpos : 0 < m.stack.size) : m.onTop ∈ m.roots :=
  mem_roots (by omega)

theorem reserve_cases {n : Nat} (h : reserve n m = .ok () m1) :
    m1 = m ∨ m1 = { m with heap := (Heap.collect m.roots m.heap).2 } := by
  have hself : Meets (reserve n) m (fun _ m1 =>
      m1 = m ∨ m1 = { m with heap := (Heap.collect m.roots m.heap).2 }) fun _ _ => True := by
    simp only [reserve, collect, meets_bind, meets_get, meets_ite, meets_modify, meets_fail, meets_pure]
    split
    · split
      · trivial
      · exact Or.inr rfl
    · exact Or.inl trivial
  exact hself.ok h

theorem spineAhead_safePoint (he : m.heap.Ends m.roots) (hpos : 0 < m.stack.size)
    (h : safePoint m = .ok () m1) : m1.spineAhead base r = m.spineAhead base r := by
  rcases reserve_cases h with rfl | rfl
  · rfl
  · exact he.boundedSpine_collect (.root (top_mem_roots hpos))

theorem ends_safePoint (he : m.heap.Ends m.roots) (h : safePoint m = .ok () m1) :
    m1.heap.Ends m1.roots := by
  rcases reserve_cases h with rfl | rfl
  · exact he
  · exact he.collect

theorem ends_push {f a : Nat} (he : m.heap.Ends m.roots) (hpos : 0 < m.stack.size)
    (hc : m.heap.get m.onTop = .app f a) :
    m.heap.Ends { m with stack := m.stack.push f }.roots := by
  refine he.of_roots fun x hx => ?_
  simp only [roots, Array.toList_push, append_assoc, mem_append, mem_singleton] at hx
  rcases hx with hx | rfl | hx
  · exact .root (mem_append_left _ hx)
  · exact .child (.root (top_mem_roots hpos)) (by rw [hc]; exact mem_cons_self)
  · exact .root (mem_append_right _ hx)

theorem ends_follow {t : Nat} (he : m.heap.Ends m.roots) (hpos : 0 < m.stack.size)
    (hc : m.heap.get m.onTop = .ind t) :
    m.heap.Ends { m with stack := m.stack.setIfInBounds (m.stack.size - 1) t }.roots := by
  refine he.of_roots fun x hx => ?_
  simp only [roots, Array.toList_setIfInBounds, mem_append] at hx
  rcases hx with hx | hx
  · rcases mem_or_eq_of_mem_set hx with hx | rfl
    · exact .root (mem_append_left _ hx)
    · exact .child (.root (top_mem_roots hpos)) (by rw [hc]; exact mem_singleton_self _)
  · exact .root (mem_append_right _ hx)

/-- **The function of an application is pushed**: one argument fewer is ahead. -/
theorem spineAhead_push {f a : Nat} (hlt : base < m.stack.size)
    (hc : m.heap.get m.onTop = .app f a) :
    m.spineAhead base (r + 1) = { m with stack := m.stack.push f }.spineAhead base r := by
  have hself : m.heap.resolve m.onTop = m.onTop :=
    Heap.resolve_of_stands (.here (by rw [hc]; rfl))
  unfold spineAhead
  rw [hself, boundedSpine_of_app hc]
  simp only [Array.size_push, Nat.add_sub_cancel, getD_push_eq]
  rw [show m.stack.size - 1 - base + 1 = m.stack.size - base by omega]

theorem spineAhead_follow {t : Nat} (he : m.heap.Ends m.roots) (hpos : 0 < m.stack.size)
    (hc : m.heap.get m.onTop = .ind t) :
    { m with stack := m.stack.setIfInBounds (m.stack.size - 1) t }.spineAhead base r =
      m.spineAhead base r := by
  have hs := he.stands_resolve (.root (top_mem_roots hpos))
  unfold spineAhead
  simp only [Array.size_setIfInBounds]
  rw [getD_set_eq (by omega), Heap.resolve_of_stands (hs.of_ind hc)]

theorem spineAhead_of_notApp (hn : (m.heap.get m.onTop).NotApp)
    (hi : (m.heap.get m.onTop).isInd = false) :
    m.spineAhead base r =
      some (m.heap.get m.onTop, m.stack.size - 1 - base) := by
  rw [spineAhead, Heap.resolve_of_stands (.here hi), boundedSpine_of_notApp hn]

end Ahead

/-!
## Unwinding that changes nothing
-/

/-- Unwinding goes over applications and indirections only. -/
inductive Glides : Machine → Machine → Prop
  | refl (m : Machine) : Glides m m
  | push {m m1 m' : Machine} {f a : Nat} : safePoint m = .ok () m1 →
    m1.heap.get (m1.stack.getD (m1.stack.size - 1) 0) = .app f a → m1.stack.size < m1.stackLimit →
    Glides { m1 with stack := m1.stack.push f } m' → Glides m m'
  | follow {m m1 m' : Machine} {t : Nat} : safePoint m = .ok () m1 →
    m1.heap.get (m1.stack.getD (m1.stack.size - 1) 0) = .ind t →
    t ≠ m1.stack.getD (m1.stack.size - 1) 0 →
    Glides { m1 with stack := m1.stack.setIfInBounds (m1.stack.size - 1) t } m' → Glides m m'

/-- The spine at `base` is at rest. -/
def AtRest (m : Machine) (base : Nat) : Prop :=
  rests (m.heap.get (m.stack.getD (m.stack.size - 1) 0)) (m.stack.size - 1 - base) = true

/-- Unwinding the spine at `base` comes to its end without firing a rule and without forcing
anything. -/
inductive Calm (ev : Evaluators) (base : Nat) : Machine → Machine → Prop
  | done {m m1 m' : Machine} : safePoint m = .ok () m1 → step ev base m1 = .ok .done m' →
    Calm ev base m m'
  | again {m m1 m2 m' : Machine} : safePoint m = .ok () m1 → step ev base m1 = .ok .again m2 →
    m2.stats.steps = m1.stats.steps → Calm ev base m2 m' → Calm ev base m m'

/-- What comes of a look at a spine. -/
inductive Look (base : Nat) (m : Machine) : Progress → Machine → Prop
  | push {f a : Nat} : m.heap.get (m.stack.getD (m.stack.size - 1) 0) = .app f a →
    m.stack.size < m.stackLimit → Look base m .again { m with stack := m.stack.push f }
  | follow {t : Nat} : m.heap.get (m.stack.getD (m.stack.size - 1) 0) = .ind t →
    t ≠ m.stack.getD (m.stack.size - 1) 0 →
    Look base m .again { m with stack := m.stack.setIfInBounds (m.stack.size - 1) t }
  | done : m.AtRest base → Look base m .done m
  | fired {m' : Machine} {k : Nat} : m.stats.steps < m'.stats.steps →
    (base < m.stack.size → base < k) → m'.stack = m.stack.shrink k → Look base m .again m'
  | force {m' : Machine} {a : Nat} : m'.stack = m.stack → Look base m (.force a) m'

section Calm

variable {ev : Evaluators} {m m1 m' : Machine} {base r fuel outer : Nat}

/-- A rule that has fired is counted, and has left the start of its spine on the stack. -/
theorem look_afterRule {x : Run Fired} {n : Nat} (hx : Leaves Moves x) (hq : Quiet x)
    (hle : n ≤ m.stack.size - 1 - base) :
    Meets (do afterRule (m.stack.size - 1) n (← x)) m (fun r m' => Look base m r m') fun _ _ => True := by
  rw [meets_bind]
  refine ((hx m).and (hq m)).mono (fun r m1 h1 => ?_) fun _ _ _ => trivial
  obtain ⟨hmoves, hsteady⟩ := h1
  cases r with
  | waitingFor a => exact .force hsteady.stack
  | yes =>
    simp only [afterRule, meets_bind, meets_modify, meets_truncate, meets_pure]
    exact .fired (k := m.stack.size - 1 - n + 1) (Nat.lt_succ_of_le (steps_le_of_moves hmoves))
      (by omega) (congrArg (Array.shrink · _) hsteady.stack)

theorem look_step (fuel base : Nat) (m : Machine) :
    Meets (step ⟨perform fuel, normalize fuel⟩ base) m (fun r m' => Look base m r m')
      fun _ _ => True := by
  refine meets_step fun x hx => ?_
  cases hx with
  | app hc =>
    simp only [meets_bind, meets_push, meets_pure]
    split
    · trivial
    · exact .push hc (by omega)
  | ind hc hne => exact .follow hc hne
  | comb _ _ hle =>
    exact look_afterRule (leaves_fire allows_moves.toAllows _ _) (quiet_fire _ _) hle
  | prim _ _ hle =>
    exact look_afterRule (leaves_fireStrict allows_moves.toAllows (moving_perform fuel)
      (moving_normalize fuel) _ _) (quiet_fireStrict (quiet_perform fuel) (quiet_normalize fuel)) hle
  | done hr => exact .done hr
  | loop | scalar | free => trivial

/-- What the entries up to the start of the spine stand for is what they stood for before a look. -/
theorem Look.stands {p : Progress} {i z : Nat} (h : Look base m p m') (hlt : base < m.stack.size)
    (hi : i ≤ base) (hs : Stands m'.heap.get (m.stack.getD i 0) z) :
    Stands m'.heap.get (m'.stack.getD i 0) z := by
  cases h with
  | push => rw [getD_push_lt (by omega)]; exact hs
  | @follow t hc hne =>
    by_cases htop : i = m.stack.size - 1
    · subst htop
      rw [getD_set_eq (by omega)]
      exact hs.of_ind hc
    · rw [getD_set_ne htop]; exact hs
  | done => exact hs
  | fired _ hk hstack => rw [hstack, getD_shrink (by have := hk hlt; omega)]; exact hs
  | force hstack => rw [hstack]; exact hs

/-- **Calm unwinding glides** to a spine at rest. -/
theorem exists_glides_of_calm (h : Calm ⟨perform fuel, normalize fuel⟩ base m m') :
    ∃ m1, Glides m m1 ∧ safePoint m1 = .ok () m' ∧ m'.AtRest base := by
  induction h with
  | done hroom hstep =>
    cases (look_step fuel base _).ok hstep with
    | done hr => exact ⟨_, .refl _, hroom, hr⟩
  | again hroom hstep hsteps _ ih =>
    obtain ⟨m1, hg, hroom1, hr⟩ := ih
    cases (look_step fuel base _).ok hstep with
    | push hc hlt => exact ⟨m1, .push hroom hc hlt hg, hroom1, hr⟩
    | follow hc hne => exact ⟨m1, .follow hroom hc hne hg, hroom1, hr⟩
    | fired hlt => omega

theorem step_of_push {f a : Nat} (hc : m.heap.get m.onTop = .app f a)
    (hlt : m.stack.size < m.stackLimit) :
    step ev base m = .ok .again { m with stack := m.stack.push f } := by
  have hpush : push f m = .ok () { m with stack := m.stack.push f } := if_neg (by omega)
  rw [(StepIs.app hc).eq, bind_ok hpush]
  rfl

theorem calm_of_glides (h : Glides m m1) (hroom : safePoint m1 = .ok () m') (hr : m'.AtRest base) :
    Calm ev base m m' := by
  induction h with
  | refl => exact .done hroom (StepIs.done hr).eq
  | push hroom1 hc hlt _ ih => exact .again hroom1 (step_of_push hc hlt) rfl (ih hroom)
  | follow hroom1 hc hne _ ih => exact .again hroom1 (step_of_ind hc hne) rfl (ih hroom)

/-!
## Counting and unwinding agree
-/

/-- **If unwinding glides to a spine at rest, counting finds its head.** -/
theorem counted_of_glides (h : Glides m m1) (hroom : safePoint m1 = .ok () m') (hr : m'.AtRest base)
    (hlt : base < m.stack.size) (hle : m.stack.size ≤ m.stackLimit) (he : m.heap.Ends m.roots) :
    ∃ r c n, m.stack.size + r ≤ m.stackLimit ∧ m.spineAhead base r = some (c, n) ∧ rests c n = true := by
  induction h with
  | refl m =>
    refine ⟨0, _, _, hle, ?_, hr⟩
    rw [← spineAhead_safePoint he (by omega) hroom]
    exact spineAhead_of_notApp (notApp_of_rests hr) (isInd_of_rests hr)
  | push hroom1 hc hpush _ ih =>
    have hst := (Quiet.safePoint _).ok hroom1
    rw [← hst.stack] at hlt hle
    have he1 := ends_safePoint he hroom1
    obtain ⟨r, c, n, hfit, hahead, hr'⟩ := ih hroom (by simp; omega) (by simpa using hpush)
      (ends_push he1 (by omega) hc)
    refine ⟨r + 1, c, n, ?_, ?_, hr'⟩
    · simp only [Array.size_push] at hfit
      rw [← hst.stack, ← hst.stackLimit]; omega
    · rw [← spineAhead_safePoint he (by rw [← hst.stack]; omega) hroom1, spineAhead_push hlt hc]
      exact hahead
  | follow hroom1 hc _ _ ih =>
    have hst := (Quiet.safePoint _).ok hroom1
    rw [← hst.stack] at hlt hle
    have he1 := ends_safePoint he hroom1
    obtain ⟨r, c, n, hfit, hahead, hr'⟩ := ih hroom (by simpa using hlt)
      (by rw [Array.size_setIfInBounds, hst.stackLimit]; exact hle) (ends_follow he1 (by omega) hc)
    refine ⟨r, c, n, ?_, ?_, hr'⟩
    · simp only [Array.size_setIfInBounds] at hfit
      rw [← hst.stack, ← hst.stackLimit]; exact hfit
    · rw [← spineAhead_safePoint he (by rw [← hst.stack]; omega) hroom1,
        ← spineAhead_follow he1 (by omega) hc]
      exact hahead

theorem path_safePoint {k z : Nat} (hpos : 0 < m.stack.size)
    (hp : Path (fun a => (m.heap.get a).target?) k m.onTop z)
    (hz : (m.heap.get z).isInd = false) (h : safePoint m = .ok () m1) :
    Path (fun a => (m1.heap.get a).target?) k m1.onTop z ∧
      (m1.heap.get z).isInd = false := by
  rcases reserve_cases h with rfl | rfl
  · exact ⟨hp, hz⟩
  · obtain ⟨hp', hz'⟩ := Heap.path_collect (.root (top_mem_roots hpos)) hp
    refine ⟨hp', ?_⟩
    show ((Heap.collect m.roots m.heap).2.get z).isInd = false
    rw [Heap.get_collect hz', Heap.shortcuts, Cell.isInd_skip]
    exact hz

/-- **If counting finds a head with too few arguments, unwinding glides to it**, as long as the spine
fits on the stack and safe points find room. -/
theorem glides_of_counted {m : Machine} {base r k z n : Nat} {c : Cell}
    (hp : Path (fun a => (m.heap.get a).target?) k m.onTop z)
    (hz : (m.heap.get z).isInd = false) (hahead : m.spineAhead base r = some (c, n))
    (hr : rests c n = true) (hfit : base + 1 + n ≤ m.stackLimit) (hlt : base < m.stack.size)
    (he : m.heap.Ends m.roots) (hroomy : ∀ m1, Glides m m1 → ∃ m2, safePoint m1 = .ok () m2) :
    ∃ m1 m', Glides m m1 ∧ safePoint m1 = .ok () m' ∧ m'.AtRest base := by
  obtain ⟨m1, hroom⟩ := hroomy m (.refl m)
  have hst := (Quiet.safePoint m).ok hroom
  obtain ⟨hp1, hz1⟩ := path_safePoint (by omega) hp hz hroom
  have he1 := ends_safePoint he hroom
  rw [← spineAhead_safePoint he (by omega) hroom] at hahead
  rw [← hst.stack] at hlt
  rw [← hst.stackLimit] at hfit
  -- the indirections at the top are followed first, then one argument is left behind
  cases hp1 with
  | nil =>
    rcases (m1.heap.get m1.onTop).notApp_or_app with hn | ⟨f, a, hc⟩
    · rw [spineAhead_of_notApp hn hz1] at hahead
      cases hahead
      exact ⟨m, m1, .refl m, hroom, hr⟩
    · cases r with
      | zero =>
        rw [spineAhead, Heap.resolve_of_stands (.here hz1), boundedSpine_of_app hc] at hahead
        cases hahead
      | succ r =>
        rw [spineAhead_push hlt hc] at hahead
        have hle := le_of_boundedSpine hahead
        simp only [Array.size_push, Nat.add_sub_cancel] at hle
        have he2 := ends_push he1 (by omega) hc
        have hs' := he2.stands_resolve (.root (top_mem_roots (by simp)))
        obtain ⟨k', hp'⟩ := hs'.path
        have hpush : m1.stack.size < m1.stackLimit := by omega
        obtain ⟨m2, m', hg, hrest⟩ := glides_of_counted
          (m := { m1 with stack := m1.stack.push f }) hp' hs'.isInd_eq_false hahead hr hfit
          (by simp only [Array.size_push]; omega) he2 fun m2 hg => hroomy m2 (.push hroom hc hpush hg)
        exact ⟨m2, m', .push hroom hc hpush hg, hrest⟩
  | @cons k _ t _ hc hp2 =>
    have hne : t ≠ m1.onTop := by
      rintro rfl
      have := (hp2.unique (Cell.target?_eq_none.2 hz1) (.cons hc hp2) (Cell.target?_eq_none.2 hz1)).1
      omega
    have hind := Cell.target?_eq_some.1 hc
    have he2 := ends_follow he1 (by omega) hind
    rw [← spineAhead_follow he1 (by omega) hind] at hahead
    obtain ⟨m2, m', hg, hrest⟩ := glides_of_counted (k := k) (z := z)
      (m := { m1 with stack := m1.stack.setIfInBounds (m1.stack.size - 1) t })
      (by simp only [onTop, Array.size_setIfInBounds]; rw [getD_set_eq (by omega)]; exact hp2) hz1 hahead hr hfit
      (by simpa using hlt) he2 fun m2 hg => hroomy m2 (.follow hroom hind hne hg)
    exact ⟨m2, m', .follow hroom hind hne hg, hrest⟩
termination_by (r, k)

end Calm

end Machine

end GraphReduction
