import GraphReduction.Proofs.Heap.Pairing
import GraphReduction.Proofs.Lists
import GraphReduction.Proofs.Machine.Spines

/-!
# Twin machines

Two machines are twins if they hold the same graph, in heaps of their own, and their registers
and the world agree. What one of them does can be compared to what the other one does, as long as
neither runs out of memory, of stack, or of the bound on its length.
-/

namespace GraphReduction

open List

/-- The machine ran out of something. -/
def Halt.Exhausted : Halt → Prop
  | .outOfFuel | .error (.outOfMemory _) | .error (.stackOverflow _) => True
  | .error _ => False

namespace Machine

/-- The worlds, what was done to them, and the counters agree. -/
structure SameTrace (m m' : Machine) : Prop where
  world : m'.world = m.world
  performed : m'.performed = m.performed
  stats : m'.stats = m.stats

theorem SameTrace.symm {m m' : Machine} (h : SameTrace m m') : SameTrace m' m :=
  ⟨h.world.symm, h.performed.symm, h.stats.symm⟩

/-- Started in `m` and `m'`, `x` and `x'` both end with `Q`, or fail in the same way, or one of
them is exhausted. -/
def Both {α α' : Type} (x : Run α) (x' : Run α') (m m' : Machine)
    (Q : α → α' → Machine → Machine → Prop) : Prop :=
  match x m, x' m' with
  | .ok a m1, .ok a' m1' => Q a a' m1 m1'
  | .error e m1, .error e' m1' => e.Exhausted ∨ e'.Exhausted ∨ e = e' ∧ SameTrace m1 m1'
  | .error e _, .ok _ _ => e.Exhausted
  | .ok _ _, .error e' _ => e'.Exhausted

section Both

variable {α α' β β' : Type} {x : Run α} {x' : Run α'} {g : α → Run β} {g' : α' → Run β'}
  {m m' : Machine} {Q Q' : α → α' → Machine → Machine → Prop}
  {S : β → β' → Machine → Machine → Prop} {E : Halt → Machine → Prop}

theorem Both.mono (h : Both x x' m m' Q) (hQ : ∀ a a' m1 m1', Q a a' m1 m1' → Q' a a' m1 m1') :
    Both x x' m m' Q' := by
  unfold Both at h ⊢
  cases hx : x m <;> cases hx' : x' m' <;> simp only [hx, hx'] at h ⊢
  · exact hQ _ _ _ _ h
  all_goals exact h

theorem Both.congr {y : Run α} {y' : Run α'} {n n' : Machine} (hx : x m = y n)
    (hx' : x' m' = y' n') (h : Both y y' n n' Q) : Both x x' m m' Q := by
  unfold Both
  rw [hx, hx']
  exact h

/-- **A sequence**: the rests start where the first parts end. -/
theorem Both.bind (h : Both x x' m m' Q)
    (hg : ∀ a a' m1 m1', Q a a' m1 m1' → Both (g a) (g' a') m1 m1' S) :
    Both (x >>= g) (x' >>= g') m m' S := by
  unfold Both at h
  cases hx : x m with
  | ok a m1 =>
    cases hx' : x' m' with
    | ok a' m1' =>
      simp only [hx, hx'] at h
      unfold Both
      rw [bind_ok hx, bind_ok hx']
      exact hg a a' m1 m1' h
    | error e' m1' =>
      simp only [hx, hx'] at h
      unfold Both
      rw [bind_ok hx, bind_error hx']
      cases g a m1 with
      | ok => exact h
      | error => exact Or.inr (Or.inl h)
  | error e m1 =>
    cases hx' : x' m' with
    | ok a' m1' =>
      simp only [hx, hx'] at h
      unfold Both
      rw [bind_error hx, bind_ok hx']
      cases g' a' m1' with
      | ok => exact h
      | error => exact Or.inl h
    | error e' m1' =>
      simp only [hx, hx'] at h
      unfold Both
      rw [bind_error hx, bind_error hx']
      exact h

/-- Both end unless they are exhausted, and the second one ends with what the first one leads to. -/
theorem Both.of_meets {P : α → Machine → Prop} (h : Meets x m P fun e _ => e.Exhausted)
    (h' : ∀ a m1, P a m1 → Meets x' m' (fun a' m1' => Q a a' m1 m1') fun e _ => e.Exhausted) :
    Both x x' m m' Q := by
  unfold Both
  cases hm : x m with
  | ok a m1 =>
    have hx' := h' a m1 (h.ok hm)
    cases hm' : x' m' with
    | ok => exact hx'.ok hm'
    | error => exact hx'.error hm'
  | error e m1 =>
    cases x' m' with
    | ok => exact h.error hm
    | error => exact Or.inl (h.error hm)

theorem Both.of_left (h : Meets x m (fun _ _ => False) fun e _ => e.Exhausted) :
    Both x x' m m' Q := .of_meets h fun _ _ hf => hf.elim

theorem Both.symm (h : Both x x' m m' Q) :
    Both x' x m' m fun a' a m1' m1 => Q a a' m1 m1' := by
  unfold Both at h ⊢
  cases hx : x m <;> cases hx' : x' m' <;> simp only [hx, hx'] at h ⊢
  · exact h
  · exact h
  · exact h
  · rcases h with h | h | ⟨h, ht⟩
    · exact Or.inr (Or.inl h)
    · exact Or.inl h
    · exact Or.inr (Or.inr ⟨h.symm, ht.symm⟩)

theorem Both.of_right (h : Meets x' m' (fun _ _ => False) fun e _ => e.Exhausted) :
    Both x x' m m' Q := by
  have hleft : Both x' x m' m fun a' a m1' m1 => Q a a' m1 m1' := .of_left h
  exact hleft.symm

theorem Both.and_left {P : α → Machine → Prop} (h : Both x x' m m' Q) (hx : Meets x m P E) :
    Both x x' m m' fun a a' m1 m1' => Q a a' m1 m1' ∧ P a m1 := by
  unfold Meets at hx
  unfold Both at h ⊢
  cases hm : x m <;> cases hm' : x' m' <;> simp only [hm, hm'] at h hx ⊢
  · exact ⟨h, hx⟩
  all_goals exact h

theorem Both.and_right {P : α' → Machine → Prop} (h : Both x x' m m' Q) (hx : Meets x' m' P E) :
    Both x x' m m' fun a a' m1 m1' => Q a a' m1 m1' ∧ P a' m1' := (h.symm.and_left hx).symm

theorem both_of_ok {a : α} {a' : α'} {m1 m1' : Machine} (hx : x m = .ok a m1)
    (hx' : x' m' = .ok a' m1') : Both x x' m m' Q ↔ Q a a' m1 m1' := by
  unfold Both; rw [hx, hx']

theorem both_bind_of_ok {a : α} {a' : α'} {m1 m1' : Machine} (hx : x m = .ok a m1)
    (hx' : x' m' = .ok a' m1') :
    Both (x >>= g) (x' >>= g') m m' S ↔ Both (g a) (g' a') m1 m1' S := by
  unfold Both; rw [bind_ok hx, bind_ok hx']

theorem both_fail {e e' : RuntimeError} (he : e = e') (ht : SameTrace m m') :
    Both (fail e) (fail e') m m' Q := Or.inr (Or.inr ⟨he ▸ rfl, ht⟩)

theorem both_malformed {e : GraphFault} (ht : SameTrace m m') :
    Both (malformed e) (malformed e) m m' Q := both_fail rfl ht

end Both

/-!
## Twins
-/

/-- `R` pairs the graphs of two machines, and the registers agree. -/
structure Twin (R : Nat → Nat → Prop) (m m' : Machine) : Prop where
  pairing : Pairing R m.heap.get m'.heap.get
  free : m.heap.FreeList fun _ => False
  free' : m'.heap.FreeList fun _ => False
  size : m'.stack.size = m.stack.size
  stack : ∀ i, i < m.stack.size →
    Paired R m.heap.get m'.heap.get (m.stack.getD i 0) (m'.stack.getD i 0)
  pinned : Forall₂ (Paired R m.heap.get m'.heap.get) m.pinned m'.pinned
  frames : m'.frames = m.frames
  depth : m'.depth = m.depth
  trace : SameTrace m m'

/-- The machines are twins, and the pairs `held` are cells of the same nodes. -/
def Twins (m m' : Machine) (held : List (Nat × Nat)) : Prop :=
  ∃ R, Twin R m m' ∧ ∀ p ∈ held, Paired R m.heap.get m'.heap.get p.1 p.2

section Twin

variable {R R' : Nat → Nat → Prop} {m m' : Machine}

theorem Twin.symm (h : Twin R m m') : Twin (fun x' x => R x x') m' m := by
  refine ⟨h.pairing.symm, h.free', h.free, h.size.symm, fun i hi => ?_, ?_, h.frames.symm,
    h.depth.symm, h.trace.symm⟩
  · exact (h.stack i (by rw [← h.size]; exact hi)).symm
  · exact (h.pinned.imp fun _ _ hp => hp.symm).flip

theorem Twin.sound (h : Twin R m m') :
    m.Sound fun x => ∃ x', Paired R m.heap.get m'.heap.get x x' := by
  refine ⟨h.pairing.closed, h.free.of_inUse h.pairing.closed.inUse, fun x hx => ?_⟩
  rcases mem_append.1 hx with hx | hx
  · obtain ⟨i, hi, rfl⟩ := getElem_of_mem hx
    rw [Array.length_toList] at hi
    have hp := h.stack i hi
    rw [Array.getD_eq_getD_getElem?, Array.getElem?_eq_getElem hi] at hp
    exact ⟨_, hp⟩
  · obtain ⟨x', -, hx'⟩ := exists_of_forall₂ h.pinned hx
    exact ⟨x', hx'⟩

theorem Twin.heaps (h : Twin R m m') {h1 h1' : Heap} (hp : Pairing R' h1.get h1'.get)
    (hf : h1.FreeList fun _ => False) (hf' : h1'.FreeList fun _ => False)
    (hmono : ∀ x x', x ∈ m.roots → Paired R m.heap.get m'.heap.get x x' →
      Paired R' h1.get h1'.get x x') : Twin R' { m with heap := h1 } { m' with heap := h1' } := by
  refine ⟨hp, hf, hf', h.size, fun i hi => ?_, ?_, h.frames, h.depth, ⟨h.trace.world,
    h.trace.performed, h.trace.stats⟩⟩
  · refine hmono _ _ (mem_append_left _ ?_) (h.stack i hi)
    have hi : i < m.stack.size := hi
    simp [Array.getD_eq_getD_getElem?, hi]
  · have hmem : Forall₂ (fun x x' => x ∈ m.pinned ∧ Paired R m.heap.get m'.heap.get x x')
        m.pinned m'.pinned := (forall₂_and_left _ _).2 ⟨fun _ hx => hx, h.pinned⟩
    exact hmem.imp fun x x' hx => hmono x x' (mem_append_right _ hx.1) hx.2

end Twin

namespace Twins

variable {m m' : Machine} {held held' : List (Nat × Nat)} {x x' : Nat}

section

variable (h : Twins m m' held)
include h

theorem mono (hsub : ∀ p ∈ held', p ∈ held) : Twins m m' held' := by
  obtain ⟨R, hR, hh⟩ := h
  exact ⟨R, hR, fun p hp => hh p (hsub p hp)⟩

theorem nil : Twins m m' [] := h.mono fun p hp => by cases hp

theorem symm : Twins m' m (held.map Prod.swap) := by
  obtain ⟨R, hR, hh⟩ := h
  refine ⟨_, hR.symm, fun p hp => ?_⟩
  obtain ⟨q, hq, rfl⟩ := mem_map.1 hp
  exact (hh q hq).symm

theorem trace : SameTrace m m' := by
  obtain ⟨R, hR, -⟩ := h
  exact hR.trace

theorem safe : m.Safe (held.map Prod.fst) := by
  obtain ⟨R, hR, hh⟩ := h
  refine ⟨_, hR.sound, fun x hx => ?_⟩
  obtain ⟨p, hp, rfl⟩ := mem_map.1 hx
  exact ⟨_, hh p hp⟩

theorem size : m'.stack.size = m.stack.size := by
  obtain ⟨R, hR, -⟩ := h
  exact hR.size

theorem entry {i : Nat} (hi : i < m.stack.size) :
    Twins m m' ((m.stack.getD i 0, m'.stack.getD i 0) :: held) := by
  obtain ⟨R, hR, hh⟩ := h
  exact ⟨R, hR, forall_mem_cons.2 ⟨hR.stack i hi, hh⟩⟩

theorem app (hx : (x, x') ∈ held) {f a f' a' : Nat}
    (hc : m.heap.get x = .app f a) (hc' : m'.heap.get x' = .app f' a') :
    Twins m m' ((f, f') :: (a, a') :: held) := by
  obtain ⟨R, hR, hh⟩ := h
  have hxx := Pairing.of_paired (hh _ hx) (by rw [hc]; rfl) (by rw [hc']; rfl)
  have ha := hR.pairing.alike _ _ hxx
  rw [hc, hc'] at ha
  cases ha with
  | app hf ha => exact ⟨R, hR, forall_mem_cons.2 ⟨hf, forall_mem_cons.2 ⟨ha, hh⟩⟩⟩

theorem ind_left (hx : (x, x') ∈ held) {t : Nat}
    (hc : m.heap.get x = .ind t) : Twins m m' ((t, x') :: held) := by
  obtain ⟨R, hR, hh⟩ := h
  obtain ⟨y, y', hy, hy', hyy⟩ := hh _ hx
  exact ⟨R, hR, forall_mem_cons.2 ⟨⟨y, y', hy.of_ind hc, hy', hyy⟩, hh⟩⟩

theorem alike (hx : (x, x') ∈ held) (hi : (m.heap.get x).isInd = false)
    (hi' : (m'.heap.get x').isInd = false) :
    Cell.Alike (fun y y' => Twins m m' ((y, y') :: held)) (m.heap.get x) (m'.heap.get x') := by
  obtain ⟨R, hR, hh⟩ := h
  refine (hR.pairing.alike _ _ (Pairing.of_paired (hh _ hx) hi hi')).mono fun y y' hy => ?_
  exact ⟨R, hR, forall_mem_cons.2 ⟨hy, hh⟩⟩

/-- **The spines of twins.** -/
theorem unwinds (hx : (x, x') ∈ held) {args : List Nat} {y : Nat}
    (hu : Unwinds m.heap.get x args y) : ∃ args' y', Unwinds m'.heap.get x' args' y' ∧
      args'.length = args.length ∧ m'.heap.get y' = m.heap.get y ∧
      Twins m m' ((y, y') :: args.zip args' ++ held) := by
  obtain ⟨R, hR, hh⟩ := h
  obtain ⟨args', y', hu', hargs, hy⟩ := hu.paired hR.pairing (hh _ hx)
  refine ⟨args', y', hu', hargs.length_eq.symm, (hR.pairing.alike _ _ hy).eq_of_notApp hu.notApp,
    R, hR, forall_mem_append.2 ⟨forall_mem_cons.2 ⟨hR.pairing.paired hy, fun p hp => ?_⟩, hh⟩⟩
  exact forall₂_zip hargs hp

theorem push (hx : (x, x') ∈ held) :
    Twins { m with stack := m.stack.push x } { m' with stack := m'.stack.push x' } held := by
  obtain ⟨R, hR, hh⟩ := h
  refine ⟨R, { hR with size := by simp [hR.size], stack := fun i hi => ?_, trace := { hR.trace with } }, hh⟩
  rcases Nat.lt_or_ge i m.stack.size with hlt | hge
  · rw [getD_push_lt hlt, getD_push_lt (by rw [hR.size]; exact hlt)]
    exact hR.stack i hlt
  · obtain rfl : i = m.stack.size := by simp at hi; omega
    have hx' : (m'.stack.push x').getD m.stack.size 0 = x' := by rw [← hR.size, getD_push_eq]
    rw [getD_push_eq, hx']
    exact hh _ hx

theorem shrink (n : Nat) :
    Twins { m with stack := m.stack.shrink n } { m' with stack := m'.stack.shrink n } held := by
  obtain ⟨R, hR, hh⟩ := h
  refine ⟨R, { hR with size := by simp [hR.size], stack := fun i hi => ?_, trace := { hR.trace with } }, hh⟩
  obtain ⟨hin, his⟩ : i < n ∧ i < m.stack.size := by simpa [Nat.lt_min] using hi
  rw [getD_shrink hin, getD_shrink hin]
  exact hR.stack i his

theorem setEntry (hx : (x, x') ∈ held) (i : Nat) :
    Twins { m with stack := m.stack.setIfInBounds i x }
      { m' with stack := m'.stack.setIfInBounds i x' } held := by
  obtain ⟨R, hR, hh⟩ := h
  refine ⟨R, { hR with size := by simp [hR.size], stack := fun j hj => ?_, trace := { hR.trace with } }, hh⟩
  replace hj : j < m.stack.size := by simpa using hj
  by_cases hji : j = i
  · subst hji
    rw [getD_set_eq hj, getD_set_eq (by rw [hR.size]; exact hj)]
    exact hh _ hx
  · rw [getD_set_ne hji, getD_set_ne hji]
    exact hR.stack j hj

theorem setEntry_left {i : Nat} (hi : i < m.stack.size)
    (hx : (x, m'.stack.getD i 0) ∈ held) :
    Twins { m with stack := m.stack.setIfInBounds i x } m' held := by
  obtain ⟨R, hR, hh⟩ := h
  refine ⟨R, { hR with size := by simp [hR.size], stack := fun j hj => ?_, trace := { hR.trace with } }, hh⟩
  replace hj : j < m.stack.size := by simpa using hj
  by_cases hji : j = i
  · subst hji
    rw [getD_set_eq hj]
    exact hh _ hx
  · rw [getD_set_ne hji]
    exact hR.stack j hj

theorem frames : m'.frames = m.frames := by
  obtain ⟨R, hR, -⟩ := h
  exact hR.frames

theorem depth : m'.depth = m.depth := by
  obtain ⟨R, hR, -⟩ := h
  exact hR.depth

theorem setDepth (depth : Nat) :
    Twins { m with depth } { m' with depth } held := by
  obtain ⟨R, hR, hh⟩ := h
  exact ⟨R, { hR with depth := rfl, trace := { hR.trace with } }, hh⟩

theorem setFrames (frames : Array Nat) :
    Twins { m with frames } { m' with frames } held := by
  obtain ⟨R, hR, hh⟩ := h
  exact ⟨R, { hR with frames := rfl, trace := { hR.trace with } }, hh⟩

theorem outside (world : World) (performed : List Operation) :
    Twins { m with world, performed } { m' with world, performed } held := by
  obtain ⟨R, hR, hh⟩ := h
  exact ⟨R, { hR with trace := ⟨rfl, rfl, hR.trace.stats⟩ }, hh⟩

theorem counters (stats : Stats) :
    Twins { m with stats } { m' with stats } held := by
  obtain ⟨R, hR, hh⟩ := h
  exact ⟨R, { hR with trace := { hR.trace with stats := rfl } }, hh⟩

theorem restore (size frameCount depth : Nat) :
    Twins (m.restore size frameCount depth) (m'.restore size frameCount depth) held := by
  unfold Machine.restore
  rw [h.frames]
  exact ((h.shrink size).setFrames (m.frames.shrink frameCount)).setDepth depth

end

end Twins

/-!
## The same operation on twins
-/

section Operations

variable {m m' : Machine} {held : List (Nat × Nat)} {x x' t t' r r' : Nat} {c c' : Cell}

/-- Only new cells were added. -/
structure Extends (m m1 : Machine) : Prop where
  stack : m1.stack = m.stack
  cells : ∀ x, (m.heap.get x).isFree = false → m1.heap.get x = m.heap.get x

theorem extends_of_allocates {id : Nat} {h1 : Heap} (hal : Heap.Allocates m.heap c id h1) :
    Extends m { m with heap := h1 } := by
  refine ⟨rfl, fun x hx => ?_⟩
  show h1.get x = _
  have hne : x ≠ id := by rintro rfl; rw [hal.wasFree] at hx; cases hx
  rw [hal.view, View.update_of_ne hne]

/-- **New cells with the same contents.** -/
theorem twins_alloc (h : Twins m m' held) (hc : Cell.Alike (fun y y' => (y, y') ∈ held) c c') :
    Both (alloc c) (alloc c') m m' fun id id' m1 m1' =>
      Twins m1 m1' ((id, id') :: held) ∧ Extends m m1 ∧ Extends m' m1' := by
  obtain ⟨R, hR, hh⟩ := h
  have hs := hR.sound
  have hs' := hR.symm.sound
  unfold Both alloc
  rcases Heap.alloc_cases hs.free (fun x hx => hs.lt_size hx) c with
    ⟨he, -⟩ | ⟨id, h1, he, hid, hal, hfl⟩
  · rw [he]
    cases Heap.alloc c' m'.heap with
    | ok => exact trivial
    | error => exact Or.inl trivial
  rcases Heap.alloc_cases hs'.free (fun x hx => hs'.lt_size hx) c' with
    ⟨he', -⟩ | ⟨id', h1', he', hid', hal', hfl'⟩
  · rw [he, he']; exact trivial
  · rw [he, he']
    obtain ⟨R', hp, hnew, hmono⟩ := hR.pairing.insert hal.wasFree hal'.wasFree
      (hc.mono fun y y' hy => hh _ hy)
    rw [← hal.view, ← hal'.view] at hp
    simp only [← hal.view, ← hal'.view] at hmono
    refine ⟨⟨R', hR.heaps hp (hfl.mono fun _ h => h.elim) (hfl'.mono fun _ h => h.elim)
      fun y y' _ => hmono y y', forall_mem_cons.2 ⟨hp.paired hnew, fun p hp' => ?_⟩⟩,
      extends_of_allocates hal, extends_of_allocates hal'⟩
    exact hmono _ _ (hh p hp')

/-- Cells of the same node that are about to be overwritten, neither of them an indirection. -/
structure Rewriting (m m' : Machine) (held : List (Nat × Nat)) (r r' : Nat) : Prop where
  twins : Twins m m' held
  mem : (r, r') ∈ held
  isInd : (m.heap.get r).isInd = false
  isInd' : (m'.heap.get r').isInd = false

/-- Both rules have fired and left twins. -/
def BothFired (r r' : Fired) (m m' : Machine) : Prop := r = .yes ∧ r' = .yes ∧ Twins m m' []

theorem Twin.set {R R' : Nat → Nat → Prop} (h : Twin R m m')
    (hr : Paired R m.heap.get m'.heap.get r r')
    (hp : Pairing R' (View.update m.heap.get r c) (View.update m'.heap.get r' c'))
    (hmono : ∀ x x', Paired R m.heap.get m'.heap.get x x' →
      Paired R' (View.update m.heap.get r c) (View.update m'.heap.get r' c') x x') :
    Twins { m with heap := m.heap.set r c } { m' with heap := m'.heap.set r' c' } [] := by
  have hs := h.sound
  have hs' := h.symm.sound
  have hG : ∃ x', Paired R m.heap.get m'.heap.get r x' := ⟨r', hr⟩
  have hG' : ∃ x, Paired (fun a' a => R a a') m'.heap.get m.heap.get r' x := ⟨r, hr.symm⟩
  rw [← Heap.get_set (hs.lt_size hG), ← Heap.get_set (hs'.lt_size hG')] at hp
  simp only [← Heap.get_set (hs.lt_size hG), ← Heap.get_set (hs'.lt_size hG')] at hmono
  exact ⟨R', h.heaps hp ((hs.free.set hG).mono fun _ h => h.elim)
    ((hs'.free.set hG').mono fun _ h => h.elim) fun y y' _ => hmono y y', by simp⟩

/-- **A cell overwritten with the same contents.** -/
theorem twins_overwrite (h : Rewriting m m' held r r')
    (hc : Cell.Alike (fun y y' => (y, y') ∈ held) c c') :
    Both (overwrite r c) (overwrite r' c') m m' BothFired := by
  obtain ⟨⟨R, hR, hh⟩, hr, hi, hi'⟩ := h
  obtain ⟨hp, hmono⟩ := hR.pairing.update (Pairing.of_paired (hh _ hr) hi hi')
    (hc.mono fun y y' hy => hh _ hy)
  exact ⟨rfl, rfl, hR.set (hh _ hr) hp hmono⟩

theorem forward_eq {z : Nat} (hz : Stands m.heap.get t z) : forward r t m =
    if z = r then .error (.error (.malformed .loop)) m
    else .ok .yes { m with heap := m.heap.set r (.ind z) } := by
  have hres : resolve t m = .ok z m := by
    show EStateM.Result.ok (m.heap.resolve t) m = _
    rw [Heap.resolve_of_stands hz]
  unfold forward updateInd
  rw [bind_assoc, bind_ok hres]
  by_cases hzr : z = r
  · rw [if_pos hzr, if_pos hzr]; rfl
  · rw [if_neg hzr, if_neg hzr]; rfl

/-- **A cell made to stand for another one**, unless that one stands for it. -/
theorem twins_forward (h : Rewriting m m' held r r') (ht : (t, t') ∈ held) :
    Both (forward r t) (forward r' t') m m' BothFired := by
  obtain ⟨⟨R, hR, hh⟩, hr, hi, hi'⟩ := h
  have hrr := Pairing.of_paired (hh _ hr) hi hi'
  obtain ⟨z, z', hz, hz', hzz⟩ := hh _ ht
  have hiff : z = r ↔ z' = r' := by
    constructor
    · rintro rfl; exact hR.pairing.left _ _ _ hzz hrr
    · rintro rfl; exact hR.pairing.right _ _ _ hzz hrr
  unfold Both
  rw [forward_eq hz, forward_eq hz']
  by_cases hzr : z = r
  · rw [if_pos hzr, if_pos (hiff.1 hzr)]
    exact Or.inr (Or.inr ⟨rfl, hR.trace⟩)
  · rw [if_neg hzr, if_neg (mt hiff.2 hzr)]
    obtain ⟨R', hp, hmono⟩ := hR.pairing.forward hrr hzz hzr
    exact ⟨rfl, rfl, hR.set (hh _ hr) hp hmono⟩

/-- **Making room in one of the machines** leaves twins. -/
theorem Twins.reserve_left (h : Twins m m' held) (n : Nat) :
    Meets (reserve n) m (fun _ m1 => Twins m1 m' []) fun e _ => e.Exhausted := by
  have hnil := h.nil
  obtain ⟨R, hR, -⟩ := h
  have hs := hR.sound
  refine meets_reserve hs (fun _ _ => hnil) (fun h1 hc _ _ => ?_) fun _ _ _ => trivial
  obtain ⟨R', hp, hmono⟩ := hR.pairing.collect hs.roots hc
  obtain ⟨l, hl, -⟩ := hc.free
  have hf : h1.FreeList (m.heap.Kept m.roots) := ⟨l, hl⟩
  refine ⟨R', hR.heaps hp (hf.mono fun _ h => h.elim) hR.free' fun x x' hx hxx => ?_, by simp⟩
  exact hmono x x' (hs.closed.kept_of_root hs.roots hx) hxx

theorem Twins.reserve_right (h : Twins m m' held) (n : Nat) :
    Meets (reserve n) m' (fun _ m1' => Twins m m1' []) fun e _ => e.Exhausted :=
  (h.symm.reserve_left n).imp fun _ _ h1 => h1.symm

theorem twins_reserve (h : Twins m m' held) (n : Nat) :
    Both (reserve n) (reserve n) m m' fun _ _ m1 m1' => Twins m1 m1' [] :=
  .of_meets (h.reserve_left n) fun _ _ h1 => h1.reserve_right n

theorem twins_onWorld (h : Twins m m' held) (o : Operation) :
    Both (onWorld o) (onWorld o) m m' fun a a' m1 m1' => a' = a ∧ Twins m1 m1' held ∧
      m1.stack = m.stack := by
  have ht := h.trace
  unfold Both onWorld
  rw [ht.world, ht.performed]
  cases ho : o.perform m.world with
  | ok a world => exact ⟨rfl, h.outside world (o :: m.performed), rfl⟩
  | error e world => exact Or.inr (Or.inr ⟨rfl, rfl, rfl, ht.stats⟩)

theorem twins_enter (h : Twins m m' held) : Both enter enter m m' fun _ _ m1 m1' =>
    Twins m1 m1' held ∧ m1 = { m with depth := m.depth + 1 } ∧
      m1' = { m' with depth := m'.depth + 1 } := by
  have hone : ∀ m : Machine, Meets enter m (fun _ m1 => m1 = { m with depth := m.depth + 1 })
      fun e _ => e.Exhausted := by
    intro m
    rw [meets_enter]
    split <;> trivial
  refine .of_meets (hone m) fun _ _ h1 => (hone m').imp fun _ _ h1' => ⟨?_, h1, h1'⟩
  rw [h1, h1', h.depth]
  exact h.setDepth (m.depth + 1)

theorem twins_push (h : Twins m m' held) (hx : (x, x') ∈ held) :
    Both (push x) (push x') m m' fun _ _ m1 m1' => Twins m1 m1' held ∧
      m1 = { m with stack := m.stack.push x } ∧ m1' = { m' with stack := m'.stack.push x' } := by
  have hone : ∀ (m : Machine) x, Meets (push x) m (fun _ m1 => m1 = { m with stack := m.stack.push x })
      fun e _ => e.Exhausted := by
    intro m x
    rw [meets_push]
    split <;> trivial
  refine .of_meets (hone m x) fun _ _ h1 => (hone m' x').imp fun _ _ h1' => ⟨?_, h1, h1'⟩
  rw [h1, h1']
  exact h.push hx

/-- **A nested evaluation** of the same node. -/
theorem twins_nested {α : Type} {body body' : Nat → Run α}
    {Q : α → α → Machine → Machine → Prop} (h : Twins m m' [(x, x')])
    (hbody : Twins { m with depth := m.depth + 1, stack := m.stack.push x }
        { m' with depth := m'.depth + 1, stack := m'.stack.push x' } [(x, x')] →
      Both (body m.stack.size) (body' m.stack.size)
        { m with depth := m.depth + 1, stack := m.stack.push x }
        { m' with depth := m'.depth + 1, stack := m'.stack.push x' } Q) :
    Both (nested x body) (nested x' body') m m' fun a a' m2 m2' => ∃ n n', Q a a' n n' ∧
      m2 = n.restore m.stack.size m.frames.size m.depth ∧
      m2' = n'.restore m.stack.size m.frames.size m.depth := by
  have hinner : Both (do enter; push x; body m.stack.size) (do enter; push x'; body' m.stack.size)
      m m' Q := by
    refine (twins_enter h).bind fun _ _ m1 m1' h1 => ?_
    obtain ⟨h1, rfl, rfl⟩ := h1
    refine (twins_push h1 mem_cons_self).bind fun _ _ m2 m2' h2 => ?_
    obtain ⟨h2, rfl, rfl⟩ := h2
    exact hbody h2
  unfold Both nested
  unfold Both at hinner
  simp only [h.size, h.frames, h.depth]
  cases hm : (do enter; push x; body m.stack.size : Run α) m <;>
    cases hm' : (do enter; push x'; body' m.stack.size : Run α) m' <;>
    simp only [hm, hm'] at hinner ⊢
  · exact ⟨_, _, hinner, rfl, rfl⟩
  · exact hinner
  · exact hinner
  · rcases hinner with he | he | ⟨he, ht⟩
    · exact Or.inl he
    · exact Or.inr (Or.inl he)
    · exact Or.inr (Or.inr ⟨he, ht.world, ht.performed, ht.stats⟩)

end Operations

end Machine

end GraphReduction
