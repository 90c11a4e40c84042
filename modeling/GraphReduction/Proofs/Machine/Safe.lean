import GraphReduction.Proofs.Machine.Registers
import GraphReduction.Proofs.Machine.Sound
import GraphReduction.Proofs.World

/-!
# Evaluation keeps a machine sound

A computation holds cells that are not on the stack: the arguments that it has read and the cells
that it has made. `Safe m held` says that the machine is sound with a set that has them. A
collection forgets what is held, so everything that is used after a safe point is read again.

Every operation takes a safe machine to a safe machine, and if it fails, then neither because the
free list is corrupt nor because a cell is not in use (`SafeHalt`).
-/

namespace GraphReduction

open List

/-- Errors that do not come from a corrupt graph. -/
def Halt.Harmless : Halt → Prop
  | .error (.malformed (.freeListCorrupt _)) | .error (.malformed (.unallocated _)) => False
  | _ => True

theorem Halt.IsMistake.harmless {e : Halt} (h : e.IsMistake) : e.Harmless := by
  unfold IsMistake at h
  split at h <;> trivial

namespace Machine

/-- The machine is sound with a set that has the cells `held`. -/
def Safe (m : Machine) (held : List Nat) : Prop := ∃ G, m.Sound G ∧ ∀ x ∈ held, G x

/-- How a computation may fail. -/
def SafeHalt (e : Halt) (m : Machine) : Prop := e.Harmless ∧ m.Safe []

variable {α : Type} {m m' : Machine} {held held' : List Nat} {x id redex : Nat} {c : Cell}

namespace Safe

section

variable (h : m.Safe held)
include h

theorem mono (hsub : ∀ x ∈ held', x ∈ held) : m.Safe held' := by
  obtain ⟨G, hG, hheld⟩ := h
  exact ⟨G, hG, fun x hx => hheld x (hsub x hx)⟩

theorem nil : m.Safe [] := h.mono fun x hx => by cases hx

theorem halt {e : Halt} (he : e.Harmless) : SafeHalt e m := ⟨he, h.nil⟩

theorem congr (hheap : m'.heap = m.heap)
    (hroots : ∀ x ∈ m'.roots, x ∈ m.roots ∨ x ∈ held) : m'.Safe held := by
  obtain ⟨G, hG, hheld⟩ := h
  exact ⟨G, hG.congr hheap fun x hx => (hroots x hx).elim (hG.roots x) (hheld x), hheld⟩

theorem entry {i : Nat} (hi : i < m.stack.size) :
    m.Safe (m.stack.getD i 0 :: held) := by
  obtain ⟨G, hG, hheld⟩ := h
  refine ⟨G, hG, fun x hx => ?_⟩
  rcases mem_cons.1 hx with rfl | hx
  · exact hG.entry hi
  · exact hheld x hx

theorem app (hx : x ∈ held) {f a : Nat} (hc : m.heap.get x = .app f a) :
    m.Safe (f :: a :: held) := by
  obtain ⟨G, hG, hheld⟩ := h
  obtain ⟨hf, ha⟩ := hG.closed.app (hheld x hx) hc
  refine ⟨G, hG, fun y hy => ?_⟩
  rcases mem_cons.1 hy with rfl | hy
  · exact hf
  rcases mem_cons.1 hy with rfl | hy
  · exact ha
  · exact hheld y hy

theorem ind (hx : x ∈ held) {t : Nat} (hc : m.heap.get x = .ind t) :
    m.Safe (t :: held) ∧ t ≠ x := by
  obtain ⟨G, hG, hheld⟩ := h
  refine ⟨⟨G, hG, fun y hy => ?_⟩, ?_⟩
  · rcases mem_cons.1 hy with rfl | hy
    · exact hG.closed.ind (hheld x hx) hc
    · exact hheld y hy
  · -- a cell that stands for itself has no end
    rintro rfl
    obtain ⟨y, hy⟩ := hG.closed.ends t (hheld t hx)
    obtain ⟨n, hp⟩ := hy.path
    have hend := Cell.target?_eq_none.2 hy.isInd_eq_false
    have := (Path.unique hp hend (.cons (Cell.target?_eq_some.2 hc) hp) hend).1
    omega

theorem inUse (hx : x ∈ held) : (m.heap.get x).isFree = false := by
  obtain ⟨G, hG, hheld⟩ := h
  exact hG.closed.inUse x (hheld x hx)

theorem spine (hx : x ∈ held) :
    m.Safe ((spineOf m.heap x).1 :: (spineOf m.heap x).2 ++ held) := by
  obtain ⟨G, hG, hheld⟩ := h
  obtain ⟨hhead, hargs⟩ := spineOf_mem hG.closed (hheld x hx)
  refine ⟨G, hG, fun y hy => ?_⟩
  rcases mem_append.1 hy with hy | hy
  · rcases mem_cons.1 hy with rfl | hy
    · exact hhead
    · exact hargs y hy
  · exact hheld y hy

theorem shrink (n : Nat) : Safe { m with stack := m.stack.shrink n } held := by
  refine h.congr rfl fun x hx => Or.inl ?_
  simp only [roots, Array.toList_shrink, mem_append] at hx ⊢
  exact hx.imp_left mem_of_mem_take

theorem push (hx : x ∈ held) :
    Safe { m with stack := m.stack.push x } held := by
  refine h.congr rfl fun y hy => ?_
  simp only [roots, Array.toList_push, mem_append, mem_singleton] at hy ⊢
  rcases hy with (hy | rfl) | hy
  · exact Or.inl (Or.inl hy)
  · exact Or.inr hx
  · exact Or.inl (Or.inr hy)

theorem setEntry (hx : x ∈ held) (i : Nat) :
    Safe { m with stack := m.stack.setIfInBounds i x } held := by
  refine h.congr rfl fun y hy => ?_
  simp only [roots, Array.toList_setIfInBounds, mem_append] at hy ⊢
  rcases hy with hy | hy
  · rcases mem_or_eq_of_mem_set hy with hy | rfl
    · exact Or.inl (Or.inl hy)
    · exact Or.inr hx
  · exact Or.inl (Or.inr hy)

end

end Safe

/-!
## Small operations
-/

section Operations

variable {β : Type} {Q : β → Machine → Prop} {top i f a t : Nat} {g : Nat → Run β}

theorem safe_alloc (h : m.Safe held) (hfree : c.isFree = false) (hind : c.isInd = false)
    (hc : ∀ y ∈ c.children, y ∈ held) :
    Meets (alloc c) m (fun id m' => m'.Safe (id :: held)) SafeHalt := by
  obtain ⟨G, hG, hheld⟩ := h
  refine meets_alloc hG hfree hind (fun y hy => hheld y (hc y hy)) ?_ ⟨trivial, G, hG, by simp⟩
  intro id h' _ _ hs
  refine ⟨_, hs, fun y hy => ?_⟩
  rcases mem_cons.1 hy with rfl | hy
  · exact Or.inr rfl
  · exact Or.inl (hheld y hy)

theorem safe_reserve (h : m.Safe held) (n : Nat) :
    Meets (reserve n) m (fun _ m' => m'.Safe []) SafeHalt := by
  obtain ⟨G, hG, -⟩ := h
  refine meets_reserve hG (fun _ _ => ⟨G, hG, by simp⟩) (fun _ _ hs _ => ⟨_, hs, by simp⟩) ?_
  exact fun _ _ hs => ⟨trivial, _, hs, by simp⟩

theorem safe_setCell (h : m.Safe held) (hx : x ∈ held) (hfree : c.isFree = false)
    (hind : c.isInd = false) (hc : ∀ y ∈ c.children, y ∈ held) :
    Safe { m with heap := m.heap.set x c } held := by
  obtain ⟨G, hG, hheld⟩ := h
  exact ⟨G, hG.update (hheld x hx) hfree hind fun y hy => hheld y (hc y hy), hheld⟩

/-- The cell that a rule still holds after it was tried. -/
def Fired.cells : Fired → List Nat
  | .yes => []
  | .waitingFor a => [a]

theorem safe_overwrite (h : m.Safe held) (hr : redex ∈ held) (hfree : c.isFree = false)
    (hind : c.isInd = false) (hc : ∀ y ∈ c.children, y ∈ held) :
    Meets (overwrite redex c) m (fun r m' => m'.Safe r.cells) SafeHalt := by
  simp only [overwrite, meets_bind, meets_setCell, meets_pure]
  exact (safe_setCell h hr hfree hind hc).nil

theorem safe_forward (h : m.Safe held) (hr : redex ∈ held) (ht : t ∈ held) :
    Meets (forward redex t) m (fun r m' => m'.Safe r.cells) SafeHalt := by
  simp only [forward, updateInd, meets_bind, meets_resolve, meets_ite, meets_malformed, meets_setCell,
    meets_pure]
  obtain ⟨G, hG, hheld⟩ := h
  have hres := hG.closed.stands_resolve (hheld t ht)
  split
  · exact ⟨trivial, G, hG, by simp⟩
  · rename_i hne
    exact ⟨G, hG.update_ind (hheld redex hr) (hG.closed.stands (hheld t ht) hres) hne
      hres.isInd_eq_false, by simp [Fired.cells]⟩

theorem Reads.safe {x : Run α} (hx : Reads x) (h : m.Safe held) :
    Meets x m (fun _ m' => m' = m) SafeHalt := by
  refine (hx m).mono (fun _ _ e => e) fun e m' he => ?_
  obtain ⟨he, rfl⟩ := he
  exact h.halt he.harmless

theorem Reads.safe_bind {x : Run α} {g : α → Run β} (hx : Reads x) (h : m.Safe held)
    (hg : ∀ a, Meets (g a) m Q SafeHalt) : Meets (x >>= g) m Q SafeHalt :=
  (hx.safe h).bind fun a _ e => e ▸ hg a

theorem safe_arg (h : m.Safe held) (ht : top < m.stack.size) :
    Meets (arg top i) m (fun a m' => m' = m ∧ m.Safe (a :: held)) SafeHalt := by
  simp only [arg, meets_bind, meets_entry, meets_cell]
  split
  · rename_i f a hc
    refine ⟨rfl, ((h.entry (i := top - i) (by omega)).app mem_cons_self hc).mono ?_⟩
    intro y hy
    rcases mem_cons.1 hy with rfl | hy
    · simp
    · simp [hy]
  · exact h.halt trivial

theorem safe_arg_bind (h : m.Safe held) (ht : top < m.stack.size)
    (hg : ∀ a, m.Safe (a :: held) → Meets (g a) m Q SafeHalt) :
    Meets (arg top i >>= g) m Q SafeHalt := by
  refine (safe_arg h ht).bind fun a m' ha => ?_
  obtain ⟨rfl, ha⟩ := ha
  exact hg a ha

theorem safe_alloc_bind (h : m.Safe held) (hfree : c.isFree = false) (hind : c.isInd = false)
    (hc : ∀ y ∈ c.children, y ∈ held)
    (hg : ∀ id m', m'.Safe (id :: held) → m'.stack = m.stack → Meets (g id) m' Q SafeHalt) :
    Meets (alloc c >>= g) m Q SafeHalt := by
  rw [meets_bind]
  refine ((safe_alloc h hfree hind hc).and (Quiet.alloc c m)).mono (fun id m' hs => ?_) ?_
  · exact hg id m' hs.1 hs.2.stack
  · exact fun _ _ he => he.1

theorem safe_app_bind (h : m.Safe held) (hf : f ∈ held) (ha : a ∈ held)
    (hg : ∀ id m', m'.Safe (id :: held) → m'.stack = m.stack → Meets (g id) m' Q SafeHalt) :
    Meets (app f a >>= g) m Q SafeHalt :=
  safe_alloc_bind h rfl rfl (by simp [Cell.children, hf, ha]) hg

end Operations

/-!
## Rules
-/

section Rules

variable {ev : Evaluators} {p : Primitive} {top n tag : Nat} {args : List Nat}

theorem safe_readArgs (h : m.Safe held) (ht : top < m.stack.size) (i : Nat) :
    Meets (readArgs top i n) m (fun args m' => m' = m ∧ args.length = n ∧ m.Safe (args ++ held))
      SafeHalt := by
  induction n generalizing i held with
  | zero => exact ⟨rfl, rfl, h⟩
  | succ n ih =>
    unfold readArgs
    refine safe_arg_bind h ht fun a ha => (ih ha (i + 1)).bind fun args m1 h1 => ?_
    obtain ⟨rfl, rfl, hargs⟩ := h1
    exact ⟨rfl, rfl, hargs.mono (by simp +contextual [or_imp])⟩

theorem safe_build {s : Shape} (h : m.Safe held) (hargs : ∀ a ∈ args, a ∈ held) (hr : redex ∈ held)
    (hs : s.Fits args.length) :
    Meets (build args redex s) m (fun id m' => m'.Safe (id :: held)) SafeHalt := by
  induction s generalizing m held with
  | arg i =>
    have hi : args.getD i 0 ∈ held := hargs _ (getD_eq_getElem args 0 hs ▸ getElem_mem hs)
    exact h.mono (forall_mem_cons.2 ⟨hi, fun _ hx => hx⟩)
  | redex => exact h.mono (by simp [hr])
  | app f a ihf iha =>
    refine (ihf h hargs hr hs.1).bind fun x m1 h1 => ?_
    refine (iha h1 (by simp +contextual [hargs]) (by simp [hr]) hs.2).bind fun y m2 h2 => ?_
    exact (safe_alloc h2 rfl rfl (by simp [Cell.children])).imp fun z m3 h3 =>
      h3.mono (by simp +contextual)

theorem safe_contract {s : Shape} (h : m.Safe held) (hargs : ∀ a ∈ args, a ∈ held)
    (hr : redex ∈ held) (hs : s.Fits args.length) :
    Meets (contract args redex s) m (fun r m' => m'.Safe r.cells) SafeHalt := by
  cases s with
  | arg i =>
    exact (safe_build h hargs hr hs).bind fun t m1 h1 => safe_forward h1 (by simp [hr]) (by simp)
  | redex =>
    exact (safe_build h hargs hr hs).bind fun t m1 h1 => safe_forward h1 (by simp [hr]) (by simp)
  | app f a =>
    refine (safe_build h hargs hr hs.1).bind fun x m1 h1 => ?_
    refine (safe_build h1 (by simp +contextual [hargs]) (by simp [hr]) hs.2).bind fun y m2 h2 => ?_
    exact safe_overwrite h2 (by simp [hr]) rfl rfl (by simp [Cell.children])

theorem safe_selectAlternative (h : m.Safe []) (ht : top < m.stack.size) :
    Meets (selectAlternative n top tag) m (fun r m' => m'.Safe r.cells) SafeHalt := by
  rw [selectAlternative_eq_bind]
  refine safe_arg_bind h ht fun s hs => ?_
  simp only [meets_bind, meets_spine, meets_entry]
  rw [← meets_bind]
  refine safe_arg_bind ((hs.spine mem_cons_self).entry (i := top - (n + 1)) (by omega)) ht
    fun alt halt => ?_
  exact safe_contract halt (by simp +contextual) (by simp) (Shape.applied_fits (by simp))

theorem safe_fireCase (h : m.Safe []) (ht : top < m.stack.size) :
    Meets (fireCase n top) m (fun r m' => m'.Safe r.cells) SafeHalt := by
  unfold fireCase
  refine safe_arg_bind h ht fun s hs => ?_
  simp only [meets_bind, meets_isWhnf, meets_ite, meets_pure, meets_resolve, meets_spine, meets_cell]
  split
  · exact hs
  split
  · simp only [meets_bind, meets_ite, meets_describe, meets_fail]
    split
    · exact h.halt trivial
    split
    · exact h.halt trivial
    refine ((safe_reserve h _).also (Quiet.reserve _ m)).imp fun _ m1 h1 => ?_
    exact safe_selectAlternative h1.1 (by rw [h1.2.stack]; exact ht)
  · simp only [meets_bind, meets_describe, meets_fail]
    exact h.halt trivial

theorem safe_fire (h : m.Safe []) (ht : top < m.stack.size) (c : Combinator) :
    Meets (fire c top) m (fun r m' => m'.Safe r.cells) SafeHalt := by
  cases c with
  | caseOf n => exact safe_fireCase h ht
  | con _ _ | ioBind | ioThen | ioReturn => exact h.halt trivial
  | _ =>
    rw [fire_eq_bind rfl rfl]
    refine (safe_readArgs h ht 1).bind fun args m1 h1 => ?_
    obtain ⟨rfl, hlen, hargs⟩ := h1
    rw [meets_entry_bind]
    refine safe_contract (hargs.entry (by omega)) (by simp +contextual) mem_cons_self ?_
    simp [Shape.Fits, hlen]

theorem safe_firstUnevaluated (h : m.Safe []) (ht : top < m.stack.size) (i : Nat) :
    Meets (firstUnevaluated top i n) m (fun r m' => m' = m ∧ ∀ a, r = some a → m.Safe [a])
      SafeHalt := by
  induction n generalizing i with
  | zero => exact ⟨rfl, fun a ha => by cases ha⟩
  | succ n ih =>
    unfold firstUnevaluated
    refine safe_arg_bind h ht fun a ha => ?_
    simp only [meets_bind, meets_isWhnf, meets_ite, meets_pure]
    split
    · exact ih (i + 1)
    · exact ⟨trivial, fun b hb => by cases hb; exact ha⟩

theorem safe_leaf (h : m.Safe held) (hr : redex ∈ held) (hfree : c.isFree = false)
    (hind : c.isInd = false) (hleaf : c.children = []) :
    Meets (overwrite redex c) m (fun r m' => m'.Safe r.cells) SafeHalt :=
  safe_overwrite h hr hfree hind (by simp [hleaf])

theorem safe_overwrite_string (h : m.Safe held) (hr : redex ∈ held) (s : String) :
    Meets (do overwrite redex (← stringCell s)) m (fun r m' => m'.Safe r.cells) SafeHalt := by
  unfold stringCell
  simp only [bind_assoc, pure_bind]
  refine safe_alloc_bind h rfl rfl (by simp [Cell.children]) fun text m1 h1 _ =>
    safe_alloc_bind h1 rfl rfl (by simp [Cell.children]) fun unpack m2 h2 _ => ?_
  exact safe_overwrite h2 (by simp [hr]) rfl rfl (by simp [Cell.children])

theorem safe_fireUnpack (h : m.Safe []) (ht : top < m.stack.size) :
    Meets (fireUnpack top) m (fun r m' => m'.Safe r.cells) SafeHalt := by
  unfold fireUnpack
  refine safe_arg_bind h ht fun a _ => ?_
  have hr := h.entry (i := top - 1) (by omega)
  simp only [meets_bind, meets_resolve, meets_entry, meets_cell]
  split
  · exact safe_leaf hr (by simp) rfl rfl rfl
  · refine safe_alloc_bind hr rfl rfl (by simp [Cell.children]) fun head m1 h1 e1 =>
      safe_alloc_bind h1 rfl rfl (by simp [Cell.children]) fun rest m2 h2 e2 => ?_
    rw [meets_entry_bind]
    refine safe_app_bind (h2.entry (i := top) (by rw [e2, e1]; exact ht)) (by simp) (by simp)
      fun rest' m3 h3 _ => safe_alloc_bind h3 rfl rfl (by simp [Cell.children]) fun cons m4 h4 _ =>
      safe_app_bind h4 (by simp) (by simp) fun cell m5 h5 _ => ?_
    exact safe_overwrite h5 (by simp) rfl rfl (by simp [Cell.children])
  · exact h.halt trivial

/-- Evaluations that keep a machine sound and restore its registers. -/
structure EvaluatorsSafe (ev : Evaluators) : Prop where
  perform : ∀ id m, m.Safe [id] →
    Meets (ev.perform id) m (fun r m' => m'.Safe [r] ∧ m'.stack = m.stack) SafeHalt
  normalize : ∀ id m, m.Safe [id] → Meets (ev.normalize id) m (fun _ m' => m'.Safe []) SafeHalt

/-- A primitive leaves a safe machine: one case for each. -/
theorem safe_firePrimitive (hev : EvaluatorsSafe ev) (h : m.Safe []) (ht : top < m.stack.size) :
    Meets (firePrimitive ev p top) m (fun r m' => m'.Safe r.cells) SafeHalt := by
  have hr := h.entry (i := top - p.arity) (by omega)
  rw [firePrimitive, meets_entry_bind]
  cases p with
  | perform =>
    refine safe_arg_bind h ht fun a ha => ?_
    refine (hev.perform a m ha).bind fun result m1 h1 => ?_
    have hr1 := h1.1.entry (i := top - Primitive.perform.arity) (by rw [h1.2]; omega)
    rw [h1.2] at hr1
    exact safe_forward hr1 (by simp) (by simp)
  | error =>
    refine safe_arg_bind h ht fun a ha => ?_
    exact (hev.normalize a m ha).bind fun _ m1 h1 => h1.halt trivial
  | unpack =>
    exact safe_fireUnpack h ht
  | seq =>
    exact safe_arg_bind hr ht fun a ha => safe_forward ha (by simp) (by simp)
  | tick =>
    refine (Reads.intArg _ _ _).safe_bind h fun n => ?_
    rw [meets_bind]
    refine safe_arg_bind (hr.congr rfl fun x hx => Or.inl hx) ht fun a ha => ?_
    exact safe_forward ha (by simp) (by simp)
  | showInt =>
    exact (Reads.intArg _ _ _).safe_bind h fun n => safe_overwrite_string hr (by simp) _
  | showDouble =>
    exact (Reads.doubleArg _ _ _).safe_bind h fun n => safe_overwrite_string hr (by simp) _
  | _ =>
    -- the other rules read their arguments, and fail or overwrite the redex with a leaf
    simp only [intRule, divisionRule, doubleRule]
    repeat' first
      | with_reducible refine (Reads.intArg _ _ _).safe_bind h fun _ => ?_
      | with_reducible refine (Reads.charArg _ _ _).safe_bind h fun _ => ?_
      | with_reducible refine (Reads.doubleArg _ _ _).safe_bind h fun _ => ?_
      | with_reducible refine (Reads.ptrArg _ _ _).safe_bind h fun _ => ?_
      | with_reducible exact safe_leaf hr mem_cons_self rfl rfl rfl
      | exact h.halt trivial
      | split

theorem safe_fireStrict (hev : EvaluatorsSafe ev) (h : m.Safe []) (ht : top < m.stack.size) :
    Meets (fireStrict ev p top) m (fun r m' => m'.Safe r.cells) SafeHalt := by
  simp only [fireStrict]
  refine (safe_firstUnevaluated h ht 1).bind fun r m1 hr => ?_
  obtain ⟨rfl, ha⟩ := hr
  split
  · exact ha _ rfl
  · exact safe_firePrimitive hev h ht

/-- The cell that a look at a spine asks for. -/
def Progress.cells : Progress → List Nat
  | .force id => [id]
  | _ => []

theorem safe_rule {x : Run Fired} (hx : Meets x m (fun r m' => m'.Safe r.cells) SafeHalt) :
    Meets (do afterRule top n (← x)) m (fun r m' => m'.Safe r.cells) SafeHalt := by
  refine hx.bind fun r m1 h1 => ?_
  cases r with
  | waitingFor a => exact h1
  | yes =>
    simp only [afterRule, meets_bind, meets_modify, meets_truncate, meets_pure]
    exact (h1.shrink _).congr rfl fun x hx => Or.inl hx

/-- **A look at a spine keeps a machine sound.** The cell on top is in use and does not stand for
itself, so neither of the errors for these is ever given. -/
theorem safe_step {base : Nat} (hev : EvaluatorsSafe ev) (h : m.Safe []) (hb : base < m.stack.size) :
    Meets (step ev base) m (fun r m' => m'.Safe r.cells) SafeHalt := by
  have ht : m.stack.size - 1 < m.stack.size := by omega
  have htop := h.entry ht
  refine meets_step fun x hx => ?_
  cases hx with
  | app hc =>
    simp only [meets_bind, meets_push, meets_pure]
    split
    · exact h.halt trivial
    · exact ((htop.app mem_cons_self hc).push mem_cons_self).nil
  | ind hc => exact ((htop.ind mem_cons_self hc).1.setEntry mem_cons_self _).nil
  | loop hc => exact absurd rfl (htop.ind mem_cons_self hc).2
  | comb => exact safe_rule (safe_fire h ht _)
  | prim => exact safe_rule (safe_fireStrict hev h ht)
  | done => exact h
  | scalar => exact h.halt trivial
  | free hc =>
    have := htop.inUse mem_cons_self
    rw [hc] at this; cases this

end Rules

/-!
## Nested evaluations and actions
-/

section Actions

variable {whnf : Nat → Run Nat} {normalize : Nat → Run Value} {top i : Nat}

theorem Safe.restore (h : m.Safe held) (stackSize frameCount depth : Nat) :
    (m.restore stackSize frameCount depth).Safe held :=
  (h.shrink stackSize).congr rfl fun _ hx => Or.inl hx

theorem safe_actionArg (h : m.Safe []) (ht : top < m.stack.size) :
    Meets (actionArg top i) m (fun a m' => m' = m ∧ m.Safe [a]) SafeHalt := by
  simp only [actionArg, meets_bind, meets_entry, meets_spine, meets_pure]
  refine ⟨trivial, ((h.entry ht).spine mem_cons_self).mono fun a ha => ?_⟩
  rw [mem_singleton, getD_eq_getElem?_getD] at ha
  subst ha
  cases hi : (spineOf m.heap (m.stack.getD top 0)).2[i]? with
  | none => exact mem_append_right _ mem_cons_self
  | some a => exact mem_append_left _ (mem_cons_of_mem _ (mem_of_getElem? hi))

theorem safe_onWorld (h : m.Safe held) (o : Operation) :
    Meets (onWorld o) m (fun _ m' => m'.Safe held ∧ m'.stack = m.stack) SafeHalt := by
  unfold Meets onWorld
  cases hp : o.perform m.world with
  | ok a w => exact ⟨h.congr rfl fun x hx => Or.inl hx, rfl⟩
  | error e w =>
    obtain ⟨p, cause, rfl⟩ := o.failsForeign _ _ _ hp
    exact ⟨trivial, h.nil.congr rfl fun x hx => Or.inl hx⟩

theorem safe_argumentCells {unpack cons nil : Nat} (hu : unpack ∈ held) (hc : cons ∈ held)
    (hn : nil ∈ held) (args : List String) (h : m.Safe held) :
    Meets (argumentCells unpack cons nil args) m (fun r m' => m'.Safe (r :: held)) SafeHalt := by
  induction args with
  | nil => exact h.mono (by simp [hn])
  | cons s args ih =>
    simp only [argumentCells]
    refine ih.bind fun list m1 h1 => ?_
    refine safe_alloc_bind h1 rfl rfl (by simp [Cell.children]) fun text m2 h2 _ =>
      safe_app_bind h2 (by simp [hu]) (by simp) fun string m3 h3 _ =>
      safe_app_bind h3 (by simp [hc]) (by simp) fun cell m4 h4 _ => ?_
    refine (safe_alloc h4 rfl rfl (by simp [Cell.children])).imp fun r m5 h5 => ?_
    exact h5.mono (by simp +contextual)

theorem safe_argumentList (h : m.Safe []) :
    Meets argumentList m (fun r m' => m'.Safe [r]) SafeHalt := by
  simp only [argumentList]
  refine (safe_onWorld h .args).bind fun args m1 h1 => ?_
  refine (safe_reserve h1.1 _).bind fun _ m2 h2 => ?_
  refine safe_alloc_bind h2 rfl rfl (by simp [Cell.children]) fun unpack m3 h3 _ =>
    safe_alloc_bind h3 rfl rfl (by simp [Cell.children]) fun cons m4 h4 _ =>
    safe_alloc_bind h4 rfl rfl (by simp [Cell.children]) fun nil m5 h5 _ => ?_
  refine (safe_argumentCells (by simp) (by simp) (by simp) _ h5).imp fun r m6 h6 => ?_
  exact h6.mono (by simp +contextual)

end Actions

/-!
## The loops
-/

section Loops

variable {fuel outer base top : Nat}

/-- The cells that an action in weak head normal form refers to. -/
def ActionForm.cells : ActionForm → List Nat
  | .result x => [x]
  | .bind x k => [x, k]
  | .sequence x y => [x, y]
  | .primitive _ | .other => []

theorem safe_actionForm (h : m.Safe [id]) : m.Safe (actionForm m.heap id).cells := by
  refine (h.spine mem_cons_self).mono fun y hy => ?_
  unfold actionForm at hy
  split at hy
  rename_i head args hspine
  split at hy
  all_goals rw [hspine]
  · simp only [ActionForm.cells, mem_singleton] at hy; simp [hy]
  · simp only [ActionForm.cells, mem_cons, not_mem_nil, or_false] at hy
    rcases hy with rfl | rfl <;> simp
  · simp only [ActionForm.cells, mem_cons, not_mem_nil, or_false] at hy
    rcases hy with rfl | rfl <;> simp
  · split at hy <;> cases hy
  · cases hy

theorem safe_valueForm (h : m.Safe [id]) {tag : UInt32} {fields : List Nat}
    (hv : valueForm m.heap id = .inr (tag, fields)) : m.Safe fields := by
  refine (h.spine mem_cons_self).mono fun y hy => ?_
  unfold valueForm at hv
  split at hv
  rename_i head args hspine
  rw [hspine]
  split at hv
  · split at hv
    · cases hv
    · split at hv
      · cases hv
      · cases hv; simp [hy]
  · split at hv <;> cases hv
  · cases hv

theorem safe_pushAll (ids : List Nat) (h : m.Safe ids) :
    Meets (pushAll ids) m (fun _ m' => m'.Safe []) SafeHalt := by
  suffices hgen : ∀ l, (∀ x ∈ l, x ∈ ids) →
      Meets (pushAll l) m (fun _ m' => m'.Safe ids) SafeHalt from
    (hgen ids fun _ hx => hx).imp fun _ _ hs => hs.nil
  intro l
  induction l with
  | nil => intro _; exact h
  | cons x l ih =>
    intro hl
    simp only [pushAll]
    refine (ih fun y hy => hl y (mem_cons_of_mem _ hy)).bind fun _ m1 h1 => ?_
    rw [meets_push]
    split
    · exact h1.halt trivial
    · exact h1.push (hl x mem_cons_self)

theorem safe_suspend (h : m.Safe [id]) :
    Meets (suspend base id) m (fun _ m' => m'.Safe []) SafeHalt := by
  simp only [suspend, meets_bind, meets_enter, meets_modify, meets_push, meets_top]
  split
  · exact h.halt trivial
  · split
    · exact ⟨trivial, h.nil.congr rfl fun x hx => Or.inl hx⟩
    · exact (h.push mem_cons_self).nil.congr rfl fun x hx => Or.inl hx

theorem safe_resume (h : m.Safe []) :
    Meets (resume base) m (fun _ m' => m'.Safe []) SafeHalt := by
  simp only [resume, meets_bind, meets_truncate, meets_get, meets_modify, meets_pure]
  exact (h.shrink base).congr rfl fun x hx => Or.inl hx

theorem safe_handOver {takesResult : Bool} {result : Nat} (h : m.Safe [result])
    (htop : top < m.stack.size) (hpos : 0 < top) :
    Meets (handOver top takesResult result) m (fun _ m' => m'.Safe []) SafeHalt := by
  simp only [handOver]
  rw [meets_bind, meets_truncate, meets_ite]
  split
  · rw [meets_entry_bind]
    have hentry := (h.shrink top).entry (i := top - 1) (by simp; omega)
    refine safe_app_bind hentry (by simp) (by simp) fun next m1 h1 _ => ?_
    exact (h1.setEntry mem_cons_self _).nil
  · exact (h.shrink top).nil

theorem safe_operands {y i : Nat} (h : m.Safe [x, y]) :
    Meets (do setEntry i y; push x) m (fun _ m' => m'.Safe []) SafeHalt := by
  have hset := h.setEntry (x := y) (by simp) i
  simp only [meets_bind, meets_setEntry, meets_push]
  split
  · exact hset.halt trivial
  · exact (hset.push (by simp)).nil

end Loops

end Machine

end GraphReduction
