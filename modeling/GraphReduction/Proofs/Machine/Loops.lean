import GraphReduction.Proofs.Heap.Spine
import GraphReduction.Proofs.Machine.Activity
import GraphReduction.Proofs.Machine.Budget

/-!
# What the loops keep, and how they fail

The three loops take sound machines to sound machines. If one of them fails, the machine is sound all
the same (`SafeHalt`), and if that was for want of memory, then at a request for room that was denied
(`Blame`). What is taken between two requests fits into the room of the first, with one exception: the
list of the arguments of the program may use up all the room that was made for it, and the bind that
takes the list needs one more cell.
-/

namespace GraphReduction

open List

namespace Machine

/-- How an evaluation that has started in `m` may fail. -/
structure Fails (a : Activity) (m : Machine) (e : Halt) (m' : Machine) : Prop where
  halt : SafeHalt e m'
  blame : Blame a m e m'

variable {α : Type} {a a1 : Activity} {m m' m1 : Machine} {e : Halt} {n : Nat}

theorem Blame.of_notMemory (he : e.NotMemory) : Blame a m e m' := by
  rintro capacity rfl
  exact he.elim

theorem Blame.after (hl : Leads a m a1 m1) (h : Blame a1 m1 e m') : Blame a m e m' := by
  intro capacity he
  obtain ⟨a2, m2, hon, hblame⟩ := h capacity he
  exact ⟨a2, m2, .next hl hon, hblame⟩

theorem Blame.congr (h : Blame a m e m1) (hheap : m'.heap = m1.heap) : Blame a m e m' := by
  unfold Blame
  rw [hheap]
  exact h

theorem Fails.after (hl : Leads a m a1 m1) (h : Fails a1 m1 e m') : Fails a m e m' :=
  ⟨h.halt, h.blame.after hl⟩

theorem Safe.fails {held : List Nat} (h : m'.Safe held) (hharmless : e.Harmless) (he : e.NotMemory) :
    Fails a m e m' := ⟨h.halt hharmless, .of_notMemory he⟩

section Meets

variable {x : Run α} {Q Q' : α → Machine → Prop}

theorem fails_of_blame (hs : Meets x m Q SafeHalt) (hb : Meets x m Q' (Blame a m1)) :
    Meets x m (fun v m' => Q v m' ∧ Q' v m') (Fails a m1) :=
  (hs.and hb).mono (fun _ _ h => h) fun _ _ he => ⟨he.1, he.2⟩

theorem fails_after (hl : Leads a m a1 m1) (hx : Meets x m' Q (Fails a1 m1)) :
    Meets x m' Q (Fails a m) := hx.mono (fun _ _ h => h) fun _ _ he => he.after hl

theorem blame_of_notMemory (hx : Meets x m Q fun e _ => e.NotMemory) : Meets x m Q (Blame a m1) :=
  hx.mono (fun _ _ h => h) fun _ _ he => .of_notMemory he

theorem blame_after (hl : Leads a m a1 m1) (hx : Meets x m' Q (Blame a1 m1)) :
    Meets x m' Q (Blame a m) := hx.mono (fun _ _ h => h) fun _ _ he => he.after hl

theorem Reads.blame (hx : Reads x) : Meets x m (fun _ m' => m' = m) (Blame a m1) :=
  (hx m).mono (fun _ _ h => h) fun _ _ he => .of_notMemory he.1.notMemory

theorem Ends.blame (hx : Ends n x) (hm : m.heap.Stocked n) : Meets x m (fun _ _ => True) (Blame a m1) :=
  blame_of_notMemory (hx m hm)

end Meets

theorem meets_reserve_iff {Q : Unit → Machine → Prop} {E : Halt → Machine → Prop} :
    Meets (reserve n) m Q E ↔
      if m.gcStress = true ∨ m.heap.freeCells < max n Heap.reserve then
        if (Heap.collect m.roots m.heap).2.freeCells < max n Heap.reserve then
          E (.error (.outOfMemory (Heap.collect m.roots m.heap).2.capacity))
            { m with heap := (Heap.collect m.roots m.heap).2 }
        else Q () { m with heap := (Heap.collect m.roots m.heap).2 }
      else Q () m := by
  simp only [reserve, meets_bind, meets_get, meets_ite, Bool.or_eq_true, decide_eq_true_eq]
  rfl

/-- **A request is granted**, or denied right after a collection. -/
theorem blame_reserve (hreq : Requests a m n) : Meets (reserve n) m
    (fun _ m' => max n Heap.reserve ≤ m'.heap.freeCells ∧
      (m' = m ∨ m' = { m with heap := (Heap.collect m.roots m.heap).2 })) (Blame a m) := by
  have hself := meets_self (reserve n) m
  rw [meets_reserve_iff] at hself ⊢
  by_cases hlow : m.gcStress = true ∨ m.heap.freeCells < max n Heap.reserve
  · rw [if_pos hlow] at hself ⊢
    by_cases hfew : (Heap.collect m.roots m.heap).2.freeCells < max n Heap.reserve
    · rw [if_pos hfew] at hself ⊢
      rintro capacity ⟨⟩
      exact ⟨a, m, .here, .inl ⟨n, hreq, hself, rfl, hfew⟩⟩
    · rw [if_neg hfew]
      exact ⟨by simpa using hfew, .inr rfl⟩
  · rw [if_neg hlow]
    exact ⟨by have := (not_or.1 hlow).2; omega, .inl rfl⟩

/-!
## A look at a spine
-/

/-- What the loops leave. Unwinding ends right after a safe point, with the room that it made. -/
structure LoopsSafe (fuel : Nat) : Prop where
  unwind : ∀ outer base m, Unwinding outer base m → m.Safe [] →
    Meets (unwind outer fuel base) m (fun id m' => m'.Safe [id] ∧ Heap.reserve ≤ m'.heap.freeCells)
      (Fails (.unwind outer fuel base) m)
  perform : ∀ low binds m, m.stack.size = low + binds.length + 1 → m.Safe [] →
    Meets (performFrom fuel binds) m (fun id m' => m'.Safe [id]) (Fails (.performFrom fuel binds) m)
  normalize : ∀ base pending m, m.Safe [] →
    Meets (normalizeFrom base fuel pending) m (fun _ m' => m'.Safe [])
      (Fails (.normalizeFrom base fuel pending) m)

variable {fuel outer base id top : Nat}

theorem safe_start (h : m.Safe [id]) : Meets (do enter; push id : Run Unit) m
    (fun _ m1 => m1.Safe [] ∧ m1.stack.size = m.stack.size + 1)
    fun e m1 => SafeHalt e m1 ∧ e.NotMemory := by
  simp only [meets_bind, meets_enter, meets_push]
  split
  · exact ⟨h.halt trivial, trivial⟩
  split
  · exact ⟨⟨trivial, h.nil.congr rfl fun x hx => Or.inl hx⟩, trivial⟩
  · exact ⟨(h.push mem_cons_self).nil.congr rfl fun x hx => Or.inl hx, by simp⟩

theorem fails_nested {body : Nat → Run α} {Q : α → Machine → Prop} {s : Machine → Activity}
    (hm : m.Safe [id]) (hQ : ∀ {v m' i j k}, Q v m' → Q v (m'.restore i j k))
    (hstart : ∀ m1, (do enter; push id : Run Unit) m = .ok () m1 → Leads a m (s m1) m1)
    (hbody : ∀ m1, m1.Safe [] → m1.stack.size = m.stack.size + 1 →
      Meets (body m.stack.size) m1 Q (Fails (s m1) m1)) :
    Meets (nested id body) m Q (Fails a m) := by
  rw [meets_nested]
  have hassoc : (do enter; push id; body m.stack.size : Run α) =
      (do enter; push id : Run Unit) >>= fun _ => body m.stack.size := by simp only [bind_assoc]
  rw [hassoc]
  refine ((safe_start hm).mono (fun _ _ h => h) fun _ _ he =>
    (he.1.2.restore _ _ _).fails he.1.1 he.2).traced.bind fun _ m1 h1 => ?_
  exact (hbody m1 h1.2.1 h1.2.2).mono (fun _ _ h => hQ h) fun _ _ he =>
    ⟨⟨he.halt.1, he.halt.2.restore _ _ _⟩, (he.blame.after (hstart m1 h1.1)).congr rfl⟩

namespace LoopsSafe

section

variable (h : LoopsSafe fuel)
include h

theorem whnf (hm : m.Safe [id]) : Meets (Machine.whnf fuel id) m
    (fun v m' => (m'.Safe [v] ∧ Heap.reserve ≤ m'.heap.freeCells) ∧ Steady m m')
    (Fails (.whnf fuel id) m) := by
  have hs : Meets (Machine.whnf fuel id) m
      (fun v m' => m'.Safe [v] ∧ Heap.reserve ≤ m'.heap.freeCells) (Fails (.whnf fuel id) m) := by
    refine fails_nested (s := fun m1 => .unwind m1.frames.size fuel m.stack.size) hm
      (fun hv => ⟨hv.1.restore _ _ _, hv.2⟩) (fun _ h1 => .startWhnf h1) fun m1 h1 hsize => ?_
    obtain ⟨hu, -⟩ := Unwinding.start (m := m1) (by omega)
    rw [hsize, Nat.add_sub_cancel] at hu
    exact h.unwind _ _ m1 hu h1
  exact hs.also (quiet_whnf fuel id m)

theorem performs (hm : m.Safe [id]) : Meets (Machine.perform fuel id) m
    (fun v m' => m'.Safe [v] ∧ Steady m m') (Fails (.perform fuel id) m) := by
  have hs : Meets (Machine.perform fuel id) m (fun v m' => m'.Safe [v]) (Fails (.perform fuel id) m) :=
    fails_nested (s := fun _ => .performFrom fuel []) hm (fun hv => hv.restore _ _ _)
      (fun _ h1 => .startPerform h1) fun m1 h1 hsize => h.perform m.stack.size [] m1 hsize h1
  exact hs.also (quiet_perform fuel id m)

theorem normalizes (hm : m.Safe [id]) : Meets (Machine.normalize fuel id) m
    (fun _ m' => m'.Safe [] ∧ Steady m m') (Fails (.normalize fuel id) m) := by
  have hs : Meets (Machine.normalize fuel id) m (fun _ m' => m'.Safe []) (Fails (.normalize fuel id) m) :=
    fails_nested (s := fun _ => .normalizeFrom m.stack.size fuel []) hm (fun hv => hv.restore _ _ _)
      (fun _ h1 => .startNormalize h1) fun m1 h1 _ => h.normalize _ [] m1 h1
  exact hs.also (quiet_normalize fuel id m)

theorem evaluators : EvaluatorsSafe ⟨Machine.perform fuel, Machine.normalize fuel⟩ :=
  ⟨fun _ _ hm => (h.performs hm).mono (fun _ _ hq => ⟨hq.1, hq.2.stack⟩) fun _ _ he => he.halt,
    fun _ _ hm => (h.normalizes hm).mono (fun _ _ hq => hq.1) fun _ _ he => he.halt⟩

end

end LoopsSafe

theorem meets_selectAlternative {k tag : Nat}
    (hroom : ∀ s, arg top 1 m = .ok s m → m.heap.Stocked (spineOf m.heap s).2.length) :
    Meets (selectAlternative k top tag) m (fun _ _ => True) fun e _ => e.NotMemory := by
  unfold selectAlternative
  rw [meets_bind]
  refine ((meets_self _ m).and (Reads.arg top 1 m)).mono (fun s m1 h1 => ?_)
    fun _ _ he => he.2.1.notMemory
  obtain ⟨hs, rfl⟩ := h1
  simp only [meets_bind, meets_spine, meets_entry]
  refine (Reads.arg top (tag + 2) m1).mono (fun alt m2 h2 => ?_) fun _ _ he => he.1.notMemory
  subst h2
  split
  · exact ends_forward _ _ m2 (hroom s hs)
  · have hlength : (spineOf m2.heap s).2.dropLast.length ≤ (spineOf m2.heap s).2.length := by
      rw [length_dropLast]; omega
    refine ((takes_applyAll alt _).ends_bind fun f => ends_overwrite (n := 0) _ _) m2 ?_
    exact (hroom s hs).mono hlength

theorem app_of_arg {i x : Nat} (h : arg top i m = .ok x m') :
    ∃ f, m.heap.get (m.stack.getD (top - i) 0) = .app f x := by
  rcases arg_cases m top i with ⟨f, y, hc, hy⟩ | ⟨c, hc⟩
  · rw [hy] at h
    cases h
    exact ⟨f, hc⟩
  · rw [hc] at h
    cases h

/-- The scrutinee of a case after room was made: a collection has made it skip indirections, and has
left its fields in number. -/
theorem length_fields_of_reserve {s s' y : Nat} {fields : List Nat} (hm : m.Safe [])
    (ht : top < m.stack.size) (hs : arg top 1 m = .ok s m) (hu : Unwinds m.heap.get s fields y)
    (hr : m' = m ∨ m' = { m with heap := (Heap.collect m.roots m.heap).2 })
    (hs' : arg top 1 m' = .ok s' m') :
    (spineOf m'.heap s').2.length = fields.length := by
  rcases hr with rfl | rfl
  · rw [hs] at hs'
    cases hs'
    rw [hu.spineOf_eq]
  · obtain ⟨G, hG, -⟩ := hm
    have hc := Heap.collect_collects m.heap m.roots hG.size_le
    obtain ⟨f, hf⟩ := app_of_arg hs
    obtain ⟨f', hf'⟩ := app_of_arg hs'
    have hkept := hG.kept_entry (i := top - 1) (by omega)
    have hcell : .app f' s' = Cell.app (m.heap.resolve f) (m.heap.resolve s) := by
      rw [← hf']
      show (Heap.collect m.roots m.heap).2.get (m.stack.getD (top - 1) 0) = _
      rw [hc.kept _ hkept]
      simp only [Heap.shortcuts, hf, Cell.skip]
    obtain ⟨-, rfl⟩ := Cell.app.inj hcell
    obtain ⟨-, hGs⟩ := hG.closed.app (hG.closed.of_kept hG.roots hkept) hf
    have hres := hG.closed.stands_resolve hGs
    obtain ⟨hu', -⟩ := (hu.of_sameEnd ⟨_, hres, .here hres.isInd_eq_false⟩).collect hG.closed
      hG.roots hc (kept_app hG.closed hG.roots hkept hf).2
    show (spineOf (Heap.collect m.roots m.heap).2 (m.heap.resolve s)).2.length = _
    rw [hu'.spineOf_eq, length_map]

/-- A case that fails for want of memory was denied room. -/
theorem blame_fireCase {k : UInt32} (hm : m.Safe []) (hsize : 0 < m.stack.size)
    (hhead : m.heap.get m.onTop = .comb (.caseOf k)) :
    Meets (fireCase k.toNat (m.stack.size - 1)) m (fun _ _ => True) (Blame (.look outer fuel base) m) := by
  unfold fireCase
  refine ((Reads.arg _ 1).blame.also (safe_arg hm (i := 1) (by omega))).traced.bind fun s m1 h1 => ?_
  obtain ⟨hs, rfl, -, hsafe⟩ := h1
  simp only [meets_bind, meets_isWhnf, meets_ite, meets_pure, meets_resolve, meets_spine, meets_cell]
  split
  · trivial
  rename_i hwhnf
  obtain ⟨G, hG, hheld⟩ := hsafe
  have hGs := hheld s mem_cons_self
  obtain ⟨fields, y, hu, -⟩ := (isWhnfIn_iff hG.closed hGs).1 (by simpa using hwhnf)
  rw [spineOf_resolve hG.closed hGs, hu.spineOf_eq]
  split
  · rename_i tag arity hcon
    simp only [meets_bind, meets_ite, meets_describe, meets_fail]
    split
    · exact .of_notMemory trivial
    rename_i hlength
    split
    · exact .of_notMemory trivial
    have hreq : Requests (.look outer fuel base) m1 arity.toNat :=
      .fields hhead hs (by simpa using hwhnf) (by rw [hu.spineOf_eq]; exact hcon)
    refine ((blame_reserve hreq).also ((safe_reserve hm _).and (Quiet.reserve _ m1))).imp
      fun _ m2 h2 => ?_
    obtain ⟨⟨hroom, hr⟩, hsafe2, hsteady⟩ := h2
    refine blame_of_notMemory (meets_selectAlternative fun s' hs' => hsafe2.stocked ?_)
    rw [length_fields_of_reserve hm (by omega) hs hu hr hs']
    have := not_not.1 hlength
    omega
  · simp only [meets_bind, meets_describe, meets_fail]
    exact .of_notMemory trivial

/-- **A look at a spine takes no more room than the safe point before it has made**, but for what it
asks for. -/
theorem blame_step (h : LoopsSafe fuel) (hm : m.Safe []) (hb : base < m.stack.size)
    (hroom : Heap.reserve ≤ m.heap.freeCells) :
    Meets (step ⟨perform fuel, normalize fuel⟩ base) m
      (fun r m' => r = .done → m'.heap = m.heap) (Blame (.look outer fuel base) m) := by
  have hrule : ∀ {x : Run Fired} {n : Nat}, Meets x m (fun _ _ => True) (Blame (.look outer fuel base) m) →
      Meets (do afterRule (m.stack.size - 1) n (← x)) m (fun r m' => r = .done → m'.heap = m.heap)
        (Blame (.look outer fuel base) m) := by
    intro x n hx
    refine hx.bind fun r m1 _ => ?_
    cases r with
    | waitingFor _ | yes => exact nofun
  have hstocked : ∀ k, k ≤ Heap.reserve → m.heap.Stocked k := fun k hk => hm.stocked (hk.trans hroom)
  refine meets_step fun x hx => ?_
  cases hx with
  | app =>
    simp only [meets_bind, meets_push, meets_pure]
    split
    · exact .of_notMemory trivial
    · exact nofun
  | ind => exact nofun
  | @comb c _ hc =>
    refine hrule ?_
    cases c with
    | caseOf k => exact blame_fireCase hm (by omega) hc
    | _ => exact (ends_fire (fun _ hk => by cases hk) _).blame (hstocked 3 (by decide))
  | @prim p hp =>
    refine hrule ?_
    simp only [fireStrict]
    refine (Reads.firstUnevaluated _ 1 _).blame.bind fun r m1 h1 => ?_
    subst h1
    have hread : Meets (arg (m1.stack.size - 1) 1) m1 (fun _ m' => m' = m1)
        (Blame (.look outer fuel base) m1) := (Reads.arg _ 1).blame
    have hargument := (hread.also (safe_arg hm (i := 1) (by omega))).traced
    split
    · trivial
    by_cases hperform : p = .perform
    · subst hperform
      simp only [firePrimitive]
      rw [meets_entry_bind]
      refine hargument.bind fun s m2 h2 => ?_
      obtain ⟨hs, rfl, -, hsafe⟩ := h2
      exact ((h.performs hsafe).mono (fun _ _ h => h) fun _ _ he => he.blame.after (.performIO hp hs)).bind
        fun r m3 _ => blame_of_notMemory (notMemory_forward _ _ m3)
    by_cases herror : p = .error
    · subst herror
      simp only [firePrimitive]
      rw [meets_entry_bind]
      refine hargument.bind fun s m2 h2 => ?_
      obtain ⟨hs, rfl, -, hsafe⟩ := h2
      exact ((h.normalizes hsafe).mono (fun _ _ h => h) fun _ _ he => he.blame.after (.errorText hp hs)).bind
        fun r m3 _ => .of_notMemory trivial
    · exact (ends_firePrimitive _ hperform herror _).blame (hstocked 5 (by decide))
  | done => exact fun _ => rfl
  | loop | scalar | free => exact .of_notMemory trivial

/-- The unwinding loop with one more unit of fuel: one case per outcome. -/
theorem LoopsSafe.unwind_succ (h : LoopsSafe fuel) (hu : Unwinding outer base m) (hm : m.Safe []) :
    Meets (Machine.unwind outer (fuel + 1) base) m
      (fun id m' => m'.Safe [id] ∧ Heap.reserve ≤ m'.heap.freeCells)
      (Fails (.unwind outer (fuel + 1) base) m) := by
  rw [Machine.unwind_succ]
  refine ((fails_of_blame (safe_reserve hm _) (blame_reserve .unwind)).also
    (Quiet.safePoint m)).traced.bind fun _ m1 h1 => ?_
  obtain ⟨hpoint, ⟨hm1, hroom, -⟩, hs1⟩ := h1
  refine fails_after (.safePoint hpoint) ?_
  obtain ⟨hu1, -⟩ := hu.above (hs1.above hu.base_lt)
  refine ((fails_of_blame (safe_step h.evaluators hm1 hu1.base_lt)
    (blame_step h hm1 hu1.base_lt (by omega))).also
    (above_step (quiet_perform fuel) (quiet_normalize fuel) hu1.base_lt)).traced.bind fun r m2 h2 => ?_
  obtain ⟨hstep, ⟨hm2, hdone⟩, ha2⟩ := h2
  obtain ⟨hu2, -⟩ := hu1.above ha2
  cases r with
  | again => exact fails_after (.again hstep) (h.unwind _ _ m2 hu2 hm2)
  | force id =>
    have hready : Meets (suspend base id) m2 (fun _ _ => True) fun e _ => e.NotMemory := by
      simp only [suspend, meets_bind, meets_enter, meets_modify, meets_push, meets_top]
      split
      · trivial
      · split <;> trivial
    refine ((fails_of_blame (safe_suspend hm2) (blame_of_notMemory hready)).also
      (hu2.suspend id)).traced.bind fun base' m3 h3 => ?_
    obtain ⟨hsuspend, ⟨hm3, -⟩, hu3⟩ := h3
    exact fails_after (.force hstep hsuspend) (h.unwind _ _ m3 hu3.1 hm3)
  | done =>
    simp only [goOn, meets_bind, meets_get, meets_ite, meets_entry]
    split
    · refine ⟨hm2.entry hu2.base_lt, ?_⟩
      rw [hdone rfl]
      omega
    · rename_i hne
      have hready : Meets (resume base) m2 (fun _ _ => True) fun e _ => e.NotMemory := trivial
      refine ((fails_of_blame (safe_resume hm2) (blame_of_notMemory hready)).also
        (hu2.resume hne)).traced.imp fun base' m3 h3 => ?_
      obtain ⟨hresume, ⟨hm3, -⟩, hu3⟩ := h3
      exact fails_after (.resume hstep hne hresume) (h.unwind _ _ m3 hu3.1 hm3)

/-!
## Actions
-/

section Actions

variable {binds : List Bool} {β γ : Type} {low : Nat} {Q : γ → Machine → Prop}

/-- An argument of an action is evaluated and read, and the rest goes on in a sound machine with as
many entries on the stack. -/
theorem fails_evaluated_bind {eval : Nat → Run α} {read : α → Run β} {g : β → Run γ}
    {start : Nat → Activity} {i : Nat}
    (heval : ∀ id m, m.Safe [id] →
      Meets (eval id) m (fun _ m' => m'.Safe [] ∧ m'.stack = m.stack) (Fails (start id) m))
    (hstart : ∀ {m : Machine} {id : Nat}, actionArg (m.stack.size - 1) i m = .ok id m →
      Leads (.act fuel binds) m (start id) m)
    (hend : ∀ {m m' : Machine} {id : Nat} {v : α}, actionArg (m.stack.size - 1) i m = .ok id m →
      eval id m = .ok v m' → Leads (.act fuel binds) m (.act fuel binds) m')
    (hread : ∀ v, Reads (read v)) (hm : m.Safe []) (hsize : 0 < m.stack.size)
    (hg : ∀ b m', m'.Safe [] → m'.stack.size = m.stack.size →
      Meets (g b) m' Q (Fails (.act fuel binds) m')) :
    Meets ((do read (← eval (← actionArg (m.stack.size - 1) i))) >>= g) m Q (Fails (.act fuel binds) m) := by
  simp only [bind_assoc]
  refine (fails_of_blame (safe_actionArg hm (i := i) (by omega)) (Reads.actionArg _ i).blame).traced.bind
    fun id m1 h1 => ?_
  obtain ⟨harg, ⟨rfl, hid⟩, -⟩ := h1
  refine (fails_after (hstart harg) (heval id m1 hid)).traced.bind fun v m2 h2 => ?_
  obtain ⟨hv, hm2, hstack⟩ := h2
  refine fails_after (hend harg hv) ?_
  refine (fails_of_blame ((hread v).safe hm2) (hread v).blame).bind fun b m3 h3 => ?_
  obtain ⟨rfl, -⟩ := h3
  exact hg b m3 hm2 (by rw [hstack])

theorem notMemory_onWorld (o : Operation) (m : Machine) : Meets (onWorld o) m
    (fun _ m' => m'.heap = m.heap) fun e m' => e.NotMemory ∧ m'.heap = m.heap := by
  unfold Meets onWorld
  cases hp : o.perform m.world with
  | ok a w => rfl
  | error e w =>
    obtain ⟨p, cause, rfl⟩ := o.failsForeign _ _ _ hp
    exact ⟨trivial, rfl⟩

theorem fails_onWorld_bind {o : Operation} {g : o.Answer → Run γ} (hm : m.Safe [])
    (hg : ∀ b m', onWorld o m = .ok b m' → m'.Safe [] → Meets (g b) m' Q (Fails (.act fuel binds) m')) :
    Meets (onWorld o >>= g) m Q (Fails (.act fuel binds) m) := by
  refine (((safe_onWorld hm o).and (notMemory_onWorld o m)).mono (fun _ _ h => h) fun _ _ he =>
    ⟨he.1, .of_notMemory he.2.1⟩).traced.bind fun b m1 h1 => ?_
  obtain ⟨heq, ⟨hm1, -⟩, -⟩ := h1
  exact fails_after (.operation heq) (hg b m1 heq hm1)

theorem fails_resultCell {c : Cell} (hm : m.Safe []) (hfree : c.isFree = false) (hind : c.isInd = false)
    (hleaf : c.children = []) : Meets (resultCell c) m
      (fun r m' => m'.Safe [r] ∧ 1 ≤ m'.heap.freeCells) (Fails (.act fuel binds) m) := by
  simp only [resultCell, safePoint]
  refine (fails_of_blame (safe_reserve hm _) (blame_reserve .result)).bind fun _ m1 h1 => ?_
  obtain ⟨hm1, hroom, -⟩ := h1
  have hstocked : m1.heap.Stocked (1 + 1) := hm1.stocked (by have : Heap.reserve = 64 := rfl; omega)
  exact (fails_of_blame (safe_alloc hm1 hfree hind (by simp [hleaf]))
    (blame_of_notMemory (takes_alloc c 1 m1 hstocked))).imp fun _ _ hs => ⟨hs.1, hs.2.2⟩

/-- **The list of the arguments** fits into the room that it asks for, and leaves room for one more cell
if there are fewer than sixteen. -/
theorem blame_argumentList (hm : m.Safe [])
    (hform : actionForm m.heap m.onTop = .primitive .getArgs) :
    Meets argumentList m (fun _ m' => m.world.args.length < 16 → 1 ≤ m'.heap.freeCells)
      (Blame (.act fuel binds) m) := by
  unfold argumentList
  refine ((blame_of_notMemory ((notMemory_onWorld .args m).mono (fun _ _ h => h) fun _ _ he => he.1)).also
    (safe_onWorld hm .args)).traced.bind fun args m1 h1 => ?_
  obtain ⟨hargs, -, hm1, -⟩ := h1
  refine blame_after (.operation hargs) ?_
  cases hargs
  rw [meets_bind]
  have hreq : Requests (.act fuel binds) { m with performed := .args :: m.performed }
      (4 * m.world.args.length + 3) := .arguments hform
  refine ((blame_reserve hreq).also (safe_reserve hm1 _)).imp fun _ m2 h2 => ?_
  obtain ⟨⟨hroom, -⟩, hm2⟩ := h2
  have htakes : Takes (4 * m.world.args.length + 3) (do
      let unpack ← alloc (.prim .unpack)
      let cons ← alloc (.comb .cons)
      let nil ← alloc (.comb .nil)
      argumentCells unpack cons nil m.world.args) := by
    have := (takes_alloc (.prim .unpack)).bind fun unpack => (takes_alloc (.comb .cons)).bind fun cons =>
      (takes_alloc (.comb .nil)).bind fun nil => takes_argumentCells unpack cons nil m.world.args
    exact (show 1 + (1 + (1 + 4 * m.world.args.length)) = 4 * m.world.args.length + 3 by omega) ▸ this
  have hreserve : Heap.reserve = 64 := rfl
  refine (htakes (m2.heap.freeCells - (4 * m.world.args.length + 3)) m2 (hm2.stocked ?_)).mono
    (fun _ m3 hs hlt => ?_) fun _ _ he => .of_notMemory he
  · have : 4 * m.world.args.length + 3 ≤ m2.heap.freeCells := (le_max_left _ _).trans hroom
    omega
  · have := hs.2
    have : Heap.reserve ≤ m2.heap.freeCells := (le_max_right _ _).trans hroom
    omega

/-- **An action asks for the cells that it takes**, and leaves room for the bind that takes its result,
but for a long list of arguments. -/
theorem fails_execute (h : LoopsSafe fuel) (hm : m.Safe []) (hsize : 0 < m.stack.size) (p : Primitive)
    (hform : p = .getArgs → actionForm m.heap m.onTop = .primitive .getArgs) :
    Meets (execute (Machine.whnf fuel) (Machine.normalize fuel) p (m.stack.size - 1)) m
      (fun r m' => m'.Safe [r] ∧ (1 ≤ m'.heap.freeCells ∨ p = .getArgs ∧ 16 ≤ m.world.args.length))
      (Fails (.act fuel binds) m) := by
  have hwhnf {β γ : Type} {read : Nat → Run β} {g : β → Run γ} {Q : γ → Machine → Prop} {m : Machine}
      {i : Nat} (hread : ∀ v, Reads (read v)) (hm : m.Safe []) (hsize : 0 < m.stack.size)
      (hg : ∀ b m', m'.Safe [] → m'.stack.size = m.stack.size →
        Meets (g b) m' Q (Fails (.act fuel binds) m')) :
      Meets ((do read (← Machine.whnf fuel (← actionArg (m.stack.size - 1) i))) >>= g) m Q
        (Fails (.act fuel binds) m) :=
    fails_evaluated_bind (fun id m hid => (h.whnf hid).imp fun _ _ hv => ⟨hv.1.1.nil, hv.2.stack⟩)
      .argWhnf .argEvaluated hread hm hsize hg
  have hresult {c : Cell} {m : Machine} {q : Prop} (hm : m.Safe []) (hfree : c.isFree = false)
      (hind : c.isInd = false) (hleaf : c.children = []) : Meets (resultCell c) m
      (fun r m' => m'.Safe [r] ∧ (1 ≤ m'.heap.freeCells ∨ q)) (Fails (.act fuel binds) m) :=
    (fails_resultCell hm hfree hind hleaf).imp fun _ _ hr => ⟨hr.1, .inl hr.2⟩
  cases p with
  | getChar | flush | close | malloc =>
    exact hwhnf (Reads.intValue _) hm hsize fun n m1 h1 _ =>
      fails_onWorld_bind h1 fun a m2 _ h2 => hresult h2 rfl rfl rfl
  | free | peek =>
    exact hwhnf (Reads.ptrValue _) hm hsize fun n m1 h1 _ =>
      fails_onWorld_bind h1 fun a m2 _ h2 => hresult h2 rfl rfl rfl
  | exit =>
    exact hwhnf (Reads.intValue _) hm hsize fun n m1 h1 _ =>
      fails_onWorld_bind h1 fun a m2 _ h2 => h2.fails trivial trivial
  | putChar =>
    refine hwhnf (Reads.intValue _) hm hsize fun n m1 h1 hs1 => ?_
    rw [← hs1]
    exact hwhnf (Reads.charValue _) h1 (by omega) fun c m2 h2 _ =>
      fails_onWorld_bind h2 fun a m3 _ h3 => hresult h3 rfl rfl rfl
  | poke =>
    refine hwhnf (Reads.ptrValue _) hm hsize fun n m1 h1 hs1 => ?_
    rw [← hs1]
    exact hwhnf (Reads.intValue _) h1 (by omega) fun c m2 h2 _ =>
      fails_onWorld_bind h2 fun a m3 _ h3 => hresult h3 rfl rfl rfl
  | openFile =>
    refine fails_evaluated_bind (fun id m hid => (h.normalizes hid).imp fun _ _ hv => ⟨hv.1, hv.2.stack⟩)
      .argNormalize .argNormalized (fun v => ?_) hm hsize fun path m1 h1 hs1 => ?_
    · split
      · exact Reads.pure _
      · exact fun _ => ⟨trivial, rfl⟩
    · rw [← hs1]
      exact hwhnf (Reads.intValue _) h1 (by omega) fun mode m2 h2 _ =>
        fails_onWorld_bind h2 fun a m3 _ h3 => hresult h3 rfl rfl rfl
  | getArgs =>
    refine (fails_of_blame (safe_argumentList hm) (blame_argumentList hm (hform rfl))).imp
      fun _ m' hr => ⟨hr.1, ?_⟩
    by_cases hfew : m.world.args.length < 16
    · exact .inl (hr.2 hfew)
    · exact .inr ⟨rfl, by omega⟩
  | _ => exact hm.fails trivial trivial

theorem notMemory_handOver {b : Bool} {result : Nat} (hroom : m.heap.Stocked 1) :
    Meets (handOver top b result) m (fun _ _ => True) fun e _ => e.NotMemory := by
  simp only [handOver, meets_bind, meets_truncate, meets_ite, meets_pure, meets_entry]
  split
  · exact (takes_alloc _ 0 { m with stack := m.stack.shrink top } hroom).imp fun _ _ _ => trivial
  · trivial

theorem LoopsSafe.finish (h : LoopsSafe fuel) {result : Nat}
    (hsize : m.stack.size = low + binds.length + 1) (hm : m.Safe [result])
    (hfinish : ∀ {b : Bool} {rest : List Bool} {m1 : Machine}, binds = b :: rest →
      handOver (m.stack.size - 1) b result m = .ok () m1 →
      Leads a m' (.performFrom fuel rest) m1)
    (hdenied : ∀ {rest : List Bool} {capacity : Nat} {m1 : Machine}, binds = true :: rest →
      m.heap.freeCells = 0 →
      handOver (m.stack.size - 1) true result m = .error (.error (.outOfMemory capacity)) m1 →
      Blame a m' (.error (.outOfMemory capacity)) m1) :
    Meets (finishAction fuel (m.stack.size - 1) binds result) m (fun id m' => m'.Safe [id]) (Fails a m') := by
  cases binds with
  | nil => exact hm
  | cons b binds =>
    have ho := operands_of_steady hsize (.refl m)
    simp only [length_cons] at hsize
    simp only [finishAction, meets_bind]
    refine ((meets_self _ m).and ((safe_handOver hm (by omega) (by omega)).and ho.handOver)).mono
      (fun _ m1 h1 => ?_) fun e m1 he => ⟨he.2.1, ?_⟩
    · obtain ⟨heq, hm1, ho1⟩ := h1
      exact fails_after (hfinish rfl heq) (h.perform low binds m1 ho1.size hm1)
    · -- the cell for the bind is the only one that is taken
      obtain ⟨heq, -, -⟩ := he
      by_cases hroom : 1 ≤ m.heap.freeCells
      · exact .of_notMemory ((notMemory_handOver (hm.stocked hroom)).error heq)
      · cases b with
        | true =>
          rintro capacity rfl
          exact hdenied rfl (by omega) heq capacity rfl
        | false =>
          have hnone : Meets (handOver (m.stack.size - 1) false result) m (fun _ _ => True)
              fun e _ => e.NotMemory := trivial
          exact .of_notMemory (hnone.error heq)

/-- One action, by its form: bind, return, or a primitive. -/
theorem LoopsSafe.act (h : LoopsSafe fuel) {action : Nat}
    (hsize : m.stack.size = low + binds.length + 1) (hm : m.Safe [action])
    (htop : m.onTop = action) (hroom : Heap.reserve ≤ m.heap.freeCells) :
    Meets (Machine.act fuel (m.stack.size - 1) binds action (actionForm m.heap action)) m
      (fun id m' => m'.Safe [id]) (Fails (.act fuel binds) m) := by
  have ho := operands_of_steady hsize (.refl m)
  have hoperands : ∀ b x y, m.Safe [x, y] →
      (∀ {m1 : Machine}, (do setEntry (m.stack.size - 1) y; push x : Run Unit) m = .ok () m1 →
        Leads (.act fuel binds) m (.performFrom fuel (b :: binds)) m1) →
      Meets (do (do setEntry (m.stack.size - 1) y; push x : Run Unit); performFrom fuel (b :: binds)) m
        (fun id m' => m'.Safe [id]) (Fails (.act fuel binds) m) := by
    intro b x y hxy hlead
    have hready : Meets (do setEntry (m.stack.size - 1) y; push x : Run Unit) m (fun _ _ => True)
        fun e _ => e.NotMemory := by
      simp only [meets_bind, meets_setEntry, meets_push]
      split <;> trivial
    refine ((fails_of_blame (safe_operands hxy) (blame_of_notMemory hready)).also
      (ho.operands b x y)).traced.bind fun _ m1 h1 => ?_
    obtain ⟨heq, ⟨hm1, -⟩, ho1⟩ := h1
    exact fails_after (hlead heq) (h.perform low (b :: binds) m1 ho1.size hm1)
  have hform := safe_actionForm hm
  cases hf : actionForm m.heap action <;> rw [hf] at hform <;> rw [← htop] at hf
  case result =>
    refine h.finish hsize hform ?_ fun _ hzero _ => ?_
    · rintro b rest m1 rfl heq
      exact .result hf heq
    · have : Heap.reserve = 64 := rfl
      omega
  case bind => exact hoperands true _ _ hform (.bind hf)
  case sequence => exact hoperands false _ _ hform (.sequence hf)
  case primitive p =>
    refine ((fails_execute h hm.nil (by omega) p fun hp => hp ▸ hf).also
      (quiet_execute (quiet_whnf fuel) (quiet_normalize fuel) p _ m)).traced.bind fun result m1 h1 => ?_
    obtain ⟨heq, ⟨hm1, hleft⟩, hs1⟩ := h1
    have hsame : m1.stack.size = m.stack.size := by rw [hs1.stack]
    rw [← hsame]
    refine h.finish (by rw [hsame]; exact hsize) hm1 ?_ ?_
    · rintro b rest m2 rfl hover
      rw [hsame] at hover
      exact .executed heq hover
    · rintro rest capacity m2 rfl hzero hover capacity ⟨⟩
      -- only a long list of arguments leaves no room
      rcases hleft with hleft | ⟨rfl, hmany⟩
      · omega
      rw [hsame] at hover
      exact ⟨_, m, .here, .inr ⟨⟨fuel, rest, rfl⟩, hf, hmany, result, m1, m2, heq, hzero, hover, rfl⟩⟩
  case other => exact hm.fails trivial trivial

theorem LoopsSafe.perform_succ (h : LoopsSafe fuel)
    (hsize : m.stack.size = low + binds.length + 1) (hm : m.Safe []) :
    Meets (performFrom (fuel + 1) binds) m (fun id m' => m'.Safe [id])
      (Fails (.performFrom (fuel + 1) binds) m) := by
  rw [performFrom_succ]
  refine ((fails_of_blame (safe_reserve hm _) (blame_reserve .performFrom)).also
    (Quiet.safePoint m)).traced.bind fun _ m1 h1 => ?_
  obtain ⟨hpoint, ⟨hm1, -⟩, hs1⟩ := h1
  simp only [meets_bind, meets_top, meets_entry]
  have hentry := hm1.entry (i := m1.stack.size - 1) (by rw [hs1.stack]; omega)
  refine (fails_after (.evaluateAction hpoint) (h.whnf hentry)).traced.imp fun action m2 h2 => ?_
  obtain ⟨hwhnf, ⟨hm2, hroom⟩, hs2⟩ := h2
  rw [meets_setEntry]
  have hact : Leads (.performFrom (fuel + 1) binds) m _ _ := .act hpoint hwhnf
  have hm3 := hm2.setEntry mem_cons_self (m1.stack.size - 1)
  have htop : (m2.stack.setIfInBounds (m1.stack.size - 1) action).getD (m1.stack.size - 1) 0 = action := by
    rw [Array.getD_eq_getD_getElem?, Array.getElem?_setIfInBounds_self_of_lt
      (by rw [hs2.stack, hs1.stack]; omega)]
    rfl
  obtain ⟨ho, hlast⟩ := (operands_of_steady hsize (hs1.trans hs2)).setLast hs2.stack action
  have hturn := h.act ho.size hm3 (by rw [onTop, ← hlast]; exact htop) hroom
  rw [← hlast] at hturn
  rw [meets_get]
  exact fails_after hact hturn

/-- The normalizing loop with one more unit of fuel. -/
theorem LoopsSafe.normalize_succ (h : LoopsSafe fuel) {pending : List OpenValue} (hm : m.Safe []) :
    Meets (normalizeFrom base (fuel + 1) pending) m (fun _ m' => m'.Safe [])
      (Fails (.normalizeFrom base (fuel + 1) pending) m) := by
  simp only [normalizeFrom_succ, meets_bind, meets_get, meets_ite, meets_malformed]
  split
  · exact hm.fails trivial trivial
  rename_i hb
  have hlt : base < m.stack.size := by omega
  simp only [meets_top, meets_entry]
  have hentry := hm.entry (i := m.stack.size - 1) (by omega)
  refine (fails_after (.evaluateField hlt) (h.whnf hentry)).traced.imp fun v m1 h1 => ?_
  obtain ⟨hwhnf, ⟨hm1, -⟩, -⟩ := h1
  have hm2 := hm1.shrink (m.stack.size - 1)
  simp only [meets_truncate]
  cases hv : valueForm m1.heap v with
  | inr form =>
    have hready : ∀ ids m, Meets (pushAll ids) m (fun _ _ => True) fun e _ => e.NotMemory := by
      intro ids
      induction ids with
      | nil => exact fun _ => trivial
      | cons id ids ih =>
        intro m
        simp only [pushAll, meets_bind, meets_push]
        refine (ih m).imp fun _ m1 _ => ?_
        split <;> trivial
    refine (fails_of_blame (safe_pushAll _ (safe_valueForm hm2 hv))
      (blame_of_notMemory (hready form.2 _))).traced.bind fun _ m3 h3 => ?_
    exact fails_after (.openFields hlt hwhnf hv h3.1) (h.normalize _ _ m3 h3.2.1)
  | inl value =>
    rw [addValue]
    cases hclose : closeValue value pending with
    | inl value => exact hm2.nil
    | inr pending' =>
      exact fails_after (.closeField hlt hwhnf hv hclose) (h.normalize _ _ _ hm2.nil)

end Actions

/-- **The loops keep a machine sound, and fail for want of memory only if a request is denied.** -/
theorem loops_safe (fuel : Nat) : LoopsSafe fuel := by
  induction fuel with
  | zero =>
    exact ⟨fun _ _ _ _ h => h.fails trivial trivial, fun _ _ _ _ h => h.fails trivial trivial,
      fun _ _ _ h => h.fails trivial trivial⟩
  | succ fuel ih =>
    exact ⟨fun _ _ _ hu h => ih.unwind_succ hu h, fun _ _ _ hs h => ih.perform_succ hs h,
      fun _ _ _ h => ih.normalize_succ h⟩

section Evaluations

variable {x : Run α} {Q : α → Machine → Prop}

theorem safe_of_fails (hx : Meets x m Q (Fails a m1)) : Meets x m Q SafeHalt :=
  hx.mono (fun _ _ h => h) fun _ _ he => he.halt

theorem safe_whnf (hm : m.Safe [id]) :
    Meets (whnf fuel id) m (fun v m' => m'.Safe [v] ∧ Steady m m') SafeHalt :=
  (safe_of_fails ((loops_safe fuel).whnf hm)).imp fun _ _ h => ⟨h.1.1, h.2⟩

theorem safe_perform (hm : m.Safe [id]) :
    Meets (perform fuel id) m (fun v m' => m'.Safe [v] ∧ Steady m m') SafeHalt :=
  safe_of_fails ((loops_safe fuel).performs hm)

theorem safe_normalize (hm : m.Safe [id]) :
    Meets (normalize fuel id) m (fun _ m' => m'.Safe [] ∧ Steady m m') SafeHalt :=
  safe_of_fails ((loops_safe fuel).normalizes hm)

theorem safe_execute (hm : m.Safe []) (hsize : 0 < m.stack.size) (p : Primitive) :
    Meets (execute (whnf fuel) (normalize fuel) p (m.stack.size - 1)) m (fun r m' => m'.Safe [r])
      SafeHalt := by
  by_cases hp : p = .getArgs
  · subst hp
    exact safe_argumentList hm
  · exact (safe_of_fails (a := .act fuel []) (fails_execute (loops_safe fuel) hm hsize p fun h =>
      absurd h hp)).imp fun _ _ h => h.1

end Evaluations

end Machine

end GraphReduction
