import GraphReduction.Proofs.Machine.Plain
import GraphReduction.Proofs.Machine.Transparency

/-!
# The integrity of spines

A suspended rule leaves its spine on the stack while arbitrary other evaluations, which may reach
the same cells, go on above it. `Visits` follows the states of these evaluations together with the
spines that lie below the current one: those that wait for it, and those that were interrupted for
the text of an error.
-/

namespace GraphReduction

open List

/-- The number of arguments that the rule of a head takes. -/
def Cell.arity? : Cell → Option Nat
  | .comb c => c.arity
  | .prim p => some p.arity
  | _ => none

namespace Machine

variable {r : Progress}

theorem arity?_of_strictness {c : Cell} {r : Nat × Nat} (h : strictness c = some r) :
    c.arity? = some r.1 := by
  unfold strictness at h
  split at h
  · cases h; rfl
  · split at h <;> cases h
    rfl
  · cases h

/-- The states of evaluations of definitions that start in `m0`, with the first and last positions of
the spines below the current one, the innermost first. -/
inductive Visits (m0 : Machine) : List (Nat × Nat) → Activity → Machine → Prop
  | start : Visits m0 [] .idle m0
  -- calls from outside
  | whnfReturns {m m' : Machine} {fuel id v : Nat} : Visits m0 [] .idle m → id ∈ m.pinned →
    Machine.whnf fuel id m = .ok v m' → Visits m0 [] .idle m'
  | performReturns {m m' : Machine} {fuel id v : Nat} : Visits m0 [] .idle m → id ∈ m.pinned →
    Machine.perform fuel id m = .ok v m' → Visits m0 [] .idle m'
  | normalizeReturns {m m' : Machine} {fuel id : Nat} {v : Value} : Visits m0 [] .idle m →
    id ∈ m.pinned → Machine.normalize fuel id m = .ok v m' → Visits m0 [] .idle m'
  | runReturns {m m' : Machine} {fuel id : Nat} {v : Value} : Visits m0 [] .idle m →
    id ∈ m.pinned → run fuel id m = .ok (.value v) m' → Visits m0 [] .idle m'
  | fails {m m' : Machine} {fuel id : Nat} {e : Halt} (call : EntryPoint) : Visits m0 [] .idle m →
    id ∈ m.pinned → call.call fuel id m = .error e m' → Visits m0 [] (.failed e) m'
  | whnf {m : Machine} {fuel id : Nat} : Visits m0 [] .idle m → id ∈ m.pinned →
    Visits m0 [] (.whnf fuel id) m
  | perform {m : Machine} {fuel id : Nat} : Visits m0 [] .idle m → id ∈ m.pinned →
    Visits m0 [] (.perform fuel id) m
  | normalize {m : Machine} {fuel id : Nat} : Visits m0 [] .idle m → id ∈ m.pinned →
    Visits m0 [] (.normalize fuel id) m
  | runPerform {m m1 : Machine} {fuel id v : Nat} : Visits m0 [] .idle m → id ∈ m.pinned →
    Machine.whnf fuel id m = .ok v m1 → Visits m0 [] (.perform fuel v) m1
  | runResult {m m1 m2 : Machine} {fuel id v r : Nat} : Visits m0 [] .idle m → id ∈ m.pinned →
    Machine.whnf fuel id m = .ok v m1 → Machine.perform fuel v m1 = .ok r m2 →
    Visits m0 [] (.normalize fuel r) m2
  | runNormalize {m m1 : Machine} {fuel id v : Nat} : Visits m0 [] .idle m → id ∈ m.pinned →
    Machine.whnf fuel id m = .ok v m1 → Visits m0 [] (.normalize fuel id) m1
  -- a turn of a loop, and the evaluations that it starts
  | turn {spines : List (Nat × Nat)} {a a' : Activity} {m m' : Machine} : Visits m0 spines a m →
    a ≠ .idle → (∀ outer fuel base, a ≠ .look outer fuel base) → Leads a m a' m' →
    Visits m0 spines a' m'
  -- a look at a spine
  | makeRoom {spines : List (Nat × Nat)} {m m1 : Machine} {outer fuel base n : Nat} :
    Visits m0 spines (.look outer fuel base) m → reserve n m = .ok () m1 →
    Visits m0 spines (.look outer fuel base) m1
  | again {spines : List (Nat × Nat)} {m m1 : Machine} {outer fuel base : Nat} :
    Visits m0 spines (.look outer fuel base) m →
    step ⟨Machine.perform fuel, Machine.normalize fuel⟩ base m = .ok .again m1 →
    Visits m0 spines (.unwind outer fuel base) m1
  | force {spines : List (Nat × Nat)} {m m1 m2 : Machine} {outer fuel base base' id : Nat} :
    Visits m0 spines (.look outer fuel base) m →
    step ⟨Machine.perform fuel, Machine.normalize fuel⟩ base m = .ok (.force id) m1 →
    suspend base id m1 = .ok base' m2 →
    Visits m0 ((base, m1.stack.size - 1) :: spines) (.unwind outer fuel base') m2
  | resume {spines : List (Nat × Nat)} {m m1 m2 : Machine} {outer fuel base base' : Nat} :
    Visits m0 spines (.look outer fuel base) m →
    step ⟨Machine.perform fuel, Machine.normalize fuel⟩ base m = .ok .done m1 →
    m1.frames.size ≠ outer → Machine.resume base m1 = .ok base' m2 →
    Visits m0 spines.tail (.unwind outer fuel base') m2
  | errorText {spines : List (Nat × Nat)} {m : Machine} {outer fuel base a : Nat} :
    Visits m0 spines (.look outer fuel base) m →
    m.heap.get (m.stack.getD (m.stack.size - 1) 0) = .prim .error → base < m.stack.size - 1 →
    arg (m.stack.size - 1) 1 m = .ok a m →
    Visits m0 ((base, m.stack.size - 1) :: spines) (.normalize fuel a) m

/-!
## What holds in each activity
-/

/-- Every suspended spine of the machine is one of these. -/
def Registered (spines : List (Nat × Nat)) (frames : List Nat) : Prop :=
  ∀ b ∈ frames, b ∈ spines.map Prod.fst

/-- The spines of an unwinding and those below it. -/
structure Layered (outer base : Nat) (spines : List (Nat × Nat)) (m : Machine) : Prop where
  plain : Plain m []
  unwinding : Spines outer base m
  beneath : ∃ below, spines = spans (m.frames.toList.drop outer).reverse base ++ below ∧
    Beneath m.heap.get m.stack (lowest outer base m) below ∧
    Registered below (m.frames.toList.take outer)

/-- What holds of a machine that is doing something above the given spines. -/
def Activity.Guarded (spines : List (Nat × Nat)) (m : Machine) : Activity → Prop
  | .idle => Plain m [] ∧ spines = [] ∧ m.frames = #[]
  | .whnf _ id | .normalize _ id =>
    Plain m [id] ∧ Beneath m.heap.get m.stack m.stack.size spines ∧ Registered spines m.frames.toList
  | .perform _ id => Plain m [id] ∧ spines = [] ∧ m.frames = #[]
  | .unwind outer _ base | .look outer _ base => Layered outer base spines m
  | .performFrom _ binds =>
    binds.length < m.stack.size ∧ Plain m [] ∧ spines = [] ∧ m.frames = #[]
  | .act _ binds => binds.length < m.stack.size ∧ Plain m [] ∧
    Rests m.heap.get (m.stack.getD (m.stack.size - 1) 0) ∧ spines = [] ∧ m.frames = #[]
  | .normalizeFrom base _ pending => m.stack.size = base + 1 + owed pending ∧ Plain m [] ∧
    Beneath m.heap.get m.stack base spines ∧ Registered spines m.frames.toList
  | .failed e => ∀ g, e = .error (.malformed g) → g = .loop
  | .returned | .failedLoad _ => True

theorem mem_spans {b : Nat} {bs : List Nat} (h : b ∈ bs) (e : Nat) :
    b ∈ (spans bs e).map Prod.fst := by
  induction bs generalizing e with
  | nil => cases h
  | cons b' bs ih =>
    rcases mem_cons.1 h with rfl | h
    · exact .head _
    · exact .tail _ (ih h b')

section Calls

variable {m m1 : Machine} {fuel id : Nat} {spines : List (Nat × Nat)}

theorem loop_of_error {α : Type} {x : Run α} {e : Halt} {Q Q' : α → Machine → Prop}
    (ho : Meets x m Q fun h _ => h.Orderly) (hs : Meets x m Q' SafeHalt) (hx : x m = .error e m1)
    (g : GraphFault) (he : e = .error (.malformed g)) : g = .loop := by
  subst he
  exact Halt.Orderly.eq_loop (ho.error hx) (hs.error hx).1

theorem orderly_evaluate (hp : Plain m []) (hid : id ∈ m.pinned) :
    Meets (evaluate fuel id) m (fun _ m' => Plain m' []) fun h _ => h.Orderly := by
  have h := loops_orderly fuel
  have hd := hp.pinned hid
  unfold evaluate
  rw [meets_bind]
  refine .intro (fun v m1 hw => ?_) fun e m1 hw => (h.whnf hd .nil).error hw
  obtain ⟨hv, -, -, hst⟩ := hd.whnf hw
  simp only [meets_bind, meets_get, meets_ite]
  split
  · refine .intro (fun r m2 hr => ?_) fun e m2 hr => (h.performs hv).error hr
    have hres := hv.perform hr
    exact .intro (fun w m3 hn => (hres.normalize hn).1) fun e m3 hn => (h.normalizes hres .nil).error hn
  · have hd1 := hv.nil.pinned (x := id) (by rw [hst.pinned]; exact hid)
    exact .intro (fun w m2 hn => (hd1.normalize hn).1) fun e m2 hn => (h.normalizes hd1 .nil).error hn

theorem orderly_run (hp : Plain m []) (hid : id ∈ m.pinned) : Meets (run fuel id) m
    (fun o m' => ∀ v, o = .value v → Plain m' []) fun h _ => h.Orderly := by
  refine meets_run ((orderly_evaluate hp hid).mono (fun v m1 h1 => ?_) fun e m1 he => ⟨?_, he⟩)
  · exact .intro (fun _ m2 hw _ _ => h1.onWorld hw) fun _ _ hw => (Orderly.onWorld _ m1).error hw
  · intro status _ v hv
    cases hv

theorem quiet_run (fuel id : Nat) : Quiet (run fuel id) :=
  leaves_run allows_steady (quiet_whnf fuel) (quiet_perform fuel) (quiet_normalize fuel) id

theorem orderly_call (call : EntryPoint) (hp : Plain m []) (hid : id ∈ m.pinned) :
    Meets (call.call fuel id) m (fun _ _ => True) fun h _ => h.Orderly := by
  have h := loops_orderly fuel
  have hd := hp.pinned hid
  exact meets_call call ((h.whnf hd .nil).imp fun _ _ _ => trivial)
    ((h.performs hd).imp fun _ _ _ => trivial) ((h.normalizes hd .nil).imp fun _ _ _ => trivial)
    ((orderly_run hp hid).imp fun _ _ _ => trivial)

end Calls

section Layers

variable {m m1 : Machine} {fuel outer base id n : Nat} {spines : List (Nat × Nat)} {base' : Nat}

theorem enter_push_eq (hm : (do enter; push id : Run Unit) m = .ok () m1) :
    m1 = { m with depth := m.depth + 1, stack := m.stack.push id } := by
  have : Meets (do enter; push id : Run Unit) m
      (fun _ m1 => m1 = { m with depth := m.depth + 1, stack := m.stack.push id })
      fun _ _ => True := by
    simp only [meets_bind, meets_enter, meets_push]
    split
    · trivial
    · split <;> trivial
  exact this.ok hm

theorem suspend_eq (hm : suspend base id m = .ok base' m1) : base' = m.stack.size ∧
    m1 = { m with
      depth := m.depth + 1
      frames := m.frames.push base
      stack := m.stack.push id } := by
  have : Meets (suspend base id) m (fun b m1 => b = m.stack.size ∧ m1 = { m with
      depth := m.depth + 1
      frames := m.frames.push base
      stack := m.stack.push id }) fun _ _ => True := by
    simp only [suspend, meets_bind, meets_enter, meets_modify, meets_push, meets_top]
    split
    · trivial
    · split
      · trivial
      · exact ⟨by simp, trivial⟩
  exact this.ok hm

namespace Layered

theorem start (hp : Plain m [id]) (hb : Beneath m.heap.get m.stack m.stack.size spines)
    (hreg : Registered spines m.frames.toList) :
    Layered m.frames.size m.stack.size spines
      { m with depth := m.depth + 1, stack := m.stack.push id } := by
  have hs := Spines.start (m := { m with depth := m.depth + 1, stack := m.stack.push id }) (by simp)
  simp only [Array.size_push, Nat.add_sub_cancel] at hs
  have hdrop : m.frames.toList.drop m.frames.size = [] := drop_of_length_le (by simp)
  refine ⟨hp.start, hs, spines, ?_, ?_, ?_⟩
  · rw [hdrop]; rfl
  · unfold lowest
    rw [hdrop]
    exact hb.congr fun i hi => getD_push_lt hi
  · rw [take_of_length_le (by simp)]
    exact hreg

section

variable (h : Layered outer base spines m)
include h

theorem reserve (hm : Machine.reserve n m = .ok () m1) :
    Layered outer base spines m1 := by
  obtain ⟨hp, hs, below, hspines, hb, hreg⟩ := h
  have hst := (Quiet.reserve n m).ok hm
  have hlow := hs.toUnwinding.lowest_le
  have hlt := hs.base_lt
  refine ⟨hp.reserve hm, ((spines_reserve hs hp.safe n).ok hm).1, below, ?_, ?_, ?_⟩
  · rw [hst.frames]; exact hspines
  · rw [lowest_congr hst.frames]
    exact (hb.reserve hp.safe n (by omega)).ok hm
  · rw [hst.frames]; exact hreg

theorem step
    (hm : Machine.step ⟨Machine.perform fuel, Machine.normalize fuel⟩ base m = .ok r m1) :
    Layered outer base spines m1 := by
  obtain ⟨hp, hs, below, hspines, hb, hreg⟩ := h
  have hl := looked hp hs hm
  refine ⟨hl.plain, hl.keeps.1, below, ?_, ?_, ?_⟩
  · rw [hl.above.frames]; exact hspines
  · rw [lowest_congr hl.above.frames]
    exact hb.rewrites hl.rewrites hl.above hs.toUnwinding.lowest_le hs.base_lt
  · rw [hl.above.frames]; exact hreg

/-- A suspended spine becomes a layer of its own. -/
theorem suspend
    (ha : Awaits m.heap.get m.stack base (m.stack.size - 1) id)
    (hm : Machine.suspend base id m = .ok base' m1) :
    Layered outer base' ((base, m.stack.size - 1) :: spines) m1 := by
  obtain ⟨hp, hs, below, hspines, hb, hreg⟩ := h
  have hpa := hp.awaited hs ha
  have hs1 := (spines_suspend hs hpa.safe ha).ok hm
  obtain ⟨-, hlow, -⟩ := (hs.toUnwinding.suspend id).ok hm
  have hplain := hpa.suspend hm
  have hle := hs.toUnwinding.lowest_le
  have hlt := hs.base_lt
  obtain ⟨rfl, rfl⟩ := suspend_eq hm
  refine ⟨hplain, hs1, below, ?_, ?_, ?_⟩
  · show _ = spans ((m.frames.push base).toList.drop outer).reverse m.stack.size ++ below
    rw [hs.toUnwinding.drop_push, reverse_append, hspines]
    rfl
  · rw [hlow]
    exact hb.congr fun i hi => getD_push_lt (by omega)
  · show Registered below ((m.frames.push base).toList.take outer)
    rw [Array.toList_push, take_append_of_le_length (by simpa using hs.outer_le)]
    exact hreg

/-- Resuming takes the uppermost layer off. -/
theorem resume (hne : m.frames.size ≠ outer)
    (hm : Machine.resume base m = .ok base' m1) : Layered outer base' spines.tail m1 := by
  obtain ⟨hp, hs, below, hspines, hb, hreg⟩ := h
  have hs1 := (spines_resume hs hne).ok hm
  obtain ⟨-, hlow, -⟩ := (hs.toUnwinding.resume hne).ok hm
  have hplain := hp.resume hm
  have hle := hs.toUnwinding.lowest_le
  obtain ⟨l, b, hl, hlen, hpop, hback⟩ := hs.toUnwinding.exists_frame hne
  have hb' : base' = b ∧ m1 = { m with
      stack := m.stack.shrink base
      frames := m.frames.pop
      depth := m.depth - 1 } := by
    have : Machine.resume base m = .ok (m.frames.back?.getD base) { m with
      stack := m.stack.shrink base
      frames := m.frames.pop
      depth := m.depth - 1 } := rfl
    rw [this] at hm
    cases hm
    exact ⟨hback, rfl⟩
  obtain ⟨rfl, rfl⟩ := hb'
  refine ⟨hplain, hs1, below, ?_, ?_, ?_⟩
  · show _ = spans (m.frames.pop.toList.drop outer).reverse base' ++ below
    rw [hspines, hl, hpop, drop_append_of_le_length hlen, reverse_append]
    rfl
  · rw [hlow]
    exact hb.congr fun i hi => getD_shrink (by omega)
  · show Registered below (m.frames.pop.toList.take outer)
    rw [hpop]
    rwa [hl, take_append_of_le_length hlen] at hreg

/-- The current spine is interrupted for the text of an error. -/
theorem interrupt {a : Nat}
    (hc : m.heap.get m.onTop = .prim .error)
    (hlt : base < m.stack.size - 1) (harg : arg (m.stack.size - 1) 1 m = .ok a m) :
    Plain m [a] ∧
      Beneath m.heap.get m.stack m.stack.size ((base, m.stack.size - 1) :: spines) ∧
      Registered ((base, m.stack.size - 1) :: spines) m.frames.toList := by
  obtain ⟨hp, hs, below, rfl, hb, hreg⟩ := h
  refine ⟨?_, hs.interrupt hb hc hlt, fun x hx => ?_⟩
  · obtain ⟨f, b, happ⟩ := hs.applied (n := 1) (by omega) 1 (by omega) (by omega)
    have hread : arg (m.stack.size - 1) 1 m = .ok b m := by
      simp only [arg, entry, cell, bind, EStateM.bind, happ]; rfl
    rw [hread] at harg
    cases harg
    exact (hp.entry (by omega)).app happ
  · rw [← take_append_drop outer m.frames.toList] at hx
    simp only [map_cons, map_append, mem_cons, mem_append]
    rcases mem_append.1 hx with hx | hx
    · exact Or.inr (Or.inr (hreg x hx))
    · exact Or.inr (Or.inl (mem_spans (mem_reverse.2 hx) base))

end

end Layered

end Layers

/-!
## Every state that is visited
-/

section Visits

variable {m m' m0 : Machine} {a a' : Activity} {spines : List (Nat × Nat)}

namespace Activity.Guarded

variable {fuel x y : Nat} {b : Bool} {binds : List Bool}

theorem outermost (hp : Plain m [x]) (hf : m.frames = #[]) : Plain m [x] ∧
    Beneath m.heap.get m.stack m.stack.size [] ∧ Registered [] m.frames.toList :=
  ⟨hp, .nil, by rw [hf]; exact fun _ hb => by cases hb⟩

theorem operands (hlt : binds.length < m.stack.size) (hp : Plain m [x, y]) (hf : m.frames = #[])
    (hm : (do setEntry (m.stack.size - 1) y; push x : Run Unit) m = .ok () m') :
    (Activity.performFrom fuel (b :: binds)).Guarded [] m' := by
  have ho := ((operands_of_lt hlt (.refl m)).operands b x y).ok hm
  refine ⟨ho.lt, ?_, rfl, ho.frames.trans hf⟩
  have hplain : Meets (do setEntry (m.stack.size - 1) y; push x : Run Unit) m
      (fun _ m1 => Plain m1 []) fun _ _ => True := by
    simp only [meets_bind, meets_setEntry, meets_push]
    split
    · trivial
    · exact ((hp.setEntry (.tail _ (.head _)) _).push (.head _)).nil
  exact hplain.ok hm

theorem handOver (hlt : (b :: binds).length < m.stack.size) (hp : Plain m [x])
    (hf : m.frames = #[]) (hm : Machine.handOver (m.stack.size - 1) b x m = .ok () m') :
    (Activity.performFrom fuel binds).Guarded [] m' := by
  have ho := ((operands_of_lt hlt (.refl m)).handOver).ok hm
  simp only [length_cons] at hlt
  exact ⟨ho.lt, hp.handOver (by omega) (by omega) hm, rfl, ho.frames.trans hf⟩

theorem act (hlt : binds.length < m.stack.size) (hp : Plain m' [])
    (hr : Rests m.heap.get m.onTop) (hset : Settled m.stack.size m m')
    (hs : Steady m m') (hf : m.frames = #[]) : (Activity.act fuel binds).Guarded [] m' := by
  refine ⟨by rw [hs.stack]; exact hlt, hp, ?_, rfl, hs.frames.trans hf⟩
  have hr' := hset (m.stack.size - 1) (by omega) hr
  rw [hs.stack] at hr' ⊢
  exact hr'

end Activity.Guarded

theorem settled_onWorld (o : Operation) :
    Meets (onWorld o) m (fun _ m' => Settled m.stack.size m m') fun _ _ => True := by
  unfold Meets onWorld
  cases o.perform m.world with
  | ok a w => exact .refl _ m
  | error e w => trivial

/-- **One step keeps what holds in an activity**, other than a call or a look at a spine. -/
theorem guarded_of_leads (hl : Leads a m a' m') (hidle : a ≠ .idle)
    (hlook : ∀ outer fuel base, a ≠ .look outer fuel base) (h : a.Guarded spines m) :
    a'.Guarded spines m' := by
  cases hl with
  | loadProgram | loadImage | loadProgramFails | loadImageFails | callReturns | callStops | callFails
  | callWhnf | callPerform | callNormalize | runPerform | runResult | runNormalize =>
    exact absurd rfl hidle
  -- a look at a spine is left to the induction over the visits
  | makeRoom | again | force | resume | performIO | errorText => exact absurd rfl (hlook _ _ _)
  | startWhnf hm =>
    obtain rfl := enter_push_eq hm
    exact .start h.1 h.2.1 h.2.2
  | startPerform hm =>
    obtain rfl := enter_push_eq hm
    exact ⟨by simp, h.1.start, h.2⟩
  | startNormalize hm =>
    obtain rfl := enter_push_eq hm
    refine ⟨by simp [owed], h.1.start, ?_, h.2.2⟩
    exact h.2.1.congr fun i hi => getD_push_lt hi
  | safePoint hm => exact Layered.reserve h hm
  | evaluateAction hm =>
    obtain ⟨hlt, hp, rfl, hf⟩ := h
    have hs := (Quiet.safePoint m).ok hm
    exact .outermost ((hp.reserve hm).entry (by rw [hs.stack]; omega)) (hs.frames.trans hf)
  | act hm hm2 =>
    obtain ⟨hlt, hp, rfl, hf⟩ := h
    have hs := (Quiet.safePoint m).ok hm
    obtain ⟨hp2, hr, -, hs2⟩ :=
      ((hp.reserve hm).entry (by rw [hs.stack]; omega)).whnf hm2
    refine ⟨by simpa [hs2.stack, hs.stack] using hlt, (hp2.setEntry (.head _) _).nil, ?_, rfl,
      (hs2.frames.trans hs.frames).trans hf⟩
    simp only [Array.size_setIfInBounds, hs2.stack]
    rw [getD_set_eq (by rw [hs.stack]; omega)]
    exact hr
  | bind hf hm =>
    obtain ⟨hlt, hp, hr, rfl, hframes⟩ := h
    have hcells := (hp.entry (i := m.stack.size - 1) (by omega)).actionForm hr
    rw [hf] at hcells
    exact .operands hlt hcells hframes hm
  | sequence hf hm =>
    obtain ⟨hlt, hp, hr, rfl, hframes⟩ := h
    have hcells := (hp.entry (i := m.stack.size - 1) (by omega)).actionForm hr
    rw [hf] at hcells
    exact .operands hlt hcells hframes hm
  | result hf hm =>
    obtain ⟨hlt, hp, hr, rfl, hframes⟩ := h
    have hcells := (hp.entry (i := m.stack.size - 1) (by omega)).actionForm hr
    rw [hf] at hcells
    exact .handOver hlt hcells hframes hm
  | executed hm hm2 =>
    obtain ⟨hlt, hp, hr, rfl, hframes⟩ := h
    have hs := (quiet_execute (quiet_whnf _) (quiet_normalize _) _ _ m).ok hm
    have hx := hp.execute (by omega) hr hm
    rw [← hs.stack] at hlt hm2
    exact .handOver hlt hx (hs.frames.trans hframes) hm2
  | argWhnf ha | argNormalize ha =>
    obtain ⟨hlt, hp, hr, rfl, hframes⟩ := h
    exact .outermost (hp.actionArg (by omega) hr ha).2 hframes
  | argEvaluated ha hm =>
    obtain ⟨hlt, hp, hr, rfl, hframes⟩ := h
    obtain ⟨hp1, -, hset, hs⟩ := (hp.actionArg (by omega) hr ha).2.whnf hm
    exact .act hlt hp1.nil hr hset hs hframes
  | argNormalized ha hm =>
    obtain ⟨hlt, hp, hr, rfl, hframes⟩ := h
    obtain ⟨hp1, hset, hs⟩ := (hp.actionArg (by omega) hr ha).2.normalize hm
    exact .act hlt hp1 hr hset hs hframes
  | operation hm =>
    obtain ⟨hlt, hp, hr, rfl, hframes⟩ := h
    exact .act hlt (hp.onWorld hm) hr ((settled_onWorld _).ok hm) ((Quiet.onWorld _ m).ok hm) hframes
  | resultRoom hm =>
    obtain ⟨hlt, hp, hr, rfl, hframes⟩ := h
    exact .act hlt (hp.reserve hm) hr ((settled_reserve hp.safe _).ok hm) ((Quiet.reserve _ m).ok hm)
      hframes
  | evaluateField hb =>
    obtain ⟨hsize, hp, hbelow, hreg⟩ := h
    exact ⟨hp.entry (by omega), hbelow.mono (by omega), hreg⟩
  | @openFields _ m1 _ base _ _ pending _ fields hb hm hv hm2 =>
    obtain ⟨hsize, hp, hbelow, hreg⟩ := h
    have hentry := hp.entry (i := m.stack.size - 1) (by omega)
    obtain ⟨hp1, hr1, -, hst1⟩ := hentry.whnf hm
    have hb1 : Beneath m1.heap.get (m1.stack.shrink (m.stack.size - 1)) base spines :=
      ((loops_orderly _).field hb hp hbelow).ok hm
    obtain ⟨hheap, hsize2, hentries⟩ := (pushAll_spec fields).ok hm2
    have hframes : m'.frames = m1.frames := ((pushAll_keeps (f := 0) fields (Nat.zero_le _)).ok hm2).2.1
    have hpos := length_pos_of_valueForm hv
    replace hsize2 : m'.stack.size = (m1.stack.shrink (m.stack.size - 1)).size + fields.length := hsize2
    refine ⟨?_, ((hp1.valueForm hr1 hv).shrink _).pushAll fields (fun _ hx => hx) hm2, ?_, ?_⟩
    · rw [hsize2, Array.size_shrink, hst1.stack]
      simp only [owed] at hsize ⊢
      omega
    · rw [hheap]
      refine hb1.congr fun i hi => hentries i ?_
      show i < (m1.stack.shrink (m.stack.size - 1)).size
      rw [Array.size_shrink, hst1.stack]; omega
    · rw [hframes, hst1.frames]; exact hreg
  | closeField hb hm hv hc =>
    obtain ⟨hsize, hp, hbelow, hreg⟩ := h
    have hentry := hp.entry (i := m.stack.size - 1) (by omega)
    obtain ⟨hp1, -, -, hst1⟩ := hentry.whnf hm
    have howed := owed_of_closeValue hc
    refine ⟨?_, (hp1.shrink _).nil, ((loops_orderly _).field hb hp hbelow).ok hm, ?_⟩
    · simp only [Array.size_shrink, hst1.stack]; omega
    · show Registered spines _
      rw [hst1.frames]; exact hreg
  | unwindReturns | performReturns | normalizeReturns => trivial
  | unwindFails hm =>
    obtain ⟨hp, hs, below, -, hb, -⟩ := h
    exact loop_of_error ((loops_orderly _).unwind _ _ _ _ m hp hs (Nat.le_refl _) hb)
      (safe_of_fails ((loops_safe _).unwind _ _ m hs.toUnwinding hp.safe)) hm
  | performFails hm =>
    obtain ⟨hlt, hp, -⟩ := h
    have hsize := (operands_of_lt hlt (.refl m)).size
    exact loop_of_error ((loops_orderly _).perform _ _ m hsize hp)
      (safe_of_fails ((loops_safe _).perform _ _ m hsize hp.safe)) hm
  | normalizeFails hm =>
    obtain ⟨hsize, hp, hb, -⟩ := h
    exact loop_of_error ((loops_orderly _).normalize _ _ _ m hsize hp hb)
      (safe_of_fails ((loops_safe _).normalize _ _ m hp.safe)) hm

/-- **What holds in an activity holds in every state that is visited.** -/
theorem guarded_of_visits (h0 : Activity.idle.Guarded [] m0) (h : Visits m0 spines a m) :
    a.Guarded spines m := by
  induction h with
  | start => exact h0
  | whnfReturns _ hid hm ih =>
    obtain ⟨hp, -, hf⟩ := ih
    obtain ⟨hp1, -, -, hs⟩ := (hp.pinned hid).whnf hm
    exact ⟨hp1.nil, rfl, hs.frames.trans hf⟩
  | @performReturns m _ fuel id _ _ hid hm ih =>
    obtain ⟨hp, -, hf⟩ := ih
    have hs := (quiet_perform fuel id m).ok hm
    exact ⟨((hp.pinned hid).perform hm).nil, rfl, hs.frames.trans hf⟩
  | normalizeReturns _ hid hm ih =>
    obtain ⟨hp, -, hf⟩ := ih
    obtain ⟨hp1, -, hs⟩ := (hp.pinned hid).normalize hm
    exact ⟨hp1, rfl, hs.frames.trans hf⟩
  | @runReturns m _ fuel id v _ hid hm ih =>
    obtain ⟨hp, -, hf⟩ := ih
    exact ⟨(orderly_run hp hid).ok hm v rfl, rfl, ((quiet_run fuel id m).ok hm).frames.trans hf⟩
  | fails call _ hid hm ih =>
    obtain ⟨hp, -, -⟩ := ih
    exact loop_of_error (orderly_call call hp hid) (safe_call call hp.safe hid) hm
  | whnf _ hid ih | normalize _ hid ih =>
    obtain ⟨hp, -, hf⟩ := ih
    exact .outermost (hp.pinned hid) hf
  | perform _ hid ih =>
    obtain ⟨hp, -, hf⟩ := ih
    exact ⟨hp.pinned hid, rfl, hf⟩
  | runPerform _ hid hm ih =>
    obtain ⟨hp, -, hf⟩ := ih
    obtain ⟨hp1, -, -, hs⟩ := (hp.pinned hid).whnf hm
    exact ⟨hp1, rfl, hs.frames.trans hf⟩
  | @runResult _ m1 _ fuel _ v _ _ hid hm hm2 ih =>
    obtain ⟨hp, -, hf⟩ := ih
    obtain ⟨hp1, -, -, hs⟩ := (hp.pinned hid).whnf hm
    have hs2 := (quiet_perform fuel v m1).ok hm2
    exact .outermost (hp1.perform hm2) ((hs2.frames.trans hs.frames).trans hf)
  | runNormalize _ hid hm ih =>
    obtain ⟨hp, -, hf⟩ := ih
    obtain ⟨hp1, -, -, hs⟩ := (hp.pinned hid).whnf hm
    exact .outermost (hp1.nil.pinned (by rw [hs.pinned]; exact hid)) (hs.frames.trans hf)
  | turn _ hidle hlook hl ih => exact guarded_of_leads hl hidle hlook ih
  | makeRoom _ hm ih => exact Layered.reserve ih hm
  | again _ hm ih => exact Layered.step ih hm
  | force _ hm hm2 ih =>
    have hl := looked ih.plain ih.unwinding hm
    exact Layered.suspend (Layered.step ih hm) hl.keeps.2.2.1 hm2
  | resume _ hm hne hm2 ih => exact Layered.resume (Layered.step ih hm) hne hm2
  | errorText _ hc hlt harg ih => exact Layered.interrupt ih hc hlt harg

/-!
## Spines
-/

/-- The cells of the given spines are still where they were and what they were, and their children
may skip indirections. -/
def Spared (spines : List (Nat × Nat)) (m m' : Machine) : Prop :=
  ∀ p ∈ spines, ∀ i, p.1 ≤ i → i ≤ p.2 → m'.stack.getD i 0 = m.stack.getD i 0 ∧
    (m'.heap.get (m.stack.getD i 0) = m.heap.get (m.stack.getD i 0) ∨
      m'.heap.get (m.stack.getD i 0) = m.heap.shortcuts (m.stack.getD i 0))

namespace Layered

variable {outer base fuel n : Nat} {p : Nat × Nat}

section

variable (h : Layered outer base spines m)
include h

theorem of_mem (hp : p ∈ spines) : p.1 ≤ p.2 ∧ p.2 < base ∧
    Segment m.heap.get m.stack p.1 p.2 ∧
    ∃ r, strictness (m.heap.get (m.stack.getD p.2 0)) = some r ∧ r.1 ≤ p.2 - p.1 := by
  obtain ⟨-, hs, below, rfl, hb, -⟩ := h
  rcases mem_append.1 hp with hp | hp
  · obtain ⟨h1, h2, hw⟩ := hs.suspended.of_mem_spans hp
    obtain ⟨a, ⟨arity, forced, k, f, hst, hle, -⟩, -⟩ := hw.awaits
    exact ⟨h1, h2, hw.segment, _, hst, hle⟩
  · obtain ⟨h1, h2, h3⟩ := hb.of_mem hp
    exact ⟨h1, Nat.lt_of_lt_of_le h2 hs.toUnwinding.lowest_le, h3⟩

theorem registered : Registered spines m.frames.toList := by
  obtain ⟨-, -, below, rfl, -, hreg⟩ := h
  intro b hb
  rw [← take_append_drop outer m.frames.toList] at hb
  rw [map_append, mem_append]
  rcases mem_append.1 hb with hb | hb
  · exact Or.inr (hreg b hb)
  · exact Or.inl (mem_spans (mem_reverse.2 hb) base)

theorem ne_redex {R i : Nat}
    (hR : Spares R (m.frames.toList.drop outer).reverse base m m') (hp : p ∈ spines) (hi : p.1 ≤ i)
    (hi' : i ≤ p.2) : m.stack.getD i 0 ≠ R := by
  obtain ⟨-, -, below, rfl, hb, -⟩ := h
  rcases mem_append.1 hp with hp | hp
  · obtain ⟨-, -, hne⟩ := hR.suspended.of_mem_spans hp
    exact hne i hi (by omega)
  · exact hb.ne_redex hR.redex hp hi hi'

theorem spared_step
    (hm : Machine.step ⟨Machine.perform fuel, Machine.normalize fuel⟩ base m = .ok r m') :
    Spared spines m m' := by
  have hl := looked h.plain h.unwinding hm
  have hlt := h.unwinding.base_lt
  intro p hp i hi hi'
  obtain ⟨-, hpb, -⟩ := h.of_mem hp
  refine ⟨getD_of_take hl.above.stack (by omega), ?_⟩
  rcases hl.rewrites with hheap | ⟨R, hR⟩
  · exact Or.inl (by rw [hheap])
  · exact hR.skips i (by omega) (h.ne_redex hR hp hi hi')

theorem spared_reserve (hm : Machine.reserve n m = .ok () m') :
    Spared spines m m' := by
  have hlt := h.unwinding.base_lt
  intro p hp i hi hi'
  obtain ⟨-, hpb, -⟩ := h.of_mem hp
  exact ⟨by rw [((Quiet.reserve n m).ok hm).stack], (skips_reserve h.plain.safe n).ok hm i (by omega)⟩

end

end Layered

end Visits

section Reached

variable {config : Config} {world : World} {m m0 : Machine} {a : Activity}
  {spines : List (Nat × Nat)}

theorem load_registers (x : LoadM Loaded) (m : Machine) :
    (m.load x).2.stack = m.stack ∧ (m.load x).2.frames = m.frames := by
  unfold load
  cases x m.heap with
  | ok l heap => rw [pin_machine]; exact ⟨rfl, rfl⟩
  | error e heap => exact ⟨rfl, rfl⟩

theorem quiet_call (call : EntryPoint) (fuel id : Nat) : Quiet (call.call fuel id) :=
  leaves_call allows_steady (quiet_whnf fuel) (quiet_perform fuel) (quiet_normalize fuel) call id

theorem registers_of_idle (h : Reached config world a m) (ha : a = .idle) :
    m.stack = #[] ∧ m.frames = #[] := by
  induction h with
  | start => exact ⟨rfl, rfl⟩
  | @next a a' m m' _ hl ih =>
    subst ha
    cases hl with
    | loadProgram p =>
      obtain ⟨hs, hf⟩ := load_registers p.load m
      exact ⟨hs.trans (ih rfl).1, hf.trans (ih rfl).2⟩
    | loadImage image =>
      obtain ⟨hs, hf⟩ := load_registers (image.load Primitive.ofName?) m
      exact ⟨hs.trans (ih rfl).1, hf.trans (ih rfl).2⟩
    | callReturns call _ hm =>
      have hq := (quiet_call call _ _ m).ok hm
      exact ⟨hq.stack.trans (ih rfl).1, hq.frames.trans (ih rfl).2⟩
    | callStops call _ hm =>
      have hq := (quiet_call call _ _ m).error hm
      exact ⟨hq.stack.trans (ih rfl).1, hq.frames.trans (ih rfl).2⟩

theorem guarded_of_performFree (h : Reached config world .idle m) (hp : m.PerformFree) :
    Activity.idle.Guarded [] m := by
  obtain ⟨hstack, hframes⟩ := registers_of_idle h rfl
  have hs : m.Safe [] := fits_of_reached h
  obtain ⟨G, hG, -⟩ := id hs
  exact ⟨twins_of_sameCells hs ⟨rfl, rfl⟩ (hG.free.mono fun _ h => h.elim) hp hstack hstack rfl rfl rfl
    ⟨rfl, rfl, rfl⟩, rfl, hframes⟩

/-- **Spines stay intact.** Let the graph of a machine that waits for a call have no primitive that
performs an action inside an evaluation. Whenever one of its evaluations looks at a spine, then all
entries of that spine and of those below it are applications, the suspended ones are among the
latter, and each of them has the arguments that its head takes. Neither a rule nor the collector
changes a cell on a spine below, except that the collector lets its children skip indirections. So the
only error about the graph that such an evaluation can end with is a loop. -/
theorem spines_intact (h₀ : Reached config world .idle m₀) (hp : m₀.PerformFree)
    (h : Visits m₀ spines a m) :
    (∀ outer fuel base, a = .look outer fuel base →
      (∀ b ∈ m.frames.toList, b ∈ spines.map Prod.fst) ∧
      (∀ p ∈ (base, m.stack.size - 1) :: spines, ∀ i, p.1 ≤ i → i < p.2 →
        ∃ f x, m.heap.get (m.stack.getD i 0) = .app f x) ∧
      (∀ p ∈ spines, p.2 < base ∧ ∃ n, (m.heap.get (m.stack.getD p.2 0)).arity? = some n ∧
        n ≤ p.2 - p.1) ∧
      ∀ r m', step ⟨perform fuel, normalize fuel⟩ base m = .ok r m' → Spared spines m m') ∧
    (∀ outer fuel base, a = .unwind outer fuel base ∨ a = .look outer fuel base →
      ∀ n m', reserve n m = .ok () m' → Spared spines m m') ∧
    ∀ g, a = .failed (.error (.malformed g)) → g = .loop := by
  have hg := guarded_of_visits (guarded_of_performFree h₀ hp) h
  refine ⟨?_, ?_, ?_⟩
  · rintro outer fuel base rfl
    have hl : Layered outer base spines m := hg
    refine ⟨hl.registered, fun p hp i hi hi' => ?_, fun p hp => ?_, fun r m' hm => hl.spared_step hm⟩
    · have hseg : Segment m.heap.get m.stack p.1 p.2 := by
        rcases List.mem_cons.1 hp with rfl | hp
        · exact hl.unwinding.current
        · exact (hl.of_mem hp).2.2.1
      obtain ⟨f, x, hc, -⟩ := hseg i hi hi'
      exact ⟨f, x, hc⟩
    · obtain ⟨-, hpb, -, r, hr, hle⟩ := hl.of_mem hp
      exact ⟨hpb, r.1, arity?_of_strictness hr, hle⟩
  · rintro outer fuel base (rfl | rfl) n m' hm
    · exact Layered.spared_reserve hg hm
    · exact Layered.spared_reserve hg hm
  · rintro g rfl
    exact hg g rfl

end Reached

/-- An image whose entry point is the negation of `I 5`. -/
def negationImage : Image where
  records := [.prim 0, .comb .I, .lit (.int 5), .app 1 2, .app 0 3]
  defs := [⟨"main", 0, 4⟩]
  prims := ["neg"]
  entry := some 0

/-- A machine into which it was loaded, with the given entries on the stack. -/
def negating (depth : Nat) (frames stack : Array Nat) : Machine :=
  { ((new {} default).loadImage negationImage).2 with depth, frames, stack }

theorem cells_negating : (negating 0 #[] #[]).heap.cells = #[.ind 5, .prim .neg, .comb .I,
    .scalar (.int 5), .app 2 3, .app 1 4] := by cbv

theorem lacks_negating (x : Nat) : (negating 0 #[] #[]).heap.get x ≠ .prim .perform := by
  intro hc
  unfold Heap.get at hc
  rw [cells_negating, Array.getD_eq_getD_getElem?, Option.getD_eq_iff] at hc
  rcases hc with hc | ⟨-, hc⟩
  · have hmem := Array.mem_of_getElem? hc
    simp at hmem
  · cases hc

theorem performFree_negating : (negating 0 #[] #[]).PerformFree := fun x _ => lacks_negating x

theorem reached_negating : Reached {} default .idle (negating 0 #[] #[]) :=
  .next .start (.loadImage negationImage)

theorem safePoint_negating (depth : Nat) (frames stack : Array Nat) :
    safePoint (negating depth frames stack) = .ok () (negating depth frames stack) := rfl

theorem visits_negation :
    Visits (negating 0 #[] #[]) [] (.look 0 1 0) (negating 1 #[] #[5, 1]) := by
  have h0 : Visits (negating 0 #[] #[]) [] (.whnf 4 0) (negating 0 #[] #[]) :=
    .whnf .start (.head _)
  have hstart : (do enter; push 0 : Run Unit) (negating 0 #[] #[]) = .ok () (negating 1 #[] #[0]) := rfl
  have h1 : Visits (negating 0 #[] #[]) [] (.unwind 0 4 0) (negating 1 #[] #[0]) :=
    .turn h0 (by simp) (by simp) (.startWhnf hstart)
  have h2 : Visits (negating 0 #[] #[]) [] (.unwind 0 3 0) (negating 1 #[] #[5]) :=
    .again (.turn h1 (by simp) (by simp) (.safePoint (safePoint_negating _ _ _))) rfl
  have h3 : Visits (negating 0 #[] #[]) [] (.unwind 0 2 0) (negating 1 #[] #[5, 1]) :=
    .again (.turn h2 (by simp) (by simp) (.safePoint (safePoint_negating _ _ _))) rfl
  exact .turn h3 (by simp) (by simp) (.safePoint (safePoint_negating _ _ _))

theorem visits_negating :
    Visits (negating 0 #[] #[]) [(0, 1)] (.look 0 0 2) (negating 2 #[0] #[5, 1, 4]) := by
  have hwaits : step ⟨perform 1, normalize 1⟩ 0 (negating 1 #[] #[5, 1]) =
      .ok (.force 4) (negating 1 #[] #[5, 1]) := rfl
  have h4 : Visits (negating 0 #[] #[]) [(0, 1)] (.unwind 0 1 2) (negating 2 #[0] #[5, 1, 4]) :=
    .force visits_negation hwaits rfl
  exact .turn h4 (by simp) (by simp) (.safePoint (safePoint_negating _ _ _))

/-- While its argument is evaluated, the negation stays an application, whatever is done next. -/
theorem spines_intact_negating :
    (∃ f x, (negating 2 #[0] #[5, 1, 4]).heap.get 5 = .app f x) ∧
      ∀ r m', step ⟨perform 0, normalize 0⟩ 2 (negating 2 #[0] #[5, 1, 4]) = .ok r m' →
        Spared [(0, 1)] (negating 2 #[0] #[5, 1, 4]) m' := by
  have h := (spines_intact reached_negating performFree_negating visits_negating).1 0 0 2 rfl
  exact ⟨h.2.1 (0, 1) (by simp) 0 (by simp) (by simp), h.2.2.2⟩

end Machine

end GraphReduction
