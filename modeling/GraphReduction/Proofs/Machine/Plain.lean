import GraphReduction.Proofs.Machine.Agreement
import GraphReduction.Proofs.Machine.Faults
import GraphReduction.Proofs.Machine.Interrupted

/-!
# Evaluations that perform no action on the side

A machine whose graph has no primitive that performs an action inside an evaluation is its own
twin (`Plain`), and stays so. The only evaluation that starts in the middle of an unwinding is then
the one for the text of an error, after which that unwinding does not go on.
-/

namespace GraphReduction

open List

namespace Machine

variable {α : Type} {r : Nat} {pending : List OpenValue} {tag : UInt32} {fields : List Nat}

/-- No primitive that performs an action can be reached from the roots of `m` or from `held`. -/
def Plain (m : Machine) (held : List Nat) : Prop := Twins m m (held.map fun x => (x, x))

theorem Both.self {x : Run α} {m m1 : Machine} {a : α} {Q : α → α → Machine → Machine → Prop}
    (h : Both x x m m Q) (hx : x m = .ok a m1) :
    Q a a m1 m1 := (both_of_ok hx hx).1 h

section Plain

variable {m m1 : Machine} {held : List Nat} {x v fuel outer base i top n : Nat}

namespace Plain

variable {a : Nat}

theorem nil (h : Plain m held) : Plain m [] := Twins.nil h

theorem safe (h : Plain m held) : m.Safe held := by
  have hs : m.Safe ((held.map fun x => (x, x)).map Prod.fst) := Twins.safe h
  rwa [map_map, show Prod.fst ∘ (fun x : Nat => (x, x)) = id from rfl, map_id] at hs

theorem entry (h : Plain m held) (hi : i < m.stack.size) : Plain m (m.stack.getD i 0 :: held) :=
  Twins.entry h hi

theorem ne_perform (h : Plain m held) (hi : i < m.stack.size) :
    m.heap.get (m.stack.getD i 0) ≠ .prim .perform := (Twins.entry h hi).ne_perform (.head _)

theorem app (h : Plain m [x]) {f a : Nat} (hc : m.heap.get x = .app f a) : Plain m [a] :=
  (Twins.app h (.head _) hc hc).mono fun p hp => by
    rw [mem_singleton.1 hp]; exact .tail _ (.head _)

theorem pinned (h : Plain m held) (hx : x ∈ m.pinned) : Plain m (x :: held) := by
  obtain ⟨k, hk⟩ := mem_iff_getElem?.1 hx
  exact Twins.pin h hk hk

theorem shrink (h : Plain m held) (k : Nat) : Plain { m with stack := m.stack.shrink k } held :=
  Twins.shrink h k

theorem setEntry (h : Plain m held) (hx : x ∈ held) (k : Nat) :
    Plain { m with stack := m.stack.setIfInBounds k x } held :=
  Twins.setEntry h (mem_map_of_mem hx) k

theorem push (h : Plain m held) (hx : x ∈ held) : Plain { m with stack := m.stack.push x } held :=
  Twins.push h (mem_map_of_mem hx)

theorem reserve (h : Plain m held) (hm : Machine.reserve n m = .ok () m1) : Plain m1 [] :=
  Both.self (twins_reserve h n) hm

theorem start (h : Plain m [x]) :
    Plain { m with depth := m.depth + 1, stack := m.stack.push x } [] :=
  ((h.push (.head _)).setDepth (m.depth + 1)).nil

theorem whnf (h : Plain m [x]) (hm : Machine.whnf fuel x m = .ok v m1) :
    Plain m1 [v] ∧ Rests m1.heap.get v ∧ Settled m.stack.size m m1 ∧ Steady m m1 :=
  Both.self ((loops_agree fuel fuel).whnfs m m x x h) hm

theorem perform (h : Plain m [x]) (hm : Machine.perform fuel x m = .ok v m1) : Plain m1 [v] :=
  Both.self ((loops_agree fuel fuel).performs h) hm

theorem normalize {w : Value} (h : Plain m [x]) (hm : Machine.normalize fuel x m = .ok w m1) :
    Plain m1 [] ∧ Settled m.stack.size m m1 ∧ Steady m m1 :=
  (Both.self ((loops_agree fuel fuel).normalizes m m x x h) hm).2

theorem onWorld {o : Operation} {a : o.Answer} (h : Plain m held)
    (hm : Machine.onWorld o m = .ok a m1) : Plain m1 held :=
  (Both.self (twins_onWorld h o) hm).2.1

/-- A step brings no primitive that performs an action within reach. -/
theorem step {r : Progress} (h : Plain m []) (hs : Spines outer base m)
    (hm : Machine.step ⟨Machine.perform fuel, Machine.normalize fuel⟩ base m = .ok r m1) :
    Plain m1 [] := by
  have hlt := hs.base_lt
  have ht : m.stack.size - 1 < m.stack.size := by omega
  rcases isInd_or (m.heap.get m.onTop) with hi | ⟨t, hc⟩
  · rcases lockstep_step (loops_agree fuel fuel).evaluators h hs hs hi hi with hd | hd | hb
    · obtain ⟨a, ha, -⟩ := hd
      rw [ha] at hm
      cases hm
      exact h
    · obtain ⟨a, ha, -⟩ := hd
      rw [ha] at hm
      cases hm
      exact h
    · have hr := Both.self hb hm
      cases r with
      | again | done => exact hr
      | force a => exact Twins.nil hr
  · -- both twins follow the indirection
    have htop : Twins m m [(m.onTop, m.onTop)] :=
      h.entry ht
    have ht1 := (htop.ind_left (.head _) hc).symm
    have ht2 : Twins m m [(t, t)] := (ht1.ind_left (.head _) hc).mono fun p hp => by
      rw [mem_singleton.1 hp]; exact .head _
    rw [step_of_ind hc ((h.safe.entry ht).ind mem_cons_self hc).2] at hm
    cases hm
    exact (ht2.setEntry (.head _) _).nil

theorem awaited (h : Plain m []) (hs : Spines outer base m)
    (ha : Awaits m.heap.get m.stack base (m.stack.size - 1) a) : Plain m [a] := by
  obtain ⟨arity, forced, k, f, -, -, -, hc⟩ := ha
  have hlt := hs.base_lt
  exact (h.entry (i := m.stack.size - 1 - (k + 1)) (by omega)).app hc

theorem suspend {base' : Nat} (h : Plain m [a]) (hm : Machine.suspend base a m = .ok base' m1) :
    Plain m1 [] := (Both.self (both_suspend h) hm).2.1

theorem resume {base' : Nat} (h : Plain m []) (hm : Machine.resume base m = .ok base' m1) :
    Plain m1 [] := (Both.self (both_resume h) hm).2.1

theorem actionArg (h : Plain m []) (ht : top < m.stack.size)
    (hr : Rests m.heap.get (m.stack.getD top 0)) (hm : Machine.actionArg top i m = .ok a m1) :
    m1 = m ∧ Plain m [a] := by
  obtain ⟨h1, -, h2⟩ := Both.self (both_actionArg h ht hr) hm
  exact ⟨h1, h2⟩

theorem execute {p : Primitive} (h : Plain m []) (ht : top < m.stack.size)
    (hr : Rests m.heap.get (m.stack.getD top 0))
    (hm : Machine.execute (Machine.whnf fuel) (Machine.normalize fuel) p top m = .ok r m1) :
    Plain m1 [r] :=
  Both.self (both_execute (loops_agree fuel fuel).whnfs (loops_agree fuel fuel).normalizes h ht hr p) hm

theorem handOver {b : Bool} (h : Plain m [r]) (ht : top < m.stack.size) (hpos : 0 < top)
    (hm : Machine.handOver top b r m = .ok () m1) : Plain m1 [] :=
  Both.self (both_handOver h ht hpos) hm

theorem actionForm (h : Plain m [x]) (hr : Rests m.heap.get x) :
    Plain m (Machine.actionForm m.heap x).cells := by
  have hf := twins_actionForm h (.head _) hr.hasSpine
  cases hform : Machine.actionForm m.heap x with
  | result | bind | sequence => rw [hform] at hf; exact hf
  | primitive | other => exact h.nil

theorem valueForm (h : Plain m [x]) (hr : Rests m.heap.get x)
    (hv : Machine.valueForm m.heap x = .inr (tag, fields)) : Plain m fields := by
  have hf := twins_valueForm h (.head _) hr.hasSpine
  rw [hv] at hf
  have hzip : fields.zip fields = fields.map fun x => (x, x) := by
    rw [zip, zipWith_self]
  unfold Plain
  rw [← hzip]
  exact hf.2.2

theorem pushAll (ids : List Nat) (h : Plain m held) (hsub : ∀ x ∈ ids, x ∈ held)
    (hm : Machine.pushAll ids m = .ok () m1) : Plain m1 [] := by
  refine (Both.self (both_pushAll ids ids rfl h fun q hq => ?_) hm).1.nil
  rw [zip, zipWith_self] at hq
  obtain ⟨y, hy, rfl⟩ := mem_map.1 hq
  exact mem_map_of_mem (hsub y hy)

end Plain

end Plain

/-!
## Normalisation
-/

/-- How many fields are on the stack besides the one that is evaluated next, while `pending` are
open. -/
def owed : List OpenValue → Nat
  | [] => 0
  | o :: rest => o.missing - 1 + owed rest

theorem owed_of_closeValue {v : Value} {pending' : List OpenValue}
    (h : closeValue v pending = .inr pending') : owed pending = owed pending' + 1 := by
  induction pending generalizing v with
  | nil => cases h
  | cons o rest ih =>
    simp only [closeValue] at h
    split at h
    · have := ih h
      simp only [owed] at this ⊢
      omega
    · cases h
      simp only [owed]
      omega

theorem length_pos_of_valueForm {h : Heap} {x : Nat} (hv : valueForm h x = .inr (tag, fields)) :
    0 < fields.length := by
  unfold valueForm at hv
  split at hv
  rename_i head args heq
  split at hv
  · split at hv
    · cases hv
    split at hv
    · cases hv
    · rename_i hne
      cases hv
      rw [length_pos_iff]
      intro hnil
      rw [hnil] at hne
      exact hne rfl
  · split at hv <;> cases hv
  · cases hv

theorem pushAll_spec {m : Machine} (ids : List Nat) : Meets (pushAll ids) m (fun _ m' =>
    m'.heap = m.heap ∧ m'.stack.size = m.stack.size + ids.length ∧
      ∀ i, i < m.stack.size → m'.stack.getD i 0 = m.stack.getD i 0) fun _ _ => True := by
  induction ids with
  | nil => exact ⟨rfl, rfl, fun _ _ => rfl⟩
  | cons id ids ih =>
    simp only [pushAll, meets_bind]
    refine ih.mono (fun _ m1 h1 => ?_) fun _ _ _ => trivial
    obtain ⟨hheap, hsize, hentry⟩ := h1
    rw [meets_push]
    split
    · trivial
    · refine ⟨hheap, ?_, fun i hi => ?_⟩
      · simp only [Array.size_push, length_cons]; omega
      · show (m1.stack.push id).getD i 0 = _
        rw [getD_push_lt (by omega), hentry i hi]

/-!
## The loops
-/

/-- The loops find no fault of a spine, and leave the spines below them alone. -/
structure LoopsOrderly (fuel : Nat) : Prop where
  unwind : ∀ outer base e below m, Plain m [] → Spines outer base m → e ≤ lowest outer base m →
    Beneath m.heap.get m.stack e below →
    Meets (unwind outer fuel base) m (fun _ m' => Beneath m'.heap.get m'.stack e below)
      fun h _ => h.Orderly
  perform : ∀ low binds m, m.stack.size = low + binds.length + 1 → Plain m [] →
    Meets (performFrom fuel binds) m (fun _ _ => True) fun h _ => h.Orderly
  normalize : ∀ base pending below m, m.stack.size = base + 1 + owed pending → Plain m [] →
    Beneath m.heap.get m.stack base below →
    Meets (normalizeFrom base fuel pending) m (fun _ m' => Beneath m'.heap.get m'.stack base below)
      fun h _ => h.Orderly

section Loops

variable {m : Machine} {fuel outer base e x top : Nat} {below : List (Nat × Nat)}

theorem beneath_nested {body : Nat → Run α} (hp : Plain m [x])
    (hb : Beneath m.heap.get m.stack m.stack.size below)
    (hbody : ∀ m', Plain m' [] → m'.stack.size = m.stack.size + 1 →
      Beneath m'.heap.get m'.stack m.stack.size below →
      Meets (body m.stack.size) m' (fun _ m'' => Beneath m''.heap.get m''.stack m.stack.size below)
        fun h _ => h.Orderly) :
    Meets (nested x body) m (fun _ m' => Beneath m'.heap.get m'.stack m.stack.size below)
      fun h _ => h.Orderly := by
  rw [meets_nested]
  simp only [meets_bind, meets_enter, meets_push]
  split
  · trivial
  split
  · trivial
  refine (hbody _ hp.start (by simp) ?_).imp fun _ m' h' => ?_
  · exact Beneath.congr (s := m.stack) hb fun i hi => getD_push_lt hi
  · exact Beneath.congr (s := m'.stack) h' fun i hi => getD_shrink hi

namespace LoopsOrderly

theorem whnf (h : LoopsOrderly fuel) (hp : Plain m [x])
    (hb : Beneath m.heap.get m.stack m.stack.size below) :
    Meets (Machine.whnf fuel x) m (fun _ m' => Beneath m'.heap.get m'.stack m.stack.size below)
      fun h _ => h.Orderly := by
  refine beneath_nested hp hb fun m' hp' hsize hb' => ?_
  obtain ⟨-, hlow⟩ := Unwinding.start (m := m') (by omega)
  have hs := Spines.start (m := m') (by omega)
  rw [hsize, Nat.add_sub_cancel] at hlow hs
  rw [meets_bind, meets_get]
  exact h.unwind _ _ _ _ m' hp' hs (Nat.le_of_eq hlow.symm) hb'

theorem normalizes (h : LoopsOrderly fuel) (hp : Plain m [x])
    (hb : Beneath m.heap.get m.stack m.stack.size below) :
    Meets (Machine.normalize fuel x) m (fun _ m' => Beneath m'.heap.get m'.stack m.stack.size below)
      fun h _ => h.Orderly :=
  beneath_nested hp hb fun m' hp' hsize hb' => h.normalize _ [] _ m' (by simpa [owed] using hsize) hp' hb'

theorem performs (h : LoopsOrderly fuel) (hp : Plain m [x]) :
    Meets (Machine.perform fuel x) m (fun _ _ => True) fun h _ => h.Orderly := by
  unfold Machine.perform
  rw [meets_nested]
  simp only [meets_bind, meets_enter, meets_push]
  split
  · trivial
  split
  · trivial
  exact h.perform m.stack.size [] _ (by simp) hp.start

end LoopsOrderly

theorem Spines.interrupt (hs : Spines outer base m)
    (hb : Beneath m.heap.get m.stack (lowest outer base m) below)
    (hc : m.heap.get m.onTop = .prim .error)
    (hlt : base < m.stack.size - 1) :
    Beneath m.heap.get m.stack m.stack.size
      ((base, m.stack.size - 1) :: (spans (m.frames.toList.drop outer).reverse base ++ below)) := by
  have hlow := hs.toUnwinding.lowest_le
  exact .cons hlt (by omega) hs.current hc hs.suspended (hb.mono (by omega))

theorem LoopsOrderly.step (h : LoopsOrderly fuel) (hp : Plain m []) (hs : Spines outer base m)
    (hb : Beneath m.heap.get m.stack (lowest outer base m) below) :
    Meets (Machine.step ⟨Machine.perform fuel, Machine.normalize fuel⟩ base) m (fun _ _ => True)
      fun h _ => h.Orderly := by
  have hlt := hs.base_lt
  refine orderly_step hs hp.safe (hp.ne_perform (by omega)) fun hc hlt a harg => ?_
  have hpa : Plain m [a] := by
    obtain ⟨f, b, happ⟩ := hs.applied (n := 1) (by omega) 1 (by omega) (by omega)
    have hread : arg (m.stack.size - 1) 1 m = .ok b m := by
      simp only [arg, entry, cell, bind, EStateM.bind, happ]; rfl
    rw [hread] at harg
    cases harg
    exact (hp.entry (by omega)).app happ
  exact (h.normalizes hpa (hs.interrupt hb hc hlt)).imp fun _ _ _ => trivial

/-- What is known after a look at a spine. -/
structure Looked (outer base : Nat) (m : Machine) (r : Progress) (m' : Machine) : Prop where
  plain : Plain m' []
  keeps : StepKeeps outer base m r m'
  above : Above base m m'
  rewrites : Rewrites outer base m m'

theorem looked {r : Progress} {m1 : Machine} (hp : Plain m []) (hs : Spines outer base m)
    (hm : step ⟨perform fuel, normalize fuel⟩ base m = .ok r m1) : Looked outer base m r m1 := by
  have hlt := hs.base_lt
  obtain ⟨hstep, ha⟩ := (steps fuel hs hp.safe (hp.ne_perform (by omega))).ok hm
  exact ⟨hp.step hs hm, hstep.keeps hs hp.safe, ha, hstep.rewrites hlt⟩

theorem suspend_heap (base a : Nat) (m : Machine) :
    Meets (suspend base a) m (fun _ m' => m'.heap = m.heap) fun _ _ => True := by
  simp only [suspend, meets_bind, meets_enter, meets_modify, meets_push, meets_top]
  split
  · trivial
  · split <;> trivial

theorem resume_heap (base : Nat) (m : Machine) :
    Meets (resume base) m (fun _ m' => m'.heap = m.heap) fun _ _ => True := rfl

namespace LoopsOrderly

/-- The unwinding loop stays orderly with one more unit of fuel. -/
theorem unwind_succ (h : LoopsOrderly fuel) (hp : Plain m []) (hs : Spines outer base m)
    (he : e ≤ lowest outer base m) (hb : Beneath m.heap.get m.stack e below) :
    Meets (Machine.unwind outer (fuel + 1) base) m
      (fun _ m' => Beneath m'.heap.get m'.stack e below) fun h _ => h.Orderly := by
  have hlow := hs.toUnwinding.lowest_le
  have hlt := hs.base_lt
  rw [Machine.unwind_succ, meets_bind]
  refine .intro (fun _ m1 hres => ?_) fun e1 m1 hres => (Orderly.reserve _ m).error hres
  -- after the safe point
  obtain ⟨hroom, -, -⟩ := madeRoom_safePoint hs hp.safe hres
  have hb1 := (hb.reserve hp.safe _ (by omega)).ok hres
  have hp1 := hp.reserve hres
  have hs1 := hroom.spines
  have hlow1 : lowest outer base m1 = lowest outer base m := lowest_congr hroom.steady.frames
  rw [meets_bind]
  refine .intro (fun r m2 hstep => ?_) fun e2 m2 hstep =>
    (h.step hp1 hs1 (hb1.mono (by omega))).error hstep
  -- after the look
  have hl := looked hp1 hs1 hstep
  obtain ⟨hs2, -, hr⟩ := hl.keeps
  obtain ⟨-, hlow2, -⟩ := hs1.toUnwinding.above hl.above
  have hb2 := hb1.rewrites hl.rewrites hl.above (by omega) hs1.base_lt
  have hlt2 := hs2.base_lt
  have hle2 := hs2.toUnwinding.lowest_le
  cases r with
  | again => exact h.unwind outer base e below m2 hl.plain hs2 (by omega) hb2
  | force a =>
    have hpa := hl.plain.awaited hs2 hr.1
    simp only [goOn]
    rw [meets_bind]
    refine .intro (fun base' m3 hsus => ?_) fun e3 m3 hsus => (Orderly.suspend _ _ m2).error hsus
    obtain ⟨-, hlow3, hk3⟩ := (hs2.toUnwinding.suspend a).ok hsus
    have hheap := (suspend_heap base a m2).ok hsus
    refine h.unwind outer base' e below m3 (hpa.suspend hsus) ((spines_suspend hs2 hpa.safe hr.1).ok hsus)
      (by omega) ?_
    rw [hheap]
    exact hb2.congr fun i hi => getD_of_take hk3.stack (by omega)
  | done =>
    simp only [goOn, meets_bind, meets_get, meets_ite]
    split
    · exact hb2
    · rename_i hne
      refine .intro (fun base' m3 hresume => ?_) fun e3 m3 hresume => by cases hresume
      obtain ⟨-, hlow3, hk3⟩ := (hs2.toUnwinding.resume hne).ok hresume
      have hheap := (resume_heap base m2).ok hresume
      refine h.unwind outer base' e below m3 (hl.plain.resume hresume) ((spines_resume hs2 hne).ok hresume)
        (by omega) ?_
      rw [hheap]
      exact hb2.congr fun i hi => getD_of_take hk3.stack (by omega)

end LoopsOrderly

/-!
### Actions
-/

/-- An evaluation of an argument of an action. -/
def EvaluatesOrderly {α : Type} (eval : Nat → Run α) : Prop :=
  ∀ id m, Plain m [id] → Meets (eval id) m
    (fun _ m' => Plain m' [] ∧ Settled m.stack.size m m' ∧ Steady m m') fun h _ => h.Orderly

theorem LoopsOrderly.evaluates_whnf (h : LoopsOrderly fuel) :
    EvaluatesOrderly (Machine.whnf fuel) := by
  intro id m hp
  refine .intro (fun v m1 hm => ?_) fun e1 m1 hm => (h.whnf hp .nil).error hm
  obtain ⟨h1, -, hset, hst⟩ := hp.whnf hm
  exact ⟨h1.nil, hset, hst⟩

theorem LoopsOrderly.evaluates_normalize (h : LoopsOrderly fuel) :
    EvaluatesOrderly (Machine.normalize fuel) := by
  intro id m hp
  exact .intro (fun v m1 hm => hp.normalize hm) fun e1 m1 hm => (h.normalizes hp .nil).error hm

theorem orderly_evaluated_bind {β γ : Type} {eval : Nat → Run α} {read : α → Run β} {g : β → Run γ}
    {i : Nat} (heval : EvaluatesOrderly eval) (hreads : ∀ v, Reads (read v))
    (hread : ∀ v, Orderly (read v)) (hp : Plain m []) (ht : top < m.stack.size)
    (hr : Rests m.heap.get (m.stack.getD top 0))
    (hg : ∀ b m', Plain m' [] → top < m'.stack.size → Rests m'.heap.get (m'.stack.getD top 0) →
      Meets (g b) m' (fun _ _ => True) fun h _ => h.Orderly) :
    Meets ((do read (← eval (← actionArg top i))) >>= g) m (fun _ _ => True)
      fun h _ => h.Orderly := by
  simp only [bind_assoc]
  rw [meets_bind]
  refine .intro (fun a m1 ha => ?_) fun e1 m1 ha => by cases ha
  obtain ⟨rfl, hpa⟩ := hp.actionArg ht hr ha
  refine (heval a m1 hpa).bind fun v m2 h2 => ?_
  obtain ⟨hp2, hset, hst⟩ := h2
  rw [meets_bind]
  refine ((hreads v m2).and (hread v m2)).mono (fun b m3 h3 => ?_) fun _ _ he => he.2
  rw [h3.1]
  exact hg b m2 hp2 (by rw [hst.stack]; exact ht) (hset top ht hr)

/-- Each action fails in orderly ways only: one case per primitive. -/
theorem orderly_execute {whnf : Nat → Run Nat} {normalize : Nat → Run Value} (p : Primitive)
    (hwhnf : EvaluatesOrderly whnf) (hnormalize : EvaluatesOrderly normalize) (hp : Plain m [])
    (ht : top < m.stack.size) (hr : Rests m.heap.get (m.stack.getD top 0)) :
    Meets (execute whnf normalize p top) m (fun _ _ => True) fun h _ => h.Orderly := by
  have hresult : ∀ {o : Operation} {c : o.Answer → Cell} (m' : Machine),
      Meets (onWorld o >>= fun a => resultCell (c a)) m' (fun _ _ => True) fun h _ => h.Orderly :=
    fun m' => ((Orderly.onWorld _).bind fun _ => .resultCell _ : Orderly _) m'
  cases p with
  | getChar | flush | close | malloc =>
    exact orderly_evaluated_bind hwhnf (Reads.intValue _) (.intValue _) hp ht hr fun n m1 _ _ _ =>
      hresult m1
  | free | peek =>
    exact orderly_evaluated_bind hwhnf (Reads.ptrValue _) (.ptrValue _) hp ht hr fun n m1 _ _ _ =>
      hresult m1
  | exit =>
    exact orderly_evaluated_bind hwhnf (Reads.intValue _) (.intValue _) hp ht hr fun n m1 _ _ _ =>
      meets_bind.2 ((Orderly.onWorld _ m1).imp fun _ _ _ => trivial)
  | putChar =>
    exact orderly_evaluated_bind hwhnf (Reads.intValue _) (.intValue _) hp ht hr fun n m1 h1 ht1 hr1 =>
      orderly_evaluated_bind hwhnf (Reads.charValue _) (.charValue _) h1 ht1 hr1 fun c m2 _ _ _ =>
      hresult m2
  | poke =>
    exact orderly_evaluated_bind hwhnf (Reads.ptrValue _) (.ptrValue _) hp ht hr fun n m1 h1 ht1 hr1 =>
      orderly_evaluated_bind hwhnf (Reads.intValue _) (.intValue _) h1 ht1 hr1 fun c m2 _ _ _ =>
      hresult m2
  | openFile =>
    refine orderly_evaluated_bind hnormalize (fun v => ?_) (fun v => ?_) hp ht hr
      fun path m1 h1 ht1 hr1 =>
      orderly_evaluated_bind hwhnf (Reads.intValue _) (.intValue _) h1 ht1 hr1 fun mode m2 _ _ _ =>
      hresult m2
    · split
      · exact fun _ => rfl
      · exact fun _ => ⟨trivial, rfl⟩
    · split
      · exact .pure _
      · exact .fail trivial
  | getArgs => exact Orderly.argumentList m
  | _ => exact trivial

namespace LoopsOrderly

variable {binds : List Bool}

theorem finish (h : LoopsOrderly fuel) {m0 : Machine} {low : Nat} (ho : Operands low binds m0 m)
    (hp : Plain m [r]) :
    Meets (finishAction fuel (m.stack.size - 1) binds r) m (fun _ _ => True)
      fun h _ => h.Orderly := by
  cases binds with
  | nil => trivial
  | cons b binds =>
    have hsize := ho.size
    simp only [length_cons] at hsize
    exact ((Orderly.handOver _ _ _ m).also ho.handOver).traced.bind fun _ m1 h1 =>
      h.perform low binds m1 h1.2.2.size (hp.handOver (by omega) (by omega) h1.1)

theorem operands {y : Nat} (hp : Plain m [x, y]) (i : Nat) :
    Meets (do setEntry i y; push x) m (fun _ m' => Plain m' []) fun h _ => h.Orderly := by
  simp only [meets_bind, meets_setEntry, meets_push]
  split
  · trivial
  · exact ((hp.setEntry (.tail _ (.head _)) _).push (.head _)).nil

/-- The performing loop stays orderly with one more unit of fuel. -/
theorem perform_succ (h : LoopsOrderly fuel) {low : Nat}
    (hsize : m.stack.size = low + binds.length + 1) (hp : Plain m []) :
    Meets (performFrom (fuel + 1) binds) m (fun _ _ => True) fun h _ => h.Orderly := by
  rw [performFrom_succ]
  refine ((Orderly.reserve _ m).also (Quiet.safePoint m)).traced.bind fun _ m1 h1 => ?_
  obtain ⟨hres, -, hst1⟩ := h1
  have hentry := (hp.reserve hres).entry (i := m1.stack.size - 1) (by rw [hst1.stack]; omega)
  simp only [meets_bind, meets_top, meets_entry]
  refine (h.whnf hentry .nil).traced.imp fun v m2 h2 => ?_
  obtain ⟨hp2, hr2, -, hst2⟩ := hentry.whnf h2.1
  rw [meets_setEntry, meets_get]
  have hp3 := hp2.setEntry (.head _) (m1.stack.size - 1)
  have hcells := hp3.actionForm (x := v) hr2
  obtain ⟨ho, hlast⟩ := (operands_of_steady hsize (hst1.trans hst2)).setLast hst2.stack v
  set m3 : Machine := { m2 with stack := m2.stack.setIfInBounds (m1.stack.size - 1) v }
  have hrest : Rests m3.heap.get (m3.stack.getD (m1.stack.size - 1) 0) := by
    rw [show m3.stack = m2.stack.setIfInBounds _ v from rfl,
      getD_set_eq (by rw [hst2.stack, hst1.stack]; omega)]
    exact hr2
  rw [hlast] at hrest ⊢
  cases hform : actionForm m3.heap v <;> rw [hform] at hcells
  case result => exact h.finish ho hcells
  case bind =>
    exact ((operands hcells _).also (ho.operands true _ _)).bind fun _ m4 h4 =>
      h.perform low _ m4 h4.2.size h4.1
  case sequence =>
    exact ((operands hcells _).also (ho.operands false _ _)).bind fun _ m4 h4 =>
      h.perform low _ m4 h4.2.size h4.1
  case primitive p =>
    have hlt : m3.stack.size - 1 < m3.stack.size := by rw [ho.size]; omega
    refine ((orderly_execute p h.evaluates_whnf h.evaluates_normalize hp3.nil hlt hrest).also
      (quiet_execute (quiet_whnf fuel) (quiet_normalize fuel) p _ m3)).traced.bind fun r m4 h4 => ?_
    obtain ⟨hx, -, hst4⟩ := h4
    rw [← hst4.stack]
    exact h.finish (ho.steady hst4) (Plain.execute hp3.nil hlt hrest hx)
  case other => trivial

theorem field (h : LoopsOrderly fuel) (hlt : base < m.stack.size) (hp : Plain m [])
    (hb : Beneath m.heap.get m.stack base below) :
    Meets (Machine.whnf fuel m.onTop) m (fun _ m' =>
      Beneath m'.heap.get (m'.stack.shrink (m.stack.size - 1)) base below) fun h _ => h.Orderly := by
  have hentry := hp.entry (i := m.stack.size - 1) (by omega)
  refine (h.whnf hentry (hb.mono (Nat.le_of_lt hlt))).imp fun _ m' h' => ?_
  exact (h'.restrict fun p hp => (hb.of_mem hp).2.1).congr fun i hi => getD_shrink (by omega)

/-- The normalizing loop stays orderly with one more unit of fuel. -/
theorem normalize_succ (h : LoopsOrderly fuel) (hsize : m.stack.size = base + 1 + owed pending)
    (hp : Plain m []) (hb : Beneath m.heap.get m.stack base below) :
    Meets (normalizeFrom base (fuel + 1) pending) m
      (fun _ m' => Beneath m'.heap.get m'.stack base below) fun h _ => h.Orderly := by
  have hentry := hp.entry (i := m.stack.size - 1) (by omega)
  rw [normalizeFrom_succ]
  simp only [meets_bind, meets_get, meets_ite, if_neg (show ¬ m.stack.size ≤ base by omega),
    meets_top, meets_entry, meets_truncate]
  refine .intro (fun v m1 hw => ?_) fun e1 m1 hw => (h.field (by omega) hp hb).error hw
  obtain ⟨hp1, hr1, -, hst1⟩ := hentry.whnf hw
  have hb1 := (h.field (by omega) hp hb).ok hw
  have hp2 := hp1.shrink (m.stack.size - 1)
  have hsize2 : (m1.stack.shrink (m.stack.size - 1)).size = base + owed pending := by
    rw [Array.size_shrink, hst1.stack]; omega
  cases hv : valueForm m1.heap v with
  | inl value =>
    simp only [addValue]
    cases hclose : closeValue value pending with
    | inl w => exact hb1
    | inr pending' =>
      have howed := owed_of_closeValue hclose
      exact h.normalize base pending' below _ (by rw [hsize2, howed]; omega) hp2.nil hb1
  | inr r =>
    obtain ⟨tag, fields⟩ := r
    have hpos := length_pos_of_valueForm hv
    have hfields := (hp1.valueForm hr1 hv).shrink (m.stack.size - 1)
    simp only [addValue]
    rw [meets_bind]
    refine .intro (fun _ m2 hpush => ?_) fun e2 m2 hpush => (Orderly.pushAll _ _).error hpush
    obtain ⟨hheap, hsize3, hentries⟩ := (pushAll_spec fields).ok hpush
    replace hsize3 : m2.stack.size = (m1.stack.shrink (m.stack.size - 1)).size + fields.length := hsize3
    refine h.normalize base _ below m2 ?_ (hfields.pushAll fields (fun _ hx => hx) hpush) ?_
    · rw [hsize3, hsize2]
      simp only [owed]
      omega
    · rw [hheap]
      exact hb1.congr fun i hi => hentries i (by simp only; omega)

end LoopsOrderly

theorem loops_orderly (fuel : Nat) : LoopsOrderly fuel := by
  induction fuel with
  | zero => exact ⟨fun _ _ _ _ _ _ _ _ _ => trivial, fun _ _ _ _ _ => trivial, fun _ _ _ _ _ _ _ => trivial⟩
  | succ fuel h =>
    exact ⟨fun _ _ _ _ _ hp hs he hb => h.unwind_succ hp hs he hb,
      fun _ _ _ hsize hp => h.perform_succ hsize hp,
      fun _ _ _ _ hsize hp hb => h.normalize_succ hsize hp hb⟩

end Loops

end Machine

end GraphReduction
