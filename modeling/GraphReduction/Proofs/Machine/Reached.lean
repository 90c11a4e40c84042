import GraphReduction.Proofs.Load.Sound
import GraphReduction.Proofs.Machine.Loops

/-!
# The states that a machine goes through

Whatever a new machine is called to do, it is sound in every state that it comes to, and what each of
its activities relies on holds there (`Activity.Fits`).
-/

namespace GraphReduction

open List

namespace Machine

/-- The states that a new machine can come to. -/
inductive Reached (config : Config) (world : World) : Activity → Machine → Prop
  | start : Reached config world .idle (new config world)
  | next {a a' : Activity} {m m' : Machine} : Reached config world a m → Leads a m a' m' →
    Reached config world a' m'

/-!
## What holds in each activity
-/

/-- What holds of a machine that is doing something. -/
def Activity.Fits (m : Machine) : Activity → Prop
  | .idle | .returned | .normalizeFrom _ _ _ => m.Safe []
  | .whnf _ id | .perform _ id | .normalize _ id => m.Safe [id]
  | .unwind outer _ base | .look outer _ base => Unwinding outer base m ∧ m.Safe []
  | .performFrom _ binds | .act _ binds => binds.length < m.stack.size ∧ m.Safe []
  | .failed e => SafeHalt e m
  | .failedLoad e => e.Harmless ∧ m.Safe []

section Calls

variable {m m' : Machine} {fuel id : Nat}

theorem Safe.intact (h : m.Safe []) :
    ∃ G, Intact G m.heap ∧ ∀ x ∈ m.roots, G x := by
  obtain ⟨G, hG, -⟩ := h
  exact ⟨G, ⟨hG.closed, hG.free⟩, hG.roots⟩

theorem safe_of_intact {G : Nat → Prop} (hi : Intact G m.heap) (hr : ∀ x ∈ m.roots, G x) :
    m.Safe [] := ⟨G, ⟨hi.closed, hi.free, hr⟩, by simp⟩

theorem pin_machine (l : Loaded) (m : Machine) : (pin l m).2 = { m with
    pinned := m.pinned ++ l.defs.map Prod.snd
    globals := m.globals ++ l.defs } := by
  unfold pin; cases l.entry <;> rfl

theorem harmless_of_pin {l : Loaded} {e : LoadError} (h : (pin l m).1 = .error e) : e.Harmless := by
  unfold pin at h
  cases hl : l.entry <;> rw [hl] at h <;> cases h
  trivial

/-- A load leaves a safe machine, whether or not it succeeds. -/
theorem safe_load {x : LoadM Loaded} (h : m.Safe [])
    (hx : ∀ G, Intact G m.heap → Meets x m.heap (fun l h' => LoadedInto G l h') (FailedLoad G)) :
    (m.load x).2.Safe [] ∧ ∀ e, (m.load x).1 = .error e → e.Harmless := by
  obtain ⟨G, hi, hr⟩ := h.intact
  have hl := hx G hi
  unfold load
  cases hres : x m.heap with
  | ok l heap =>
    obtain ⟨U, hU, hdefs, -⟩ := hl.ok hres
    refine ⟨?_, fun e he => harmless_of_pin he⟩
    rw [pin_machine]
    refine safe_of_intact hU fun y hy => ?_
    simp only [roots, mem_append, mem_map] at hy
    rcases hy with hy | hy | ⟨d, hd, rfl⟩
    · exact Or.inl (hr y (by simp [roots, hy]))
    · exact Or.inl (hr y (by simp [roots, hy]))
    · exact Or.inr (hdefs d hd)
  | error e heap =>
    obtain ⟨he, hG⟩ := hl.error hres
    exact ⟨safe_of_intact hG hr, fun _ heq => by cases heq; exact he⟩

theorem Safe.pinned (h : m.Safe []) (hid : id ∈ m.pinned) : m.Safe [id] := by
  obtain ⟨G, hG, -⟩ := h
  refine ⟨G, hG, fun x hx => ?_⟩
  rw [mem_singleton.1 hx]
  exact hG.roots id (mem_append_right _ hid)

/-- How a call may fail: as one of its evaluations does. -/
def CallFails (call : EntryPoint) (fuel id : Nat) (m : Machine) (e : Halt) (m' : Machine) : Prop :=
  SafeHalt e m' ∧ ∃ a m1, call.Starts fuel id m a m1 ∧ Blame a m1 e m'

theorem fails_evaluate (h : m.Safe []) (hid : id ∈ m.pinned) :
    Meets (evaluate fuel id) m (fun _ m' => m'.Safe []) (CallFails .run fuel id m) := by
  simp only [evaluate, meets_bind, meets_get]
  refine ((loops_safe fuel).whnf (h.pinned hid)).traced.mono (fun v m1 h1 => ?_) fun _ _ he =>
    ⟨he.halt, _, m, .runWhnf, he.blame⟩
  obtain ⟨hwhnf, ⟨hm1, -⟩, hs1⟩ := h1
  split
  · rename_i hio
    rw [meets_bind]
    refine ((loops_safe fuel).performs hm1).traced.mono (fun r m2 h2 => ?_) fun _ _ he =>
      ⟨he.halt, _, m1, .runPerform hwhnf hio, he.blame⟩
    exact ((loops_safe fuel).normalizes h2.2.1).mono (fun _ _ h3 => h3.1) fun _ _ he =>
      ⟨he.halt, _, m2, .runResult hwhnf hio h2.1, he.blame⟩
  · rename_i hio
    -- the entry point is still a definition
    have hp : id ∈ m1.pinned := by rw [hs1.pinned]; exact hid
    exact ((loops_safe fuel).normalizes (hm1.nil.pinned hp)).mono (fun _ _ h2 => h2.1) fun _ _ he =>
      ⟨he.halt, _, m1, .runNormalize hwhnf (by simpa using hio), he.blame⟩

theorem fails_run (h : m.Safe []) (hid : id ∈ m.pinned) :
    Meets (run fuel id) m (fun _ m' => m'.Safe []) (CallFails .run fuel id m) := by
  have hflush : ∀ m1, m1.Safe [] → Meets (onWorld .flushAll) m1
      (fun _ m2 => m2.Safe [] ∧ m2.heap = m1.heap)
      fun e m2 => SafeHalt e m2 ∧ e.NotMemory ∧ m2.heap = m1.heap := fun m1 h1 =>
    ((safe_onWorld h1 .flushAll).and (notMemory_onWorld .flushAll m1)).mono
      (fun _ _ h2 => ⟨h2.1.1, h2.2⟩) fun _ _ he => he
  refine meets_run ((fails_evaluate h hid).mono (fun v m1 h1 => ?_) fun e m1 he => ?_)
  · exact (hflush m1 h1).mono (fun _ _ h2 => h2.1) fun _ _ he =>
      ⟨he.1, _, m, .runWhnf, .of_notMemory he.2.1⟩
  · obtain ⟨hhalt, a, m0, hstarts, hblame⟩ := he
    obtain ⟨hsafe, hheap⟩ : (flushed m1).Safe [] ∧ (flushed m1).heap = m1.heap := flushed_of_meets
      ((hflush m1 hhalt.2).mono (fun _ _ h2 => h2) fun _ _ h2 => ⟨h2.1.2, h2.2.2⟩)
    exact ⟨fun _ _ => hsafe, ⟨hhalt.1, hsafe⟩, a, m0, hstarts, hblame.congr hheap⟩

/-- **A call leaves a sound machine**, and fails as one of its evaluations does. -/
theorem fails_call (call : EntryPoint) (h : m.Safe []) (hid : id ∈ m.pinned) :
    Meets (call.call fuel id) m (fun _ m' => m'.Safe []) (CallFails call fuel id m) := by
  have hdef := h.pinned hid
  cases call with
  | whnf =>
    exact meets_bind.2 (((loops_safe fuel).whnf hdef).mono (fun _ _ h1 => h1.1.1.nil) fun _ _ he =>
      ⟨he.halt, _, m, .whnf, he.blame⟩)
  | perform =>
    exact meets_bind.2 (((loops_safe fuel).performs hdef).mono (fun _ _ h1 => h1.1.nil) fun _ _ he =>
      ⟨he.halt, _, m, .perform, he.blame⟩)
  | normalize =>
    exact meets_bind.2 (((loops_safe fuel).normalizes hdef).mono (fun _ _ h1 => h1.1) fun _ _ he =>
      ⟨he.halt, _, m, .normalize, he.blame⟩)
  | run => exact meets_bind.2 (fails_run h hid)

theorem safe_call (call : EntryPoint) (h : m.Safe []) (hid : id ∈ m.pinned) :
    Meets (call.call fuel id) m (fun _ m' => m'.Safe []) SafeHalt :=
  (fails_call call h hid).mono (fun _ _ h1 => h1) fun _ _ he => he.1

end Calls

section Turns

variable {m m1 : Machine} {outer fuel base id top : Nat} {binds : List Bool}

theorem fits_reserve (hu : Unwinding outer base m) (h : m.Safe [])
    (hm : reserve n m = .ok () m1) : Unwinding outer base m1 ∧ m1.Safe [] :=
  ⟨(hu.above (((Quiet.reserve n m).ok hm).above hu.base_lt)).1, (safe_reserve h n).ok hm⟩

theorem fits_step {r : Progress} (hu : Unwinding outer base m) (h : m.Safe [])
    (hm : step ⟨perform fuel, normalize fuel⟩ base m = .ok r m1) :
    Unwinding outer base m1 ∧ m1.Safe r.cells := by
  have ha : Meets (step ⟨perform fuel, normalize fuel⟩ base) m _ _ :=
    above_step (quiet_perform fuel) (quiet_normalize fuel) hu.base_lt
  exact ⟨(hu.above (ha.ok hm)).1, (safe_step (loops_safe fuel).evaluators h hu.base_lt).ok hm⟩

theorem operands_of_lt (hlt : binds.length < m.stack.size) (hs : Steady m m1) :
    Operands (m.stack.size - binds.length - 1) binds m m1 :=
  operands_of_steady (by omega) hs

theorem Operands.lt {low : Nat} (h : Operands low binds m m1) : binds.length < m1.stack.size := by
  have := h.size
  omega

end Turns

/-- The stack fits each activity that a fitting one leads to. -/
theorem fits_of_leads {a a' : Activity} {m m' : Machine} (hl : Leads a m a' m') (h : a.Fits m) :
    a'.Fits m' := by
  cases hl with
  | loadProgram p => exact (safe_load h fun _ hi => p.load_sound hi).1
  | loadImage image => exact (safe_load h fun _ hi => image.load_sound _ hi).1
  | loadProgramFails he =>
    obtain ⟨hs, hharm⟩ := safe_load h fun _ hi => Program.load_sound _ hi
    exact ⟨hharm _ he, hs⟩
  | loadImageFails he =>
    obtain ⟨hs, hharm⟩ := safe_load h fun _ hi => Image.load_sound _ _ hi
    exact ⟨hharm _ he, hs⟩
  | callReturns call hid hm => exact (safe_call call h hid).ok hm
  | callStops call hid hm => exact ((safe_call call h hid).error hm).2
  | callFails call hid hm => exact (safe_call call h hid).error hm
  | callWhnf hid | callPerform hid | callNormalize hid => exact Safe.pinned h hid
  | runPerform hid hm => exact ((safe_whnf (Safe.pinned h hid)).ok hm).1
  | runResult hid hm hm2 =>
    have hv := (safe_whnf (Safe.pinned h hid)).ok hm
    exact ((safe_perform hv.1).ok hm2).1
  | runNormalize hid hm =>
    obtain ⟨hv, hs⟩ := (safe_whnf (Safe.pinned h hid)).ok hm
    exact hv.nil.pinned (by rw [hs.pinned]; exact hid)
  | startWhnf hm =>
    obtain ⟨hs, hsize⟩ := (safe_start h).ok hm
    obtain ⟨hu, -⟩ := Unwinding.start (m := m') (by omega)
    rw [hsize, Nat.add_sub_cancel] at hu
    exact ⟨hu, hs⟩
  | startPerform hm =>
    obtain ⟨hs, hsize⟩ := (safe_start h).ok hm
    exact ⟨by simp; omega, hs⟩
  | startNormalize hm => exact ((safe_start h).ok hm).1
  | safePoint hm | makeRoom hm => exact fits_reserve h.1 h.2 hm
  | again hm => exact fits_step h.1 h.2 hm
  | force hm hm2 =>
    obtain ⟨hu, hs⟩ := fits_step h.1 h.2 hm
    exact ⟨((hu.suspend _).ok hm2).1, (safe_suspend hs).ok hm2⟩
  | resume hm hne hm2 =>
    obtain ⟨hu, hs⟩ := fits_step h.1 h.2 hm
    exact ⟨((hu.resume hne).ok hm2).1, (safe_resume hs).ok hm2⟩
  | performIO _ ha | errorText _ ha =>
    have ht : m.stack.size - 1 < m.stack.size := by have := h.1.base_lt; omega
    exact ((safe_arg h.2 ht).ok ha).2
  | evaluateAction hm =>
    have hs := (Quiet.safePoint m).ok hm
    have hlt := h.1
    exact ((safe_reserve h.2 _).ok hm).entry (by rw [hs.stack]; omega)
  | act hm hm2 =>
    have hs := (Quiet.safePoint m).ok hm
    have hlt := h.1
    have hw := (safe_whnf (((safe_reserve h.2 _).ok hm).entry (by rw [hs.stack]; omega))).ok hm2
    refine ⟨?_, (hw.1.setEntry (by simp) _).nil⟩
    simpa [hw.2.stack, hs.stack] using hlt
  | bind hf hm =>
    have hcells := safe_actionForm (h.2.entry (i := m.stack.size - 1) (by have := h.1; omega))
    rw [hf] at hcells
    exact ⟨((operands_of_lt h.1 (.refl m)).operands true _ _ |>.ok hm).lt, (safe_operands hcells).ok hm⟩
  | sequence hf hm =>
    have hcells := safe_actionForm (h.2.entry (i := m.stack.size - 1) (by have := h.1; omega))
    rw [hf] at hcells
    exact ⟨((operands_of_lt h.1 (.refl m)).operands false _ _ |>.ok hm).lt, (safe_operands hcells).ok hm⟩
  | result hf hm =>
    have hcells := safe_actionForm (h.2.entry (i := m.stack.size - 1) (by have := h.1; omega))
    rw [hf] at hcells
    have hlt := h.1
    simp only [length_cons] at hlt
    exact ⟨((operands_of_lt h.1 (.refl m)).handOver.ok hm).lt,
      (safe_handOver hcells (by omega) (by omega)).ok hm⟩
  | executed hm hm2 =>
    have hlt := h.1
    simp only [length_cons] at hlt
    have hs := (quiet_execute (quiet_whnf _) (quiet_normalize _) _ _ m).ok hm
    have hx := (safe_execute h.2 (by omega) _).ok hm
    have ho := operands_of_lt h.1 hs
    rw [← hs.stack] at hm2
    refine ⟨(ho.handOver.ok hm2).lt, (safe_handOver hx ?_ ?_).ok hm2⟩ <;> rw [hs.stack] <;> omega
  | argWhnf ha | argNormalize ha => exact ((safe_actionArg h.2 (by have := h.1; omega)).ok ha).2
  | argEvaluated ha hm =>
    have hs := ((safe_actionArg h.2 (by have := h.1; omega)).ok ha).2
    have hw := (safe_whnf hs).ok hm
    exact ⟨(operands_of_lt h.1 hw.2).lt, hw.1.nil⟩
  | argNormalized ha hm =>
    have hs := ((safe_actionArg h.2 (by have := h.1; omega)).ok ha).2
    have hn := (safe_normalize hs).ok hm
    exact ⟨(operands_of_lt h.1 hn.2).lt, hn.1⟩
  | operation hm =>
    exact ⟨(operands_of_lt h.1 ((Quiet.onWorld _ m).ok hm)).lt, ((safe_onWorld h.2 _).ok hm).1⟩
  | resultRoom hm =>
    exact ⟨(operands_of_lt h.1 ((Quiet.reserve _ m).ok hm)).lt, (safe_reserve h.2 _).ok hm⟩
  | evaluateField hb => exact Safe.entry h (by omega)
  | openFields hb hm hv hm2 =>
    have hw := (safe_whnf (Safe.entry h (by omega))).ok hm
    exact (safe_pushAll _ ((safe_valueForm hw.1 hv).shrink _)).ok hm2
  | closeField hb hm _ _ =>
    have hw := (safe_whnf (Safe.entry h (by omega))).ok hm
    exact (hw.1.shrink _).nil
  | unwindReturns hm => exact (((loops_safe _).unwind _ _ m h.1 h.2).ok hm).1.nil
  | unwindFails hm => exact (((loops_safe _).unwind _ _ m h.1 h.2).error hm).halt
  | performReturns hm =>
    exact (((loops_safe _).perform _ _ m (operands_of_lt h.1 (.refl m)).size h.2).ok hm).nil
  | performFails hm =>
    exact (((loops_safe _).perform _ _ m (operands_of_lt h.1 (.refl m)).size h.2).error hm).halt
  | normalizeReturns hm => exact ((loops_safe _).normalize _ _ m h).ok hm
  | normalizeFails hm => exact (((loops_safe _).normalize _ _ m h).error hm).halt

theorem safe_new (config : Config) (world : World) : (new config world).Safe [] := by
  refine ⟨fun _ => False, ⟨⟨fun _ h => h.elim, fun _ h => h.elim, fun _ h => h.elim⟩, ?_, ?_⟩, by simp⟩
  · exact ⟨[], .nil, nodup_nil, by simp, rfl, Nat.zero_le _⟩
  · simp [roots, new]

/-- **What holds in an activity holds in every state that is reached.** -/
theorem fits_of_reached {config : Config} {world : World} {a : Activity} {m : Machine}
    (h : Reached config world a m) : a.Fits m := by
  induction h with
  | start => exact safe_new config world
  | next _ hl ih => exact fits_of_leads hl ih

theorem Activity.Fits.safe {a : Activity} {m : Machine} (h : a.Fits m) : m.Safe [] := by
  cases a with
  | idle | returned | normalizeFrom => exact h
  | whnf | perform | normalize => exact Safe.nil h
  | unwind | look | performFrom | act | failed | failedLoad => exact h.2

/-- **No dangling references.** In every state that is reached, whatever can be reached from the
stack and the definitions is in the arena and in use, and its chain of indirections ends. So no
call fails because of a reference to a free cell or a free list that leads to a cell in use, and
unwinding never finds a free cell or an indirection to itself. -/
theorem no_dangling_references {config : Config} {world : World} {a : Activity} {m : Machine}
    (h : Reached config world a m) :
    (∀ x, Reachable m.heap.get (fun y => y ∈ m.stack.toList ∨ y ∈ m.pinned) x →
      x < m.heap.cells.size ∧ (m.heap.get x).isFree = false ∧
        ∃ y, Stands m.heap.get x y ∧ (m.heap.get y).isInd = false) ∧
    (∀ e, a = .failed e → ∀ id, e ≠ .error (.malformed (.unallocated id)) ∧
      e ≠ .error (.malformed (.freeListCorrupt id))) ∧
    (∀ e, a = .failedLoad e → ∀ fault, e ≠ .runtime (.malformed fault)) ∧
    ∀ outer fuel base top, a = .look outer fuel base →
      top = m.onTop →
      (m.heap.get top).isFree = false ∧ m.heap.get top ≠ .ind top := by
  have hfits := fits_of_reached h
  refine ⟨fun x hx => ?_, ?_, ?_, ?_⟩
  · obtain ⟨G, hG, -⟩ := hfits.safe
    have hGx : G x := hG.closed.reachable (fun y hy => hG.roots y (List.mem_append.2 hy)) hx
    obtain ⟨y, hy⟩ := hG.closed.ends x hGx
    exact ⟨hG.lt_size hGx, hG.closed.inUse x hGx, y, hy, hy.isInd_eq_false⟩
  · rintro e rfl id
    exact ⟨fun he => by rw [he] at hfits; exact hfits.1, fun he => by rw [he] at hfits; exact hfits.1⟩
  · rintro e rfl fault he
    rw [he] at hfits
    exact hfits.1
  · rintro outer fuel base top rfl rfl
    obtain ⟨hu, hs⟩ := hfits
    have htop := hs.entry (i := m.stack.size - 1) (by have := hu.base_lt; omega)
    exact ⟨htop.inUse List.mem_cons_self, fun hc => (htop.ind List.mem_cons_self hc).2 rfl⟩

/-- An image whose entry point is `I 5`. -/
def identityImage : Image where
  records := [.comb .I, .lit (.int 5), .app 0 1]
  defs := [⟨"main", 0, 2⟩]
  prims := []
  entry := some 0

/-- A machine into which it was loaded, with the given entries on the stack. -/
def identifying (depth : Nat) (stack : Array Nat) : Machine :=
  { ((new {} default).loadImage identityImage).2 with depth, stack }

/-- In the middle of a call the redex, which is on the stack, was overwritten with an indirection. All that
can be reached is in use, and what is looked at is not an indirection to itself. -/
theorem no_dangling_references_identityImage : ∃ m, Reached {} default (.look 0 1 0) m ∧
    m.stack = #[3] ∧ m.pinned = [0] ∧ m.heap.get 0 = .ind 3 ∧ m.heap.get 3 = .ind 2 ∧
    (∀ x, Reachable m.heap.get (fun y => y ∈ m.stack.toList ∨ y ∈ m.pinned) x →
      x < m.heap.cells.size ∧ (m.heap.get x).isFree = false ∧
        ∃ y, Stands m.heap.get x y ∧ (m.heap.get y).isInd = false) ∧
    (m.heap.get 3).isFree = false ∧ m.heap.get 3 ≠ .ind 3 := by
  have hcall : Reached {} default (.whnf 5 0) (identifying 0 #[]) :=
    .next (.next .start (.loadImage identityImage)) (.callWhnf List.mem_cons_self)
  have hopen : (do enter; push 0 : Run Unit) (identifying 0 #[]) = .ok () (identifying 1 #[0]) := rfl
  have hstart : Reached {} default (.unwind 0 5 0) (identifying 1 #[0]) := .next hcall (.startWhnf hopen)
  have hfollow : Reached {} default (.unwind 0 4 0) (identifying 1 #[3]) :=
    .next (.next hstart (.safePoint rfl)) (.again rfl)
  have hpush : Reached {} default (.unwind 0 3 0) (identifying 1 #[3, 1]) :=
    .next (.next hfollow (.safePoint rfl)) (.again rfl)
  have hfired : Reached {} default (.unwind 0 2 0) { identifying 1 #[3] with
      heap := (identifying 1 #[3]).heap.set 3 (.ind 2), stats := { steps := 1 } } :=
    .next (.next hpush (.safePoint rfl)) (.again rfl)
  obtain ⟨hall, -, -, hlook⟩ := no_dangling_references (.next hfired (.safePoint rfl))
  exact ⟨_, .next hfired (.safePoint rfl), rfl, rfl, rfl, rfl, hall, hlook 0 1 0 3 rfl rfl⟩

end Machine

end GraphReduction
