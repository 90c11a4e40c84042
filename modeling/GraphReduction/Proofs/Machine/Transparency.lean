import GraphReduction.Proofs.Load.Parts
import GraphReduction.Proofs.Machine.Agreement
import GraphReduction.Proofs.Machine.Reached

/-!
# The resources of a machine do not show

How many cells the heap has, when it is collected, and how deep the stacks may grow decide whether
a program can be run to its end, and nothing else. A program that is loaded into two machines on
the same world is the same graph in both, so the machines are twins.
-/

namespace GraphReduction

open List

/-- What can be loaded into a machine. -/
inductive Code where
  | program (p : Program)
  | image (i : Image)

def Code.load : Code → LoadM Loaded
  | .program p => p.load
  | .image i => i.load Primitive.ofName?

theorem Code.meets_load {code : Code} {G : Nat → Prop} {h : Heap} (hi : Intact G h) :
    Meets code.load h (fun l h' => LoadedInto G l h') (FailedLoad G) := by
  cases code with
  | program p => exact p.load_sound hi
  | image i => exact i.load_sound _ hi

theorem Code.uniform_load {code : Code} : Load.Uniform code.load := by
  cases code with
  | program p => exact p.uniform_load
  | image i => exact i.uniform_load _

namespace Machine

variable {config config' : Config} {world : World} {code : Code} {m m' : Machine}
  {entry entry' fuel fuel' : Nat}

/-- A run that came to its end: neither memory nor stack nor the bound on its length ran out. -/
structure Completed (r : EStateM.Result Halt Machine Outcome) : Prop where
  notExhausted : ∀ e m, r = .error e m → ¬ e.Exhausted

def hasOutcome : EStateM.Result Halt Machine Outcome → Bool
  | .ok _ _ => true
  | .error _ _ => false

theorem Completed.of_hasOutcome {r : EStateM.Result Halt Machine Outcome}
    (h : hasOutcome r = true) : Completed r := by
  refine ⟨fun e n hr => ?_⟩
  rw [hr] at h
  cases h

/-- The definitions of `m` lead to no primitive that runs an action in an evaluation. -/
def PerformFree (m : Machine) : Prop :=
  ∀ x, Reachable m.heap.get (· ∈ m.pinned) x → m.heap.get x ≠ .prim .perform

theorem entry_of_pin {l : Loaded} (h : (pin l m).1 = .ok entry) : l.entry = some entry := by
  unfold pin at h
  cases hl : l.entry <;> rw [hl] at h <;> cases h
  rfl

theorem load_eq_ok {x : LoadM Loaded} {n : Machine} (h : n.load x = (.ok entry, m)) :
    ∃ l heap, x n.heap = .ok l heap ∧ l.entry = some entry ∧
      m = { n with
        heap
        pinned := n.pinned ++ l.defs.map Prod.snd
        globals := n.globals ++ l.defs } := by
  unfold load at h
  cases hx : x n.heap with
  | error e heap => rw [hx] at h; cases h
  | ok l heap =>
    rw [hx] at h
    have he : (pin l { n with heap }).1 = .ok entry := congrArg Prod.fst h
    have hm : (pin l { n with heap }).2 = m := congrArg Prod.snd h
    rw [pin_machine] at hm
    exact ⟨l, heap, rfl, entry_of_pin he, hm.symm⟩

theorem entry_mem_pinned (h : (new config world).load code.load = (.ok entry, m)) :
    entry ∈ m.pinned := by
  obtain ⟨l, heap, hx, hentry, rfl⟩ := load_eq_ok h
  obtain ⟨G, hi, -⟩ := (safe_new config world).intact
  obtain ⟨U, -, -, hdefs⟩ := (Code.meets_load hi).ok hx
  obtain ⟨d, hd, rfl⟩ := hdefs entry hentry
  exact mem_append_right _ (mem_map_of_mem hd)

/-- Machines with the same cells and registers are twins. -/
theorem twins_of_sameCells (hs : m.Safe []) (hcells : m.heap.SameCells m'.heap)
    (hfree' : m'.heap.FreeList fun _ => False) (hp : m.PerformFree)
    (hstack : m.stack = #[]) (hstack' : m'.stack = #[]) (hpinned : m'.pinned = m.pinned)
    (hframes : m'.frames = m.frames) (hdepth : m'.depth = m.depth) (ht : SameTrace m m') :
    Twins m m' [] := by
  obtain ⟨G, hG, -⟩ := hs
  -- the closed set may hold more than what the definitions lead to
  let G' := Reachable m.heap.get (· ∈ m.pinned)
  have hG' : ∀ x, G' x → G x :=
    fun x hx => hG.closed.reachable (fun y hy => hG.roots y (mem_append_right _ hy)) hx
  have hclosed : Closed m.heap.get G' :=
    ⟨fun x hx => hG.closed.inUse x (hG' x hx), fun x hx y hy => .child hx hy,
      fun x hx => hG.closed.ends x (hG' x hx)⟩
  obtain ⟨R, hR, hself⟩ := Pairing.self hclosed hp
  have hget := hcells.get
  refine ⟨R, ⟨by rw [hget]; exact hR, hG.free.mono fun _ h => h.elim, hfree', ?_, ?_, ?_, hframes,
    hdepth, ht⟩, by simp⟩
  · rw [hstack, hstack']
  · intro i hi
    rw [hstack] at hi
    cases hi
  · rw [hget, hpinned]
    exact forall₂_same.2 fun x hx => hself x (.root hx)

/-- **Loading into two new machines** gives the same entry point and makes twins. -/
theorem twins_of_load (h : (new config world).load code.load = (.ok entry, m))
    (h' : (new config' world).load code.load = (.ok entry', m')) (hp : m.PerformFree) :
    Twins m m' [] ∧ entry' = entry ∧ m'.pinned = m.pinned := by
  have hs := (safe_load (safe_new config world) fun _ hi => code.meets_load hi).1
  have hs' := (safe_load (safe_new config' world) fun _ hi => code.meets_load hi).1
  rw [h] at hs
  rw [h'] at hs'
  obtain ⟨l, heap, hx, hentry, rfl⟩ := load_eq_ok h
  obtain ⟨l', heap', hx', hentry', rfl⟩ := load_eq_ok h'
  have hempty : (new config world).heap.SameCells (new config' world).heap := ⟨rfl, rfl⟩
  obtain ⟨rfl, hcells⟩ := Code.uniform_load _ _ hempty _ _ _ _ hx hx'
  obtain ⟨G', hG', -⟩ := hs'
  refine ⟨twins_of_sameCells hs hcells (hG'.free.mono fun _ h => h.elim) hp rfl rfl rfl rfl rfl
    ⟨rfl, rfl, rfl⟩, ?_, rfl⟩
  rw [hentry] at hentry'
  exact (Option.some.inj hentry').symm

/-- **Two completed runs of the same code on the same world** end with the same outcome or the same
error, leave the same world, perform the same operations on it in the same order, and count the
same steps, ticks and ticks of each label, whatever the configurations are. -/
theorem run_independent_of_resources
    (h : (new config world).load code.load = (.ok entry, m))
    (h' : (new config' world).load code.load = (.ok entry', m')) (hp : m.PerformFree)
    (hrun : Completed (run fuel entry m)) (hrun' : Completed (run fuel' entry' m')) :
    ∃ m₁ m₁', SameTrace m₁ m₁' ∧
      ((∃ o, run fuel entry m = .ok o m₁ ∧ run fuel' entry' m' = .ok o m₁') ∨
        ∃ e, run fuel entry m = .error e m₁ ∧ run fuel' entry' m' = .error e m₁') := by
  obtain ⟨htw, rfl, hpinned⟩ := twins_of_load h h' hp
  obtain ⟨k, hk⟩ := List.mem_iff_getElem?.1 (entry_mem_pinned h)
  have hk' : m'.pinned[k]? = some entry' := by rw [hpinned]; exact hk
  have hboth : Both (run fuel entry') (run fuel' entry') m m' _ := twins_run htw hk hk'
  unfold Both at hboth
  cases hr : run fuel entry' m with
  | ok o m₁ =>
    cases hr' : run fuel' entry' m' with
    | ok o' m₁' =>
      simp only [hr, hr'] at hboth
      obtain ⟨rfl, ht⟩ := hboth
      exact ⟨m₁, m₁', ht, Or.inl ⟨o', rfl, rfl⟩⟩
    | error e' m₁' =>
      simp only [hr, hr'] at hboth
      exact (hrun'.notExhausted e' m₁' hr' hboth).elim
  | error e m₁ =>
    cases hr' : run fuel' entry' m' with
    | ok o' m₁' =>
      simp only [hr, hr'] at hboth
      exact (hrun.notExhausted e m₁ hr hboth).elim
    | error e' m₁' =>
      simp only [hr, hr'] at hboth
      rcases hboth with he | he | ⟨rfl, ht⟩
      · exact (hrun.notExhausted e m₁ hr he).elim
      · exact (hrun'.notExhausted e' m₁' hr' he).elim
      · exact ⟨m₁, m₁', ht, Or.inr ⟨e, rfl, rfl⟩⟩

/-- An image whose entry point is `C K 7 (I 5)`. -/
def discardImage : Image where
  records := [.comb .C, .comb .K, .app 0 1, .lit (.int 7), .app 2 3, .comb .I, .lit (.int 5),
    .app 5 6, .app 4 7]
  defs := [⟨"main", 0, 8⟩]
  prims := []
  entry := some 0

/-- A machine into which it was loaded. -/
def discarding (config : Config) : Machine :=
  ((new config default).load (Code.image discardImage).load).2

/-- A small heap that is collected before each step. -/
def stressed : Config := { heapCells := 80, gcStress := true }

theorem load_discardImage :
    (new {} default).load (Code.image discardImage).load = (.ok 0, discarding {}) :=
  Prod.ext (by cbv) (by rw [discarding])

theorem load_discardImage_stressed :
    (new stressed default).load (Code.image discardImage).load = (.ok 0, discarding stressed) :=
  Prod.ext (by cbv) (by rw [discarding])

theorem performFree_discarding : (discarding {}).PerformFree := by
  have hcells : (discarding {}).heap.cells = #[.ind 9, .comb .C, .comb .K, .app 1 2,
      .scalar (.int 7), .app 3 4, .comb .I, .scalar (.int 5), .app 6 7, .app 5 8] := by cbv
  intro x _ hc
  unfold Heap.get at hc
  rw [hcells, Array.getD_eq_getD_getElem?, Option.getD_eq_iff] at hc
  rcases hc with hc | ⟨-, hc⟩
  · have hmem := Array.mem_of_getElem? hc
    simp at hmem
  · cases hc

theorem completed_discarding : Completed (run 20 0 (discarding {})) :=
  .of_hasOutcome (by cbv)

theorem completed_discarding_stressed : Completed (run 25 0 (discarding stressed)) :=
  .of_hasOutcome (by cbv)

/-- It ends in the same way in a large heap and in a small one that is collected all the time. -/
theorem run_independent_of_resources_discardImage :
    Completed (run 20 0 (discarding {})) ∧ Completed (run 25 0 (discarding stressed)) ∧
      ∃ m₁ m₁', SameTrace m₁ m₁' ∧
        ((∃ o, run 20 0 (discarding {}) = .ok o m₁ ∧
            run 25 0 (discarding stressed) = .ok o m₁') ∨
          ∃ e, run 20 0 (discarding {}) = .error e m₁ ∧
            run 25 0 (discarding stressed) = .error e m₁') :=
  ⟨completed_discarding, completed_discarding_stressed,
    run_independent_of_resources load_discardImage load_discardImage_stressed
      performFree_discarding completed_discarding completed_discarding_stressed⟩

end Machine

end GraphReduction
