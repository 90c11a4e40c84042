import GraphReduction.Proofs.Machine.Sound

/-!
# Spines

The spine of a cell is found by going from applications to their functions until something else
is met. It can be without an end.
-/

namespace GraphReduction

open List

/-- Two cells stand for the same one. -/
def SameEnd (v : View) (x y : Nat) : Prop := ∃ z, Stands v x z ∧ Stands v y z

/-- A cell that is no application. -/
def Cell.NotApp (c : Cell) : Prop := ∀ f a, c ≠ .app f a

theorem Cell.notApp_or_app (c : Cell) : c.NotApp ∨ ∃ f a, c = .app f a := by
  cases c with
  | app f a => exact Or.inr ⟨f, a, rfl⟩
  | _ => exact Or.inl fun _ _ h => by cases h

/-- The spine of `x` ends at the head `y` and has the arguments `args`, the one next to the head
first. -/
inductive Unwinds (v : View) : Nat → List Nat → Nat → Prop
  | head {x y : Nat} : Stands v x y → (v y).NotApp → Unwinds v x [] y
  | app {x z f a y : Nat} {args : List Nat} : Stands v x z → v z = .app f a →
    Unwinds v f args y → Unwinds v x (args ++ [a]) y

namespace Unwinds

variable {v : View} {x y z w f a : Nat} {args args' : List Nat}

theorem of_sameEnd (h : Unwinds v x args y) (hs : SameEnd v x w) : Unwinds v w args y := by
  obtain ⟨z, hx, hw⟩ := hs
  cases h with
  | head hy hn => exact .head ((hx.unique hy) ▸ hw) hn
  | app hy hc hf => exact .app ((hx.unique hy) ▸ hw) hc hf

theorem unique (h : Unwinds v x args y) (h' : Unwinds v x args' w) : args = args' ∧ y = w := by
  induction h generalizing args' with
  | head hy hn =>
    cases h' with
    | head hw _ => exact ⟨rfl, hy.unique hw⟩
    | app hz hc _ => rw [hy.unique hz] at hn; exact absurd hc (hn _ _)
  | app hy hc _ ih =>
    cases h' with
    | head hw hn => rw [← hy.unique hw] at hn; exact absurd hc (hn _ _)
    | app hz hc' hf' =>
      rw [← hy.unique hz, hc] at hc'
      cases hc'
      obtain ⟨rfl, rfl⟩ := ih hf'
      exact ⟨rfl, rfl⟩

theorem notApp (h : Unwinds v x args y) : (v y).NotApp := by
  induction h with
  | head _ hn => exact hn
  | app _ _ _ ih => exact ih

theorem of_app (h : Unwinds v x args y) (hc : v x = .app f a) :
    ∃ args', args = args' ++ [a] ∧ Unwinds v f args' y := by
  have hx : (v x).isInd = false := by rw [hc]; rfl
  cases h with
  | head hs hn => rw [hs.eq_self hx] at hn; exact absurd hc (hn _ _)
  | app hs hc' hf =>
    rw [hs.eq_self hx, hc] at hc'
    cases hc'
    exact ⟨_, rfl, hf⟩

end Unwinds

open Machine

variable {h h' : Heap} {G : Nat → Prop} {roots : List Nat} {x y : Nat} {args : List Nat}

/-- Where unwinding goes from a cell that is no indirection. -/
def Heap.nextOnSpine (h : Heap) (x : Nat) : Option Nat :=
  match h.get x with
  | .app f _ => some (h.resolve f)
  | _ => none

theorem Heap.nextOnSpine_eq_none (hc : (h.get x).NotApp) : h.nextOnSpine x = none := by
  unfold Heap.nextOnSpine
  split
  · rename_i hx; exact absurd hx (hc _ _)
  · rfl

theorem Unwinds.path (hu : Unwinds h.get x args y) :
    Path h.nextOnSpine args.length (h.resolve x) y := by
  induction hu with
  | head hs _ => rw [Heap.resolve_of_stands hs]; exact .nil _
  | app hs hc _ ih =>
    rw [Heap.resolve_of_stands hs, length_append]
    exact .cons (by simp only [Heap.nextOnSpine, hc]) ih

theorem Unwinds.length_le (hu : Unwinds h.get x args y) : args.length ≤ h.cells.size := by
  refine hu.path.length_le (Heap.nextOnSpine_eq_none hu.notApp) fun a b hab => ?_
  apply Heap.lt_size_of_not_free
  unfold Heap.nextOnSpine at hab
  split at hab
  · rename_i hc; rw [hc]; rfl
  · cases hab

theorem Unwinds.spineFrom_eq (hu : Unwinds h.get x args y) {fuel : Nat} (hf : args.length < fuel)
    (rest : List Nat) : spineFrom h fuel (h.resolve x) rest = (y, args ++ rest) := by
  induction hu generalizing fuel rest with
  | @head x y hs hn =>
    rw [Heap.resolve_of_stands hs]
    cases fuel with
    | zero => omega
    | succ fuel =>
      unfold spineFrom
      split
      · rename_i hc; exact absurd hc (hn _ _)
      · rfl
  | @app x z f a y args hs hc _ ih =>
    rw [Heap.resolve_of_stands hs]
    rw [length_append] at hf
    cases fuel with
    | zero => simp at hf
    | succ fuel =>
      simp only [spineFrom, hc]
      rw [ih (by simpa using hf), append_assoc]
      rfl

theorem Unwinds.spineOf_eq (hu : Unwinds h.get x args y) : spineOf h x = (y, args) := by
  have := hu.spineFrom_eq (Nat.lt_succ_of_le hu.length_le) []
  rwa [append_nil] at this

theorem Machine.boundedSpine_of_app {f a : Nat} (hc : h.get x = .app f a) (limit n : Nat) :
    boundedSpine h limit x n = match limit with
      | 0 => none
      | limit + 1 => boundedSpine h limit (h.resolve f) (n + 1) := by
  cases limit <;> (conv_lhs => unfold boundedSpine) <;> simp only [hc]

theorem Machine.boundedSpine_of_notApp (hc : (h.get x).NotApp) (limit n : Nat) :
    boundedSpine h limit x n = some (h.get x, n) := by
  unfold boundedSpine
  split
  · rename_i hx; exact absurd hx (hc _ _)
  · rename_i hx; exact absurd hx (hc _ _)
  · rfl

theorem Unwinds.boundedSpine_eq (hu : Unwinds h.get x args y) (limit n : Nat) :
    boundedSpine h limit (h.resolve x) n =
      if args.length ≤ limit then some (h.get y, n + args.length) else none := by
  induction hu generalizing limit n with
  | @head x y hs hn =>
    rw [Heap.resolve_of_stands hs, boundedSpine_of_notApp hn]
    simp
  | @app x z f a y args hs hc _ ih =>
    rw [Heap.resolve_of_stands hs, boundedSpine_of_app hc]
    cases limit with
    | zero => simp
    | succ limit =>
      simp only [ih limit (n + 1), length_append, length_singleton,
        Nat.add_le_add_iff_right, Nat.add_assoc, Nat.add_comm 1]

theorem Machine.unwinds_of_boundedSpine (hG : Closed h.get G) {limit n k : Nat} {c : Cell} (hx : G x)
    (hb : boundedSpine h limit (h.resolve x) n = some (c, k)) :
    ∃ args y, Unwinds h.get x args y ∧ h.get y = c ∧ args.length ≤ limit ∧ k = n + args.length := by
  induction limit generalizing x n with
  | zero =>
    rcases (h.get (h.resolve x)).notApp_or_app with hc | ⟨f, a, hc⟩
    · rw [boundedSpine_of_notApp hc] at hb
      cases hb
      exact ⟨[], _, .head (hG.stands_resolve hx) hc, rfl, Nat.le_refl _, rfl⟩
    · rw [boundedSpine_of_app hc] at hb
      cases hb
  | succ limit ih =>
    rcases (h.get (h.resolve x)).notApp_or_app with hc | ⟨f, a, hc⟩
    · rw [boundedSpine_of_notApp hc] at hb
      cases hb
      exact ⟨[], _, .head (hG.stands_resolve hx) hc, rfl, Nat.zero_le _, rfl⟩
    · rw [boundedSpine_of_app hc] at hb
      obtain ⟨args, y, hu, hy, hlen, hk⟩ := ih (hG.app (hG.resolve hx) hc).1 hb
      refine ⟨_, y, .app (hG.stands_resolve hx) hc hu, hy, ?_, ?_⟩
      all_goals rw [length_append, length_singleton]; omega

theorem Closed.kept_stands (hG : Closed h.get G) (hr : ∀ x ∈ roots, G x) (hk : h.Kept roots x)
    (hs : Stands h.get x y) : h.Kept roots y := by
  induction hs with
  | here _ => exact hk
  | @there x t y hc _ ih =>
    refine ih (hG.kept_child hr hk ?_)
    simp [Heap.shortcuts, hc, Cell.skip, Cell.children]

/-- A collection keeps a reachable spine, with its indirections skipped. -/
theorem Unwinds.collect (hG : Closed h.get G) (hr : ∀ x ∈ roots, G x)
    (hc : Heap.Collects h roots h') (hu : Unwinds h.get x args y) (hk : h.Kept roots x) :
    Unwinds h'.get x (args.map h.resolve) y ∧ h'.get y = h.get y := by
  -- the function of an application need not be kept, but what it stands for is
  suffices hgen : ∀ w, SameEnd h.get x w → h.Kept roots w →
      Unwinds h'.get w (args.map h.resolve) y ∧ h'.get y = h.get y from
    hgen x ⟨h.resolve x, hG.stands_resolve (hG.of_kept hr hk), hG.stands_resolve (hG.of_kept hr hk)⟩ hk
  clear hk
  induction hu with
  | @head x y hs hn =>
    rintro w ⟨z, hz, hw⟩ hk
    obtain rfl := hz.unique hs
    have hcell : h'.get z = h.get z := by
      rw [hc.kept _ (hG.kept_stands hr hk hw)]
      cases hcell : h.get z with
      | app f a => exact absurd hcell (hn f a)
      | ind t => have hi := hw.isInd_eq_false; rw [hcell] at hi; cases hi
      | _ => simp only [Heap.shortcuts, hcell, Cell.skip]
    exact ⟨.head (hG.stands_collect hr hc hk hw) (by rw [hcell]; exact hn), hcell⟩
  | @app x z f a y args hs hcell _ ih =>
    rintro w ⟨z', hz, hw⟩ hk
    obtain rfl := hz.unique hs
    have hkz := hG.kept_stands hr hk hw
    have hkf := (kept_app hG hr hkz hcell).1
    have hf := hG.stands_resolve (hG.app (hG.of_kept hr hkz) hcell).1
    obtain ⟨hu', hy⟩ := ih _ ⟨_, hf, .here hf.isInd_eq_false⟩ hkf
    rw [map_append]
    refine ⟨.app (hG.stands_collect hr hc hk hw) ?_ hu', hy⟩
    rw [hc.kept _ hkz]
    simp [Heap.shortcuts, hcell, Cell.skip]

theorem Machine.isWhnfIn_eq (m : Machine) (x : Nat) : m.isWhnfIn x =
    ((boundedSpine m.heap m.stackLimit (m.heap.resolve x) 0).map fun r => rests r.1 r.2).getD
      false := by
  unfold isWhnfIn
  cases boundedSpine m.heap m.stackLimit (m.heap.resolve x) 0 with
  | none => rfl
  | some r =>
    obtain ⟨c, n⟩ := r
    cases c <;> rfl

theorem Unwinds.isWhnfIn_eq {m : Machine} (hu : Unwinds m.heap.get x args y) :
    m.isWhnfIn x = (decide (args.length ≤ m.stackLimit) && rests (m.heap.get y) args.length) := by
  rw [Machine.isWhnfIn_eq, hu.boundedSpine_eq]
  by_cases hle : args.length ≤ m.stackLimit <;> simp [hle]

/-- **A cell is in weak head normal form** for the machine if its spine ends, fits on the stack,
and its head has too few arguments. -/
theorem Machine.isWhnfIn_iff {m : Machine} (hG : Closed m.heap.get G) (hx : G x) :
    m.isWhnfIn x = true ↔ ∃ args y, Unwinds m.heap.get x args y ∧ args.length ≤ m.stackLimit ∧
      rests (m.heap.get y) args.length = true := by
  constructor
  · intro hw
    rw [isWhnfIn_eq] at hw
    cases hb : boundedSpine m.heap m.stackLimit (m.heap.resolve x) 0 with
    | none => rw [hb] at hw; cases hw
    | some r =>
      obtain ⟨c, n⟩ := r
      obtain ⟨args, y, hu, rfl, hlen, hn⟩ := unwinds_of_boundedSpine hG hx hb
      refine ⟨args, y, hu, hlen, ?_⟩
      rw [hb, hn, Nat.zero_add] at hw
      exact hw
  · rintro ⟨args, y, hu, hlen, hr⟩
    rw [hu.isWhnfIn_eq, hr]
    simpa using hlen

end GraphReduction
