import GraphReduction.Proofs.Machine.AtRest
import GraphReduction.Proofs.Machine.Integrity

/-!
# The turns of an unwinding

A turn of an unwinding goes on with the spine that it has looked at, suspends it for an argument, or
goes back to the one below. Where no turn goes below the spine at position `low`, the entries of the
stack up to there are what the unwinding was started with, except that the one at `low` comes to
stand for its value.
-/

namespace GraphReduction

namespace Machine

variable {m m' : Machine}

/-- What comes after a look: the spine that is looked at next. The first `outer` spines stay
suspended. -/
inductive Turn (outer : Nat) : Nat → Machine → Nat → Machine → Prop
  | again {base fuel : Nat} {m m' : Machine} :
    step ⟨perform fuel, normalize fuel⟩ base m = .ok .again m' → Turn outer base m base m'
  | force {base b fuel a : Nat} {m m1 m' : Machine} :
    step ⟨perform fuel, normalize fuel⟩ base m = .ok (.force a) m1 → suspend base a m1 = .ok b m' →
    Turn outer base m b m'
  | resume {base b fuel : Nat} {m m1 m' : Machine} :
    step ⟨perform fuel, normalize fuel⟩ base m = .ok .done m1 → m1.frames.size ≠ outer →
    Machine.resume base m1 = .ok b m' → Turn outer base m b m'

/-- Some number of turns, each with its safe point. -/
inductive Turns (outer : Nat) : Nat → Machine → Nat → Machine → Prop
  | refl (base : Nat) (m : Machine) : Turns outer base m base m
  | next {base b base' : Nat} {m m1 m2 m' : Machine} : safePoint m = .ok () m1 →
    Turn outer base m1 b m2 → Turns outer b m2 base' m' → Turns outer base m base' m'

theorem moves_of_turns {outer base base' : Nat} (h : Turns outer base m base' m') : Moves m m' := by
  have hstep : ∀ fuel base, Leaves Moves (step ⟨perform fuel, normalize fuel⟩ base) := fun fuel base =>
    leaves_step allows_moves (moving_perform fuel) (moving_normalize fuel) base
  induction h with
  | refl => exact .refl _
  | next hroom ht _ ih =>
    refine (((allows_moves.safePoint _).ok hroom).trans ?_).trans ih
    cases ht with
    | again h1 => exact (hstep _ _ _).ok h1
    | force h1 h2 => exact ((hstep _ _ _).ok h1).trans ((moving_suspend _ _ _).ok h2)
    | resume h1 _ h2 => exact ((hstep _ _ _).ok h1).trans ((moving_resume _ _).ok h2)

/-!
## What lasts
-/

/-- An unwinding in a plain machine that does not go below the spine at position `low`, which the
suspended spines after the first `outer` and the one at `base` lie above. Of those below, the ones
after the first `inner` are known too. -/
structure Underway (inner outer low base : Nat) (m : Machine) : Prop where
  plain : Plain m []
  spines : Spines inner base m
  inner_le : inner ≤ outer
  outer_le : outer ≤ m.frames.size
  lowest : lowest outer base m = low

/-- What comes through safe points and looks, and depends on nothing above position `low` of the
stack and on no spine that is suspended after the first `outer`. -/
structure Lasts (inner outer low : Nat) (K : Machine → Prop) : Prop where
  room : ∀ {base n : Nat} {m m' : Machine}, Underway inner outer low base m → reserve n m = .ok () m' →
    K m → K m'
  look : ∀ {base fuel : Nat} {r : Progress} {m m' : Machine}, Underway inner outer low base m →
    step ⟨perform fuel, normalize fuel⟩ base m = .ok r m' → K m → K m'
  keep : ∀ {m m' : Machine}, m'.heap = m.heap → m'.pinned = m.pinned →
    m'.frames.toList.take outer = m.frames.toList.take outer →
    (∀ i, i ≤ low → m'.stack.getD i 0 = m.stack.getD i 0) → K m → K m'

namespace Underway

variable {inner outer low base b base' fuel n : Nat} {r : Progress} {m m' : Machine} {K : Machine → Prop}

section

variable (h : Underway inner outer low base m)
include h

theorem unwinding : Unwinding outer base m := by
  refine ⟨h.outer_le, ?_, h.spines.base_lt⟩
  have hsub : (m.frames.toList.drop outer).Sublist (m.frames.toList.drop inner) :=
    List.drop_sublist_drop_left _ h.inner_le
  exact h.spines.ascending.sublist (hsub.append_right [base])

theorem low_le : low ≤ base := by
  rw [← h.lowest]
  exact h.unwinding.lowest_le

theorem reserve (hm : Machine.reserve n m = .ok () m') :
    Underway inner outer low base m' := by
  have hst := (Quiet.reserve n m).ok hm
  exact ⟨h.plain.reserve hm, ((spines_reserve h.spines h.plain.safe n).ok hm).1, h.inner_le,
    by rw [hst.frames]; exact h.outer_le, by rw [lowest_congr hst.frames]; exact h.lowest⟩

theorem step
    (hm : Machine.step ⟨Machine.perform fuel, Machine.normalize fuel⟩ base m = .ok r m') :
    Underway inner outer low base m' := by
  have hl := looked h.plain h.spines hm
  exact ⟨hl.plain, hl.keeps.1, h.inner_le, by rw [hl.above.frames]; exact h.outer_le,
    by rw [lowest_congr hl.above.frames]; exact h.lowest⟩

/-- **What lasts comes through a turn.** -/
theorem turn (hK : Lasts inner outer low K)
    (ht : Turn outer base m b m') (hm : K m) : Underway inner outer low b m' ∧ K m' := by
  cases ht with
  | again hstep => exact ⟨h.step hstep, hK.look h hstep hm⟩
  | force hstep hsus =>
    rename_i a m1
    have h1 := h.step hstep
    have hawaits := (looked h.plain h.spines hstep).keeps.2.2.1
    have hpa := h1.plain.awaited h1.spines hawaits
    obtain ⟨hu, hlow, hkeeps⟩ := (h1.unwinding.suspend a).ok hsus
    have hlt := h1.spines.base_lt
    have hle := h1.low_le
    refine ⟨⟨hpa.suspend hsus, (spines_suspend h1.spines hpa.safe hawaits).ok hsus, h.inner_le,
      hu.outer_le, hlow.trans h1.lowest⟩, ?_⟩
    refine hK.keep ((suspend_heap base a m1).ok hsus) hkeeps.pinned hkeeps.frames (fun i hi => ?_)
      (hK.look h hstep hm)
    obtain ⟨-, rfl⟩ := suspend_eq hsus
    exact getD_push_lt (by omega)
  | resume hstep hne hres =>
    rename_i m1
    have h1 := h.step hstep
    obtain ⟨hu, hlow, hkeeps⟩ := (h1.unwinding.resume hne).ok hres
    have hne' : m1.frames.size ≠ inner := by have := h1.outer_le; have := h.inner_le; omega
    -- the spine that is done starts above the lowest one
    have hbase : low < base := by
      obtain ⟨l, c, hl, hle, -, -⟩ := h1.unwinding.exists_frame hne
      have hasc := h1.unwinding.ascending
      have hlowest := h1.lowest
      unfold Machine.lowest at hlowest
      cases hd : m1.frames.toList.drop outer with
      | nil =>
        rw [hl, List.drop_append_of_le_length hle] at hd
        simp at hd
      | cons d ds =>
        rw [hd] at hasc hlowest
        subst hlowest
        exact (List.pairwise_cons.1 hasc).1 base (by simp)
    refine ⟨⟨h1.plain.resume hres, (spines_resume h1.spines hne').ok hres, h.inner_le, hu.outer_le,
      hlow.trans h1.lowest⟩, ?_⟩
    refine hK.keep ((resume_heap base m1).ok hres) hkeeps.pinned hkeeps.frames (fun i hi => ?_)
      (hK.look h hstep hm)
    cases hres
    exact getD_shrink (by omega)

/-- **What lasts comes through all turns.** -/
theorem lasts (hK : Lasts inner outer low K)
    (ht : Turns outer base m base' m') (hm : K m) : Underway inner outer low base' m' ∧ K m' := by
  induction ht with
  | refl => exact ⟨h, hm⟩
  | next hroom ht _ ih =>
    obtain ⟨h2, hm2⟩ := (h.reserve hroom).turn hK ht (hK.room h hroom hm)
    exact ih h2 hm2

end

end Underway

end Machine

end GraphReduction
