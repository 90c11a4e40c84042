import GraphReduction.Proofs.Machine.Arguments

/-!
# When memory is exhausted

A call that fails for want of memory comes to a request that is denied right after a collection, but for
a program with many arguments, whose list may take the last cell.
-/

namespace GraphReduction

namespace Machine

variable {a a1 : Activity} {m m' m1 : Machine} {fuel id : Nat}

theorem args_of_onward (h : Onward a m a1 m1) : m1.world.args = m.world.args := by
  induction h with
  | here => rfl
  | next hl _ ih => exact ih.trans (args_of_leads hl)

theorem moves_of_starts {call : EntryPoint} (h : call.Starts fuel id m a m1) : Moves m m1 := by
  cases h with
  | runPerform h _ | runNormalize h _ => exact (moving_whnf _ _ m).ok h
  | runResult h1 _ h2 => exact ((moving_whnf _ _ m).ok h1).trans ((moving_perform _ _ _).ok h2)
  | _ => exact .refl m

/-- **A call that runs out of memory comes to a request that is denied**: right after a collection, with
fewer free cells than were asked for. The one exception is a program with sixteen or more arguments,
whose list took the last cell before the bind that takes the list. -/
theorem outOfMemory_of_call {config : Config} {world : World} (h : Reached config world .idle m)
    (hid : id ∈ m.pinned) (call : EntryPoint) {capacity : Nat}
    (hcall : call.call fuel id m = .error (.error (.outOfMemory capacity)) m') :
    ∃ a₀ m₀ a₁ m₁, call.Starts fuel id m a₀ m₀ ∧ Onward a₀ m₀ a₁ m₁ ∧
      ((∃ n, Requests a₁ m₁ n ∧ RoomDenied m₁ n capacity m'.heap) ∨
        16 ≤ world.args.length ∧ ArgumentsTookAll a₁ m₁ capacity m'.heap) := by
  obtain ⟨-, a₀, m₀, hstarts, hblame⟩ := (fails_call call (fits_of_reached h).safe hid).error hcall
  obtain ⟨a₁, m₁, hon, hfault⟩ := hblame capacity rfl
  have hargs : m₁.world.args = world.args :=
    (args_of_onward hon).trans ((args_of_moves (moves_of_starts hstarts)).trans (args_of_reached h))
  exact ⟨a₀, m₀, a₁, m₁, hstarts, hon, hfault.imp_right fun hall => ⟨hargs ▸ hall.many, hall⟩⟩

/-- The capacity of the heap that a call has exhausted, and how often it was collected. -/
def exhausted? : EStateM.Result Halt Machine Unit → Option (Nat × Nat)
  | .error (.error (.outOfMemory capacity)) m => some (capacity, m.heap.stats.collections)
  | _ => none

theorem exhausted?_eq_some {r : EStateM.Result Halt Machine Unit} {capacity collections : Nat}
    (h : exhausted? r = some (capacity, collections)) : ∃ m',
      r = .error (.error (.outOfMemory capacity)) m' ∧ m'.heap.stats.collections = collections := by
  unfold exhausted? at h
  split at h
  · cases h
    exact ⟨_, rfl, rfl⟩
  · cases h

/-- A heap of four cells is full once `I 5` is loaded, and the first request is denied. -/
theorem outOfMemory_of_call_identityImage :
    ∃ m', EntryPoint.whnf.call 2 0 ((new { heapCells := 4 } default).loadImage identityImage).2 =
        .error (.error (.outOfMemory 4)) m' ∧
      ∃ a₁ m₁ n, Requests a₁ m₁ n ∧ RoomDenied m₁ n 4 m'.heap := by
  obtain ⟨m', hcall, -⟩ : ∃ m',
      EntryPoint.whnf.call 2 0 ((new { heapCells := 4 } default).loadImage identityImage).2 =
        .error (.error (.outOfMemory 4)) m' ∧ m'.heap.stats.collections = 1 :=
    exhausted?_eq_some (by cbv)
  obtain ⟨-, -, a₁, m₁, -, -, ⟨n, hdenied⟩ | ⟨hmany, -⟩⟩ :=
    outOfMemory_of_call (.next .start (.loadImage identityImage)) List.mem_cons_self .whnf hcall
  · exact ⟨m', hcall, a₁, m₁, n, hdenied⟩
  · exact absurd hmany (by decide)

/-- An image whose entry point asks for the arguments of the program and returns them. -/
def argumentsImage : Image where
  records := [.comb .ioBind, .prim 0, .app 0 1, .comb .ioReturn, .app 2 3]
  defs := [⟨"main", 0, 4⟩]
  prims := ["IO.getArgs"]
  entry := some 0

/-- **Thirty arguments take the last cell of a heap of 129**, which is a valid size. The run then fails
for want of memory without a single collection. -/
theorem outOfMemory_without_collection :
    Config.validate { heapCells := 129 } = .ok () ∧
    ∃ m', EntryPoint.run.call 9 0 ((new { heapCells := 129 }
        (.ofInput [] (List.replicate 30 "") .empty)).loadImage argumentsImage).2 =
      .error (.error (.outOfMemory 129)) m' ∧ m'.heap.stats.collections = 0 :=
  ⟨rfl, exhausted?_eq_some (by decide +kernel)⟩

end Machine

end GraphReduction
