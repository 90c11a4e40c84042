import GraphReduction.Proofs.Cache.Flush

/-!
# Flushing again after a failure

A flush takes its lists of modules before it works through them, and stops at the first file that it
cannot remove or write. What is left of a list then is forgotten.
-/

namespace GraphReduction

namespace CacheStore

open FileSystem

variable {dir : String} {fs fs' : FileSystem} {s s' : CacheStore} {r : CacheError}

/-- **What a flush is to bring about**: the files of dropped modules are gone, and the new entries are in
their files. -/
structure Complete (dir : String) (s : CacheStore) (fs : FileSystem) : Prop where
  removed : ∀ m ∈ s.dropped, fs.get? (entryLocation fs.cwd dir m) = none
  written : ∀ m ∈ s.dirty, ∀ e, s.get? m = some e →
    fs.get? (entryLocation fs.cwd dir m) = some (.file (e.encode m))

/-- No module is both to be written and to be removed, and the names of both are without slashes. -/
structure Separate (s : CacheStore) : Prop where
  dirtyNames : ∀ m ∈ s.dirty, '/' ∉ m.toList
  droppedNames : ∀ m ∈ s.dropped, '/' ∉ m.toList
  disjoint : ∀ m ∈ s.dropped, m ∉ s.dirty

theorem InStep.separate (h : InStep dir fs s) : s.Separate where
  dirtyNames := h.dirtyNames
  droppedNames := h.droppedNames
  disjoint m hm hdirty := by
    obtain ⟨e, he⟩ := h.known m hdirty
    exact (h.kept m e he).2 hm

/-- Writing entries does not touch the files of modules that are to be removed. -/
theorem Separate.not_writes {cwd : Location} {m : String} {n : Option FileNode} (h : s.Separate)
    (hm : m ∈ s.dropped) : ¬ s.Writes cwd dir s.dirty (entryLocation cwd dir m) n := fun hn =>
  h.disjoint m hm (hn.entry h.dirtyNames (h.droppedNames m hm)).1

theorem complete_of_flush (hsep : s.Separate) (hs : s.dir = some dir) (hdir : fs.HasDirectory dir)
    (h : s.flush fs = (.ok (), s', fs')) : Complete dir s fs' := by
  obtain ⟨-, fs1, hremove, hwrite⟩ := flush_eq_ok hs h
  obtain ⟨hremoved, hgone⟩ := removeFiles_spec hdir hremove
  obtain ⟨hwritten, hnew⟩ := writeFiles_spec (hremoved.hasDirectory hdir) hwrite
  rw [hremoved.cwd] at hwritten hnew
  refine ⟨fun m hm => ?_, fun m hm e he => ?_⟩
  · rw [hwritten.cwd, hremoved.cwd, hwritten.same fun _ => hsep.not_writes hm]
    exact hgone rfl m hm
  · rw [hwritten.cwd, hremoved.cwd]
    exact (hnew hsep.dirtyNames rfl m hm e he).1

/-- **What is still on the lists after a flush that failed**: no removal, and the writes only if they
had not begun. -/
theorem of_flush_error (h : s.flush fs = (.error r, s', fs')) :
    s' = { s with dropped := [] } ∨ s' = { s with dirty := [], dropped := [] } := by
  unfold flush at h
  split at h
  · cases h
  split at h
  · cases h
    exact .inl rfl
  · rename_i fs1 _
    cases hwrite : s.writeFiles ‹_› s.dirty fs1 with
    | mk r fs2 =>
      rw [hwrite] at h
      cases h
      exact .inr rfl

/-- **A second flush** removes nothing, and so completes what the first one was to do only if there was
nothing left to remove, and if the writes had not begun or are in place already. -/
theorem retried_flush_complete_iff {opened retried : CacheStore} {fs₀ fs₁ fs₂ fs₃ : FileSystem}
    {actions : List Action} (hopen : openDirectory dir fs₀ = (.ok opened, fs))
    (hactions : ∀ action ∈ actions, action.Proper) (hs : s = Action.run fs opened actions)
    (hfail : s.flush fs = (.error r, s', fs₁))
    (hdir : fs₂.HasDirectory dir) (hretry : s'.flush fs₂ = (.ok (), retried, fs₃)) :
    Complete dir s fs₃ ↔
      (∀ m ∈ s.dropped, fs₂.get? (entryLocation fs₂.cwd dir m) = none) ∧
        (s'.dirty = s.dirty ∨ ∀ m ∈ s.dirty, ∀ e, s.get? m = some e →
          fs₂.get? (entryLocation fs₂.cwd dir m) = some (.file (e.encode m))) := by
  obtain ⟨rfl, -⟩ := of_openDirectory hopen
  have hstep : InStep dir fs s := hs ▸ (InStep.opened dir fs).run hactions
  have hsep := hstep.separate
  rcases of_flush_error hfail with rfl | rfl
  · -- the writes are all made, and touch none of the files that were to be removed
    have hsep' : Separate { s with dropped := [] } :=
      ⟨hsep.dirtyNames, List.forall_mem_nil _, List.forall_mem_nil _⟩
    have hcomplete := complete_of_flush hsep' hstep.dir_eq hdir hretry
    obtain ⟨-, fs', hremove, hwrite⟩ := flush_eq_ok (s := { s with dropped := [] }) hstep.dir_eq hretry
    cases hremove
    obtain ⟨hwritten, -⟩ := writeFiles_spec hdir hwrite
    have hsame : ∀ m ∈ s.dropped, fs₃.get? (entryLocation fs₃.cwd dir m) =
        fs₂.get? (entryLocation fs₂.cwd dir m) := by
      intro m hm
      rw [hwritten.cwd, hwritten.same fun _ => hsep.not_writes hm]
    refine ⟨fun h => ⟨fun m hm => (hsame m hm).symm.trans (h.removed m hm), .inl rfl⟩, fun h => ?_⟩
    exact ⟨fun m hm => (hsame m hm).trans (h.1 m hm), hcomplete.written⟩
  · -- nothing is left to be done
    obtain ⟨-, fs', hremove, hwrite⟩ :=
      flush_eq_ok (s := { s with dirty := [], dropped := [] }) hstep.dir_eq hretry
    cases hremove
    cases hwrite
    refine ⟨fun h => ⟨h.removed, .inr h.written⟩, fun h => ⟨h.1, fun m hm e he => ?_⟩⟩
    rcases h.2 with hdirty | hwritten
    · rw [← hdirty] at hm
      exact absurd hm List.not_mem_nil
    · exact hwritten m hm e he

/-- A directory in the place of an entry. -/
def blockedFiles : FileSystem where
  cwd := ["", ""]
  nodes := [(["", "", "cache"], .directory), (["", "", "cache", "A.tcache"], .directory)]

/-- The directory out of the way again. -/
def unblock (fs : FileSystem) : FileSystem := fs.erase ["", "", "cache", "A.tcache"]

def twoInserts : List Action :=
  [.insert "A" "def main = 1" greekEntry.image, .insert "B" "def main = 2" greekEntry.image]

/-- A store with two entries to be written. -/
def twoEntries : CacheStore := Action.run blockedFiles { dir := some "cache" } twoInserts

theorem proper_twoInserts : ∀ action ∈ twoInserts, action.Proper := by
  have himage := storable_greekEntry.image
  have hsize := storable_greekEntry.size
  simp only [twoInserts, List.forall_mem_cons, Action.Proper]
  exact ⟨⟨by decide, himage, hsize⟩, ⟨by decide, himage, hsize⟩, by simp⟩

/-- The first entry cannot be put into its place. The second one is then not written, not even when
the first can be. -/
theorem failed_flush_forgets :
    let first := twoEntries.flush blockedFiles
    let second := first.2.1.flush (unblock first.2.2)
    let unhindered := twoEntries.flush (unblock blockedFiles)
    first.1.isOk = false ∧ second.1.isOk ∧ unhindered.1.isOk ∧
      Complete "cache" twoEntries unhindered.2.2 ∧ ¬ Complete "cache" twoEntries second.2.2 := by
  intro first second unhindered
  have hstep := (InStep.opened "cache" blockedFiles).run proper_twoInserts
  have hunhindered : unhindered.1.isOk := by decide +kernel
  refine ⟨by decide +kernel, by decide +kernel, hunhindered, ?_, fun h => ?_⟩
  · obtain ⟨⟨⟩, hok⟩ := exists_ok_of_isOk hunhindered
    exact complete_of_flush hstep.separate rfl (.inr (by decide +kernel)) (Prod.ext hok rfl)
  · have hmissing : second.2.2.get? (entryLocation second.2.2.cwd "cache" "B") = none := by
      decide +kernel
    have hdirty : "B" ∈ twoEntries.dirty := by decide +kernel
    obtain ⟨e, he⟩ := hstep.known "B" hdirty
    have hwritten := h.written "B" hdirty e he
    rw [hmissing] at hwritten
    cases hwritten

theorem retried_flush_complete_iff_blockedFiles :
    ∃ r s' fs₁ retried fs₃, twoEntries.flush blockedFiles = (.error r, s', fs₁) ∧
      s'.flush (unblock fs₁) = (.ok (), retried, fs₃) ∧
      (Complete "cache" twoEntries fs₃ ↔
        (∀ m ∈ twoEntries.dropped,
          (unblock fs₁).get? (entryLocation (unblock fs₁).cwd "cache" m) = none) ∧
        (s'.dirty = twoEntries.dirty ∨ ∀ m ∈ twoEntries.dirty, ∀ e, twoEntries.get? m = some e →
          (unblock fs₁).get? (entryLocation (unblock fs₁).cwd "cache" m) =
            some (.file (e.encode m)))) := by
  have hopen : openDirectory "cache" blockedFiles = (.ok { dir := some "cache" }, blockedFiles) :=
    openDirectory_of_hasDirectory (.inr (by decide +kernel))
  have hfail : (twoEntries.flush blockedFiles).1.isOk = false := by decide +kernel
  have hretry : ((twoEntries.flush blockedFiles).2.1.flush
      (unblock (twoEntries.flush blockedFiles).2.2)).1.isOk := by decide +kernel
  have hdir : (unblock (twoEntries.flush blockedFiles).2.2).isDirectory "cache" := by decide +kernel
  obtain ⟨r, hr⟩ : ∃ r, (twoEntries.flush blockedFiles).1 = .error r := by
    cases h : (twoEntries.flush blockedFiles).1 with
    | error r => exact ⟨r, rfl⟩
    | ok u =>
      rw [h] at hfail
      cases hfail
  obtain ⟨⟨⟩, hok⟩ := exists_ok_of_isOk hretry
  have hfirst : twoEntries.flush blockedFiles =
      (.error r, (twoEntries.flush blockedFiles).2.1, (twoEntries.flush blockedFiles).2.2) :=
    Prod.ext hr rfl
  have hsecond : (twoEntries.flush blockedFiles).2.1.flush
      (unblock (twoEntries.flush blockedFiles).2.2) = (.ok (), _, _) := Prod.ext hok rfl
  exact ⟨r, _, _, _, _, hfirst, hsecond, retried_flush_complete_iff hopen proper_twoInserts rfl hfirst
    (.inr hdir) hsecond⟩

end CacheStore

end GraphReduction
