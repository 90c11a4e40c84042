import GraphReduction.Proofs.Cache.Directory
import GraphReduction.Proofs.Cache.History
import GraphReduction.Proofs.Core.Induction
import GraphReduction.Proofs.Image.Decoded

/-!
# A flush makes memory and disk agree

* `CacheEntry.decode_encode`: an entry is read back from its file.
* `CacheStore.removeFiles_spec`, `writeFiles_spec`: **what a flush does to the files**, if it succeeds or fails.
* `CacheStore.InStep`: every entry in memory is to be written, or is what the file of its module holds.
* `InStep.step`, `InStep.run`: **what is done with a store keeps it in step with its directory.**
* `reopened_lookup`: **after a flush a store that is opened anew answers as the flushed one does.**
-/

namespace GraphReduction

open List
open FileSystem Decoder Fallible

/-!
## Entries
-/

/-- An entry that can be kept in a file. -/
structure CacheEntry.Storable (e : CacheEntry) : Prop where
  fingerprint : e.fingerprint.bytes.length = Fingerprint.size
  image : e.image.WellFormed
  /-- The file fits into a machine with 64-bit addresses. -/
  size : e.image.encode.length < UInt64.size

theorem CacheEntry.decode_encode {e : CacheEntry} {module : String} (h : e.Storable)
    (hname : Addressable module) : decode module (e.encode module) = .ok e := by
  have hword : Canonical (word 2) version (Binary.littleEndian 2 version) :=
    canonical_word (by decide)
  have htake := canonical_take e.fingerprint.bytes
  rw [h.fingerprint] at htake
  have hbytes := (canonical_take e.image.encode).reads []
  rw [append_nil] at hbytes
  obtain ⟨c, hc⟩ : ∃ c, decoder module ⟨e.encode module, 0⟩ = .ok (e, c) := by
    unfold decoder encode
    simp only [append_assoc]
    rw [bind_of_ok ((canonical_take magic).reads _ _), if_neg (by simp),
      bind_of_ok (hword.reads _ _), if_neg (by simp), bind_of_ok (htake.reads _ _),
      bind_of_ok ((canonical_text hname).reads _ _), if_neg (by simp),
      bind_of_ok ((canonical_varint h.size).reads _ _), bind_of_ok (hbytes _),
      h.image.decode_encode]
    exact ⟨_, rfl⟩
  unfold decode StateT.run
  rw [hc]
  rfl

namespace CacheStore

variable {cwd : Location} {dir : String} {fs fs' : FileSystem} {s s' : CacheStore}
  {module module' : String} {modules : List String} {bytes : Bytes} {e : CacheEntry}

/-!
## The files of a flush
-/

/-- Where the entry of a module is. -/
def entryLocation (cwd : Location) (dir module : String) : Location :=
  locationOf cwd dir ++ [fileName module]

/-- Where the entry of a module is written first. -/
def temporaryLocation (cwd : Location) (dir module : String) : Location :=
  locationOf cwd dir ++ [fileName module ++ ".tmp"]

theorem entryLocation_ne_temporaryLocation :
    entryLocation cwd dir module ≠ temporaryLocation cwd dir module' := by
  intro h
  have hlast := congrArg (fun name : String => name.toList.getLast?)
    (singleton_inj.1 (append_cancel_left h))
  simp [fileName] at hlast

theorem fileName_of_noSlash (h : '/' ∉ module.toList) : fileName module = module ++ ".tcache" := by
  have hmap : (module.toList.map fun c => if c = '/' then '_' else c) = module.toList := by
    refine (map_congr_left fun c hc => ?_).trans module.toList.map_id
    exact if_neg fun hslash : c = '/' => h (hslash ▸ hc)
  rw [fileName, hmap, String.ofList_toList]

theorem eq_of_entryLocation (hm : '/' ∉ module.toList) (hm' : '/' ∉ module'.toList)
    (h : entryLocation cwd dir module = entryLocation cwd dir module') : module = module' := by
  have hfile := singleton_inj.1 (append_cancel_left h)
  rw [fileName_of_noSlash hm, fileName_of_noSlash hm'] at hfile
  exact (String.append_left_inj _).1 hfile

theorem contentAt_eq_ok {at' : Location} (h : fs.contentAt at' = .ok bytes) :
    fs.get? at' = some (.file bytes) := by
  unfold contentAt at h
  split at h
  · cases h
  · cases h
  · cases h
    assumption

/-- **A removal** leaves nothing at the place of the entry, and everything else as it is. -/
theorem updates_removeFile (hdir : fs.HasDirectory dir)
    (h : fs.removeFile (joinPath dir (fileName module)) = .ok fs') :
    Updates (fun l n => l = entryLocation fs.cwd dir module ∧ n = none) fs fs' ∧
      fs'.get? (entryLocation fs.cwd dir module) = none := by
  rw [removeFile_joinPath hdir (plainName_fileName module)] at h
  obtain ⟨at', hat, h⟩ := exists_ok_of_bind h
  obtain ⟨content, hcontent, h⟩ := exists_ok_of_bind h
  cases h
  obtain rfl : at' = entryLocation fs.cwd dir module := (place_eq_ok hat).1
  have hfile : fs.get? (entryLocation fs.cwd dir module) ≠ some .directory := by
    rw [contentAt_eq_ok hcontent]
    exact fun h => by cases h
  exact ⟨.erase hfile, get?_erase_self hfile⟩

theorem get?_of_removeFile_notFound (hdir : fs.HasDirectory dir)
    (h : fs.removeFile (joinPath dir (fileName module)) = .error .notFound) :
    fs.get? (entryLocation fs.cwd dir module) = none := by
  rw [removeFile_joinPath hdir (plainName_fileName module)] at h
  cases hat : place fs.cwd dir (fileName module) with
  | error r =>
    rw [hat] at h
    cases h
    exact absurd hat place_ne_notFound
  | ok at' =>
    obtain rfl : at' = entryLocation fs.cwd dir module := (place_eq_ok hat).1
    simp only [hat, bind, Except.bind, contentAt] at h
    cases hget : fs.get? (entryLocation fs.cwd dir module) with
    | none => rfl
    | some n =>
      rw [hget] at h
      cases n <;> cases h

/-- What removing the entries of modules may leave at a place. -/
def Removes (cwd : Location) (dir : String) (modules : List String) (l : Location)
    (n : Option FileNode) : Prop :=
  n = none ∧ ∃ m ∈ modules, l = entryLocation cwd dir m

/-- **The removals of a flush.** If all of them are made, no entry of these modules is left. -/
theorem removeFiles_spec {r : Except CacheError Unit} (hdir : fs.HasDirectory dir)
    (h : removeFiles dir modules fs = (r, fs')) :
    Updates (Removes fs.cwd dir modules) fs fs' ∧
      (r = .ok () → ∀ m ∈ modules, fs'.get? (entryLocation fs.cwd dir m) = none) := by
  induction modules generalizing fs with
  | nil =>
    cases h
    exact ⟨.refl _ _, fun _ => forall_mem_nil _⟩
  | cons module modules ih =>
    -- one removal, and what the others do after it
    have hcons : ∀ {fs1 : FileSystem},
        Updates (fun l n => l = entryLocation fs.cwd dir module ∧ n = none) fs fs1 →
        fs1.get? (entryLocation fs.cwd dir module) = none → removeFiles dir modules fs1 = (r, fs') →
        Updates (Removes fs.cwd dir (module :: modules)) fs fs' ∧
          (r = .ok () → ∀ m ∈ module :: modules, fs'.get? (entryLocation fs.cwd dir m) = none) := by
      intro fs1 hfirst hnone h
      obtain ⟨hrest, hgone⟩ := ih (hfirst.hasDirectory hdir) h
      rw [hfirst.cwd] at hrest hgone
      refine ⟨(hfirst.mono ?_).trans (hrest.mono ?_), fun hr => forall_mem_cons.2 ⟨?_, hgone hr⟩⟩
      · exact fun l n hl => ⟨hl.2, module, mem_cons_self, hl.1⟩
      · rintro l n ⟨hn, m, hm, hl⟩
        exact ⟨hn, m, mem_cons_of_mem _ hm, hl⟩
      · rcases hrest.places (entryLocation fs.cwd dir module) with hsame | ⟨hnone', -⟩
        · rw [hsame, hnone]
        · exact hnone'
    unfold removeFiles at h
    simp only at h
    split at h
    · rename_i hremove
      obtain ⟨hfirst, hnone⟩ := updates_removeFile hdir hremove
      exact hcons hfirst hnone h
    · rename_i hremove
      exact hcons (.refl _ _) (get?_of_removeFile_notFound hdir hremove) h
    · cases h
      exact ⟨.refl _ _, fun h => by cases h⟩

/-- **A write** may leave its temporary file. If it succeeds, the new file is in its place. -/
theorem writeAtomically_spec {r : Except CacheError Unit} (hdir : fs.HasDirectory dir)
    (h : writeAtomically (joinPath dir (fileName module)) bytes fs = (r, fs')) :
    Updates (fun l n => l = temporaryLocation fs.cwd dir module ∨
      l = entryLocation fs.cwd dir module ∧ n = some (.file bytes)) fs fs' ∧
    (r = .ok () → fs'.get? (entryLocation fs.cwd dir module) = some (.file bytes) ∧
      place fs.cwd dir (fileName module) = .ok (entryLocation fs.cwd dir module)) := by
  unfold writeAtomically at h
  simp only [joinPath_append] at h
  split at h
  · cases h
    exact ⟨.refl _ _, fun h => by cases h⟩
  rename_i fs1 hwrite
  -- the temporary file
  rw [write_joinPath hdir (plainName_temporary module)] at hwrite
  obtain ⟨at1, hat1, hwrite⟩ := exists_ok_of_bind hwrite
  obtain rfl : at1 = temporaryLocation fs.cwd dir module := (place_eq_ok hat1).1
  unfold putFile at hwrite
  split at hwrite
  · cases hwrite
  rename_i htemporary
  cases hwrite
  have hput := Updates.put htemporary (.file bytes)
  have hget1 := get?_put_self (n := .file bytes) htemporary
  have hdir1 := hput.hasDirectory hdir
  split at h
  · cases h
    exact ⟨hput.mono fun l n hl => .inl hl.1, fun h => by cases h⟩
  rename_i fs2 hrename
  cases h
  -- it is moved into place
  rw [rename_joinPath hdir1 (plainName_fileName module),
    read_joinPath hdir1 (plainName_temporary module),
    removeFile_joinPath hdir1 (plainName_temporary module), hput.cwd, hat1] at hrename
  simp only [bind, Except.bind, contentAt, hget1] at hrename
  obtain ⟨at2, hat2, hrename⟩ := exists_ok_of_bind hrename
  obtain rfl : at2 = entryLocation fs.cwd dir module := (place_eq_ok hat2).1
  split at hrename
  · cases hrename
  rename_i hentry
  cases hrename
  set fs1 := fs.put (temporaryLocation fs.cwd dir module) (.file bytes)
  have hfile1 : fs1.get? (temporaryLocation fs.cwd dir module) ≠ some .directory := by
    rw [hget1]
    exact fun h => by cases h
  have herase := Updates.erase hfile1
  have hentry2 : (fs1.erase (temporaryLocation fs.cwd dir module)).get?
      (entryLocation fs.cwd dir module) ≠ some .directory := by
    rw [herase.same fun _ hl => entryLocation_ne_temporaryLocation hl.1]
    exact hentry
  refine ⟨((hput.mono ?_).trans (herase.mono ?_)).trans ((Updates.put hentry2 _).mono ?_),
    fun _ => ⟨get?_put_self hentry2, hat2⟩⟩
  · exact fun l n hl => .inl hl.1
  · exact fun l n hl => .inl hl.1
  · exact fun l n hl => .inr hl

/-- What writing the entries of modules may leave at a place. -/
def Writes (s : CacheStore) (cwd : Location) (dir : String) (modules : List String) (l : Location)
    (n : Option FileNode) : Prop :=
  ∃ m ∈ modules, l = temporaryLocation cwd dir m ∨
    l = entryLocation cwd dir m ∧ ∃ e, s.get? m = some e ∧ n = some (.file (e.encode m))

theorem Writes.entry {n : Option FileNode} (hmodules : ∀ m ∈ modules, '/' ∉ m.toList)
    (hm : '/' ∉ module.toList) (h : s.Writes cwd dir modules (entryLocation cwd dir module) n) :
    module ∈ modules ∧ ∃ e, s.get? module = some e ∧ n = some (.file (e.encode module)) := by
  obtain ⟨m, hmem, h | ⟨h, hn⟩⟩ := h
  · exact absurd h entryLocation_ne_temporaryLocation
  · rw [eq_of_entryLocation hm (hmodules m hmem) h]
    exact ⟨hmem, hn⟩

/-- **The writes of a flush.** If all of them are made, the entries of these modules are in their files. -/
theorem writeFiles_spec {r : Except CacheError Unit} (hdir : fs.HasDirectory dir)
    (h : s.writeFiles dir modules fs = (r, fs')) :
    Updates (s.Writes fs.cwd dir modules) fs fs' ∧
      ((∀ m ∈ modules, '/' ∉ m.toList) → r = .ok () → ∀ m ∈ modules, ∀ e, s.get? m = some e →
        fs'.get? (entryLocation fs.cwd dir m) = some (.file (e.encode m)) ∧
          place fs.cwd dir (fileName m) = .ok (entryLocation fs.cwd dir m)) := by
  induction modules generalizing fs with
  | nil =>
    cases h
    exact ⟨.refl _ _, fun _ _ => forall_mem_nil _⟩
  | cons module modules ih =>
    have htail : ∀ l n, s.Writes fs.cwd dir modules l n → s.Writes fs.cwd dir (module :: modules) l n :=
      fun l n ⟨m, hm, hl⟩ => ⟨m, mem_cons_of_mem _ hm, hl⟩
    unfold writeFiles at h
    split at h
    · rename_i hnone
      obtain ⟨hrest, hwritten⟩ := ih hdir h
      refine ⟨hrest.mono htail, fun hmodules hr => forall_mem_cons.2
        ⟨fun e he => ?_, hwritten (forall_mem_cons.1 hmodules).2 hr⟩⟩
      rw [hnone] at he
      cases he
    · rename_i e he
      have hhead : ∀ l n, (l = temporaryLocation fs.cwd dir module ∨
          l = entryLocation fs.cwd dir module ∧ n = some (.file (e.encode module))) →
          s.Writes fs.cwd dir (module :: modules) l n :=
        fun l n hl => ⟨module, mem_cons_self, hl.imp_right fun hl => ⟨hl.1, e, he, hl.2⟩⟩
      split at h
      · rename_i fs1 hwrite
        obtain ⟨hfirst, hput⟩ := writeAtomically_spec hdir hwrite
        obtain ⟨hget, hplace⟩ := hput rfl
        obtain ⟨hrest, hwritten⟩ := ih (hfirst.hasDirectory hdir) h
        rw [hfirst.cwd] at hrest hwritten
        refine ⟨(hfirst.mono hhead).trans (hrest.mono htail), fun hmodules hr => ?_⟩
        obtain ⟨hmodule, hmodules⟩ := forall_mem_cons.1 hmodules
        refine forall_mem_cons.2 ⟨fun e' he' => ⟨?_, hplace⟩, hwritten hmodules hr⟩
        obtain rfl := Option.some.inj (he.symm.trans he')
        rcases hrest.places (entryLocation fs.cwd dir module) with hsame | hnew
        · rw [hsame, hget]
        · obtain ⟨-, e', he', hnew⟩ := hnew.entry hmodules hmodule
          obtain rfl := Option.some.inj (he.symm.trans he')
          exact hnew
      · rename_i hwrite
        cases h
        exact ⟨(writeAtomically_spec hdir hwrite).1.mono hhead, fun _ h => by cases h⟩

/-!
## Stores in step with their directory
-/

theorem get?_eraseEntry (m : String) :
    (s.eraseEntry module).get? m = if m = module then none else s.get? m := by
  simp only [get?, eraseEntry, lookup_filter_ne, beq_iff_eq]

theorem get?_putEntry (m : String) :
    (s.putEntry module e).get? m = if m = module then some e else s.get? m := by
  rw [get?, putEntry, lookup_cons]
  by_cases hm : m = module
  · rw [if_pos hm, hm, beq_self_eq_true]
  · rw [if_neg hm, beq_eq_false_iff_ne.2 hm]
    exact (get?_eraseEntry m).trans (if_neg hm)

/-- **A store in step with its directory.** An entry in memory is to be written, or it is what the
file of its module holds, and its file is not to be removed. -/
structure InStep (dir : String) (fs : FileSystem) (s : CacheStore) : Prop where
  dir_eq : s.dir = some dir
  dirtyNames : ∀ m ∈ s.dirty, '/' ∉ m.toList
  droppedNames : ∀ m ∈ s.dropped, '/' ∉ m.toList
  known : ∀ m ∈ s.dirty, ∃ e, s.get? m = some e
  kept : ∀ m e, s.get? m = some e → '/' ∉ m.toList ∧ m ∉ s.dropped
  stored : ∀ m e, s.get? m = some e →
    m ∈ s.dirty ∧ e.Storable ∨ m ∉ s.dirty ∧ s.readFile fs m = some (some e)

namespace InStep

theorem opened (dir : String) (fs : FileSystem) : InStep dir fs { dir := some dir } where
  dir_eq := rfl
  dirtyNames _ hm := absurd hm not_mem_nil
  droppedNames _ hm := absurd hm not_mem_nil
  known _ hm := absurd hm not_mem_nil
  kept _ _ he := by cases he
  stored _ _ he := by cases he

/-- The entry put is dirty, so its old file no longer counts. -/
theorem putDirty (h : InStep dir fs s) (hmodule : '/' ∉ module.toList) (he : e.Storable) :
    InStep dir fs (s.putDirty module e) := by
  have hget : ∀ m, (s.putDirty module e).get? m = if m = module then some e else s.get? m :=
    get?_putEntry
  have hdirty : ∀ m, m ∈ (s.putDirty module e).dirty ↔ m = module ∨ m ∈ s.dirty :=
    fun _ => mem_insertName
  have hdropped : ∀ m, m ∈ (s.putDirty module e).dropped ↔ m ∈ s.dropped ∧ m ≠ module := by
    intro m
    simp [CacheStore.putDirty]
  refine ⟨h.dir_eq, fun m hm => ?_, fun m hm => ?_, fun m hm => ?_, fun m e' hm => ?_,
    fun m e' hm => ?_⟩
  · rcases (hdirty m).1 hm with rfl | hm
    · exact hmodule
    · exact h.dirtyNames m hm
  · exact h.droppedNames m ((hdropped m).1 hm).1
  · rw [hget]
    split
    · exact ⟨e, rfl⟩
    · exact h.known m (((hdirty m).1 hm).resolve_left ‹_›)
  · rw [hdropped]
    rw [hget] at hm
    split at hm
    · rename_i heq
      exact ⟨heq ▸ hmodule, fun hm' => hm'.2 heq⟩
    · exact (h.kept m e' hm).imp_right fun hm hm' => hm hm'.1
  · rw [hget] at hm
    rw [hdirty]
    split at hm
    · cases hm
      exact .inl ⟨.inl ‹_›, he⟩
    · rename_i hne
      rcases h.stored m e' hm with ⟨hm, he'⟩ | ⟨hm, hread⟩
      · exact .inl ⟨.inr hm, he'⟩
      · exact .inr ⟨not_or.2 ⟨hne, hm⟩, hread⟩

/-- A dropped module has no entry left in memory. -/
theorem invalidate (h : InStep dir fs s) (hmodule : '/' ∉ module.toList) :
    InStep dir fs (s.invalidate module) := by
  have hget : ∀ m, (s.invalidate module).get? m = if m = module then none else s.get? m :=
    get?_eraseEntry
  have hdirty : ∀ m, m ∈ (s.invalidate module).dirty ↔ m ∈ s.dirty ∧ m ≠ module := by
    intro m
    simp [CacheStore.invalidate]
  have hdropped : ∀ m, m ∈ (s.invalidate module).dropped ↔ m = module ∨ m ∈ s.dropped :=
    fun _ => mem_insertName
  -- an entry that is left is one of another module
  have hleft : ∀ m e, (s.invalidate module).get? m = some e → m ≠ module ∧ s.get? m = some e := by
    intro m e hm
    rw [hget] at hm
    split at hm
    · cases hm
    · exact ⟨‹_›, hm⟩
  refine ⟨h.dir_eq, fun m hm => h.dirtyNames m ((hdirty m).1 hm).1, fun m hm => ?_, fun m hm => ?_,
    fun m e hm => ?_, fun m e hm => ?_⟩
  · rcases (hdropped m).1 hm with rfl | hm
    · exact hmodule
    · exact h.droppedNames m hm
  · obtain ⟨hm, hne⟩ := (hdirty m).1 hm
    rw [hget, if_neg hne]
    exact h.known m hm
  · obtain ⟨hne, hm⟩ := hleft m e hm
    rw [hdropped]
    exact (h.kept m e hm).imp_right fun hm => not_or.2 ⟨hne, hm⟩
  · obtain ⟨hne, hm⟩ := hleft m e hm
    rw [hdirty]
    rcases h.stored m e hm with ⟨hm, he⟩ | ⟨hm, hread⟩
    · exact .inl ⟨⟨hm, hne⟩, he⟩
    · exact .inr ⟨fun hm' => hm hm'.1, hread⟩

/-- An entry read in is what its file holds. -/
theorem refresh (h : InStep dir fs s) (hmodule : '/' ∉ module.toList) :
    InStep dir fs (s.refresh fs module) := by
  unfold CacheStore.refresh
  split
  · exact h
  rename_i hnew
  obtain ⟨hnone, hnotDropped⟩ := not_or.1 hnew
  split
  · exact h
  · refine ⟨h.dir_eq, h.dirtyNames, fun m hm => ?_, h.known, fun m e hm => ?_, h.stored⟩
    · rcases mem_insertName.1 hm with rfl | hm
      · exact hmodule
      · exact h.droppedNames m hm
    · rw [mem_insertName]
      refine (h.kept m e hm).imp_right fun hm' => not_or.2 ⟨?_, hm'⟩
      rintro rfl
      exact hnone (Option.isSome_iff_exists.2 ⟨e, hm⟩)
  · rename_i e he
    have hclean : module ∉ s.dirty := fun hm =>
      hnone (Option.isSome_iff_exists.2 (h.known module hm))
    refine ⟨h.dir_eq, h.dirtyNames, h.droppedNames, fun m hm => ?_, fun m e' hm => ?_,
      fun m e' hm => ?_⟩
    · rw [get?_putEntry]
      split
      · exact ⟨e, rfl⟩
      · exact h.known m hm
    · rw [get?_putEntry] at hm
      split at hm
      · rename_i heq
        rw [heq]
        exact ⟨hmodule, hnotDropped⟩
      · exact h.kept m e' hm
    · rw [get?_putEntry] at hm
      split at hm
      · rename_i heq
        cases hm
        rw [heq]
        exact .inr ⟨hclean, he⟩
      · exact h.stored m e' hm

theorem lookup (h : InStep dir fs s) (hmodule : '/' ∉ module.toList) (source : String) :
    InStep dir fs (s.lookup fs module source).2 := by
  have hrefresh := h.refresh hmodule
  unfold CacheStore.lookup
  simp only
  split
  · exact hrefresh
  split
  · exact hrefresh
  · exact hrefresh.invalidate hmodule

theorem merge (h : InStep dir fs s) {other : CacheStore}
    (hother : ∀ entry ∈ other.entries, '/' ∉ entry.1.toList ∧ entry.2.Storable) :
    InStep dir fs (s.merge other) := by
  unfold CacheStore.merge
  revert hother
  induction other.entries with
  | nil => exact fun _ => h
  | cons entry entries ih =>
    intro hother
    obtain ⟨hentry, hentries⟩ := forall_mem_cons.1 hother
    exact (ih hentries).putDirty hentry.1 hentry.2

end InStep

/-!
## After a flush
-/

/-- An entry is read exactly when its file is there and decodes. -/
theorem readFile_eq_some (hs : s.dir = some dir) (hdir : fs.HasDirectory dir) :
    s.readFile fs module = some (some e) ↔
      ∃ bytes, place fs.cwd dir (fileName module) = .ok (entryLocation fs.cwd dir module) ∧
        fs.get? (entryLocation fs.cwd dir module) = some (.file bytes) ∧
        CacheEntry.decode module bytes = .ok e := by
  have hpath : s.entryPath module = some (joinPath dir (fileName module)) := by
    rw [entryPath, hs]
    rfl
  simp only [readFile, hpath]
  rw [read_joinPath hdir (plainName_fileName module)]
  constructor
  · intro h
    split at h
    · rename_i bytes hread
      obtain ⟨at', hat, hread⟩ := exists_ok_of_bind hread
      obtain rfl : at' = entryLocation fs.cwd dir module := (place_eq_ok hat).1
      exact ⟨bytes, hat, contentAt_eq_ok hread, eq_ok_of_toOption (Option.some.inj h)⟩
    · cases h
    · cases h
  · rintro ⟨bytes, hat, hget, hdecode⟩
    simp only [hat, bind, Except.bind, contentAt, hget, hdecode]
    rfl

theorem addressable_of_place {at' : Location} (hm : '/' ∉ module.toList)
    (h : place cwd dir (fileName module) = .ok at') : Addressable module := by
  have hsize := (place_eq_ok h).2
  rw [fileName_of_noSlash hm, String.utf8ByteSize_append] at hsize
  have hlt : nameLimit < UInt64.size := by decide
  unfold Addressable
  omega

theorem flush_eq_ok (hs : s.dir = some dir) (h : s.flush fs = (.ok (), s', fs')) :
    s' = { s with dirty := [], dropped := [] } ∧
      ∃ fs1, removeFiles dir s.dropped fs = (.ok (), fs1) ∧
        s.writeFiles dir s.dirty fs1 = (.ok (), fs') := by
  unfold flush at h
  split at h
  · rename_i hnone
    rw [hs] at hnone
    cases hnone
  rename_i hsome
  obtain rfl := Option.some.inj (hs.symm.trans hsome)
  split at h
  · cases h
  · rename_i fs1 hremove
    cases hwrite : s.writeFiles dir s.dirty fs1 with
    | mk r fs2 =>
      rw [hwrite] at h
      cases h
      exact ⟨rfl, fs1, hremove, hwrite⟩

/-- **A flush leaves nothing to be written or removed**, and every entry in memory is what the file of
its module holds. -/
theorem InStep.flush (h : InStep dir fs s) (hdir : fs.HasDirectory dir)
    (hflush : s.flush fs = (.ok (), s', fs')) :
    InStep dir fs' s' ∧ s'.dirty = [] ∧ s'.dropped = [] ∧ fs'.HasDirectory dir := by
  obtain ⟨rfl, fs1, hremove, hwrite⟩ := flush_eq_ok h.dir_eq hflush
  obtain ⟨hremoved, -⟩ := removeFiles_spec hdir hremove
  have hdir1 := hremoved.hasDirectory hdir
  obtain ⟨hwritten, hnew⟩ := writeFiles_spec hdir1 hwrite
  have hdir' := hwritten.hasDirectory hdir1
  rw [hremoved.cwd] at hwritten hnew
  refine ⟨⟨h.dir_eq, forall_mem_nil _, forall_mem_nil _,
    forall_mem_nil _, fun m e he => ⟨(h.kept m e he).1, not_mem_nil⟩,
    fun m e he => .inr ⟨not_mem_nil, ?_⟩⟩, rfl, rfl, hdir'⟩
  have hcwd : fs'.cwd = fs.cwd := hwritten.cwd.trans hremoved.cwd
  refine (readFile_eq_some h.dir_eq hdir').2 ?_
  rw [hcwd]
  obtain ⟨hm, hdropped⟩ := h.kept m e he
  rcases h.stored m e he with ⟨hdirty, hstorable⟩ | ⟨hdirty, hread⟩
  · obtain ⟨hget, hplace⟩ := hnew h.dirtyNames rfl m hdirty e he
    exact ⟨_, hplace, hget, CacheEntry.decode_encode hstorable (addressable_of_place hm hplace)⟩
  · -- neither the removals nor the writes touch the file of another module
    obtain ⟨bytes, hplace, hget, hdecode⟩ := (readFile_eq_some h.dir_eq hdir).1 hread
    refine ⟨bytes, hplace, ?_, hdecode⟩
    rw [hwritten.same fun n hn => hdirty (hn.entry h.dirtyNames hm).1, hremoved.same ?_, hget]
    rintro n ⟨-, m', hm', heq⟩
    rw [eq_of_entryLocation hm (h.droppedNames m' hm') heq] at hdropped
    exact hdropped hm'

/-- What a store finds for a module that it is not about to remove: its entry in memory, else that in
the file. -/
theorem get?_refresh (h : module ∉ s.dropped) :
    (s.refresh fs module).get? module = (s.get? module).or (s.readFile fs module).join := by
  unfold refresh
  cases hget : s.get? module with
  | some e => rw [if_pos (.inl rfl), hget]; rfl
  | none =>
    rw [if_neg (by simpa using h), Option.none_or]
    cases hread : s.readFile fs module with
    | none => exact hget
    | some found =>
      cases found with
      | none => exact hget
      | some e => exact (get?_putEntry module).trans (if_pos rfl)

theorem lookup_fst (s : CacheStore) (fs : FileSystem) (module source : String) :
    (s.lookup fs module source).1 = ((s.refresh fs module).get? module).bind fun e =>
      if e.fingerprint = .ofSource source then some e.image else none := by
  unfold lookup
  simp only
  split
  · rename_i hget
    rw [hget]
    rfl
  · rename_i e hget
    rw [hget, Option.bind_some]
    split <;> rfl

/-- What is done with a store between opening and flushing it. -/
inductive Action where
  | insert (module source : String) (image : Image)
  | lookup (module source : String)
  | invalidate (module : String)
  | merge (other : CacheStore)

namespace Action

/-- The store after an action. Files are only read. -/
def step (fs : FileSystem) (s : CacheStore) : Action → CacheStore
  | insert module source image => s.insert module source image
  | lookup module source => (s.lookup fs module source).2
  | invalidate module => s.invalidate module
  | merge other => s.merge other

/-- The store after a sequence of actions. -/
def run (fs : FileSystem) (s : CacheStore) (actions : List Action) : CacheStore :=
  actions.foldl (step fs) s

/-- An action on modules without a slash in their names that puts in nothing but well-formed images. -/
def Proper : Action → Prop
  | insert module _ image =>
    '/' ∉ module.toList ∧ image.WellFormed ∧ image.encode.length < UInt64.size
  | lookup module _ | invalidate module => '/' ∉ module.toList
  | merge other => ∀ entry ∈ other.entries, '/' ∉ entry.1.toList ∧ entry.2.Storable

end Action

theorem InStep.step {action : Action} (h : InStep dir fs s) (haction : action.Proper) :
    InStep dir fs (action.step fs s) := by
  cases action with
  | insert module source image =>
    obtain ⟨hmodule, himage, hsize⟩ := haction
    exact h.putDirty hmodule ⟨CacheEntry.length_digest _, himage, hsize⟩
  | lookup module source => exact h.lookup haction source
  | invalidate module => exact h.invalidate haction
  | merge other => exact h.merge haction

theorem InStep.run {actions : List Action} (h : InStep dir fs s)
    (hactions : ∀ action ∈ actions, action.Proper) : InStep dir fs (Action.run fs s actions) := by
  induction actions generalizing s with
  | nil => exact h
  | cons action actions ih =>
    obtain ⟨haction, hactions⟩ := forall_mem_cons.1 hactions
    exact ih (h.step haction) hactions

/-- **A flush makes memory and disk agree.** Let a store be opened on a directory, whatever is in it,
and let any sequence of actions follow. If then a flush succeeds, the directory can be opened anew, and
the new store finds for every module and source what the flushed store finds. -/
theorem reopened_lookup {opened flushed : CacheStore} {fs₀ : FileSystem} {actions : List Action}
    (hopen : openDirectory dir fs₀ = (.ok opened, fs))
    (hactions : ∀ action ∈ actions, action.Proper)
    (hflush : (Action.run fs opened actions).flush fs = (.ok (), flushed, fs')) :
    ∃ reopened, openDirectory dir fs' = (.ok reopened, fs') ∧
      ∀ module source,
        (reopened.lookup fs' module source).1 = (flushed.lookup fs' module source).1 := by
  obtain ⟨rfl, hdir⟩ := of_openDirectory hopen
  obtain ⟨hstep, hdirty, hdropped, hdir'⟩ := ((InStep.opened dir fs).run hactions).flush hdir hflush
  refine ⟨{ dir := some dir }, openDirectory_of_hasDirectory hdir', fun module source => ?_⟩
  rw [lookup_fst, lookup_fst, get?_refresh List.not_mem_nil,
    get?_refresh (by rw [hdropped]; exact List.not_mem_nil)]
  have hread : flushed.readFile fs' module = readFile { dir := some dir } fs' module := by
    simp only [readFile, entryPath, hstep.dir_eq]
  cases hget : flushed.get? module with
  | none =>
    rw [← hread]
    rfl
  | some e =>
    rcases hstep.stored module e hget with ⟨hmem, -⟩ | ⟨-, hfile⟩
    · rw [hdirty] at hmem
      exact absurd hmem List.not_mem_nil
    · rw [← hread, hfile]
      rfl

/-- A directory with a file that is no entry, and with the entry of a module. -/
def troubledFiles : FileSystem where
  cwd := ["", ""]
  nodes := [(["", "", "cache"], .directory), (["", "", "cache", "A.tcache"], .file [0x54, 0x52]),
    (["", "", "cache", "B.tcache"], .file (greekEntry.encode "B"))]

/-- The file that is no entry is met and replaced, an entry is found to be stale, and one that was
taken over is dropped again. -/
def troubledActions : List Action :=
  [.lookup "A" "def main = 1", .insert "A" "def main = 1" greekEntry.image, .lookup "B" "def main = 2",
    .merge { entries := [("C", greekEntry), ("D", greekEntry)] }, .invalidate "D"]

theorem storable_greekEntry : greekEntry.Storable where
  fingerprint := rfl
  image := by
    have hdecode : Image.decode greekEntry.image.encode = .ok greekEntry.image := by decide +kernel
    exact Image.wellFormed_of_decode (by decide +kernel) hdecode
  size := by decide +kernel

theorem reopened_lookup_troubledFiles :
    openDirectory "cache" troubledFiles = (.ok { dir := some "cache" }, troubledFiles) ∧
    (∀ action ∈ troubledActions, action.Proper) ∧
    ∃ flushed fs', (Action.run troubledFiles { dir := some "cache" } troubledActions).flush troubledFiles =
        (.ok (), flushed, fs') ∧ fs'.files.map Prod.fst = [["cache", "C.tcache"], ["cache", "A.tcache"]] ∧
      ∃ reopened, openDirectory "cache" fs' = (.ok reopened, fs') ∧
        ∀ module source,
          (reopened.lookup fs' module source).1 = (flushed.lookup fs' module source).1 := by
  have hopen : openDirectory "cache" troubledFiles = (.ok { dir := some "cache" }, troubledFiles) :=
    openDirectory_of_hasDirectory (.inr (by decide +kernel))
  have hstorable := storable_greekEntry
  have hproper : ∀ action ∈ troubledActions, action.Proper := by
    simp only [troubledActions, List.forall_mem_cons, Action.Proper]
    exact ⟨by decide, ⟨by decide, hstorable.image, hstorable.size⟩, by decide,
      ⟨⟨by decide, hstorable⟩, ⟨by decide, hstorable⟩, by simp⟩, by decide, by simp⟩
  have hok : ((Action.run troubledFiles { dir := some "cache" } troubledActions).flush
      troubledFiles).1.isOk := by decide +kernel
  have hfiles : ((Action.run troubledFiles { dir := some "cache" } troubledActions).flush
      troubledFiles).2.2.files.map Prod.fst = [["cache", "C.tcache"], ["cache", "A.tcache"]] := by
    decide +kernel
  cases hflush : (Action.run troubledFiles { dir := some "cache" } troubledActions).flush
    troubledFiles with
  | mk r rest =>
    obtain ⟨flushed, fs'⟩ := rest
    rw [hflush] at hok hfiles
    obtain ⟨⟨⟩, rfl⟩ := exists_ok_of_isOk hok
    exact ⟨hopen, hproper, flushed, fs', rfl, hfiles, reopened_lookup hopen hproper hflush⟩

end CacheStore

end GraphReduction
