import GraphReduction.Proofs.Cache.Flush

/-!
# What work on one module does to others

The file of a module is found by its name, in which slashes are replaced. Two names can so have one
file, and then work on one module can cost the other its entry. It never gives the other a wrong one, as
the entry in a file has the full name.
-/

namespace GraphReduction

open List
open FileSystem Decoder Fallible

/-!
## The name in an entry
-/

theorem Determines.exact {α : Type} {d : Decoder α} {bs rest rest' : Bytes} {P : α → Prop} {n n' : Nat}
    {a : α} (h : Determines d bs P) (hd : d ⟨bs ++ rest, n⟩ = .ok (a, ⟨rest', n'⟩)) :
    P a ∧ rest' = rest := by
  obtain ⟨hP, heq⟩ := h _ rest n a _ (prefix_refl _) hd
  exact ⟨hP, (append_cancel_left heq).symm⟩

namespace CacheEntry

/-- **An entry is read under the name that it was written for**, whatever its image is. -/
theorem module_of_decode {e e' : CacheEntry} {module module' : String}
    (hsize : e.fingerprint.bytes.length = Fingerprint.size)
    (h : decode module' (e.encode module) = .ok e') : module' = module := by
  obtain ⟨c, h⟩ := exists_of_run h
  unfold decoder encode at h
  simp only [append_assoc] at h
  rw [← hsize] at h
  obtain ⟨start, ⟨_, _⟩, hstart, h⟩ := bind_eq_ok.1 h
  obtain ⟨-, rfl⟩ := (determines_take magic).exact hstart
  obtain ⟨found, ⟨_, _⟩, hfound, h⟩ := bind_eq_ok.1 (check_eq_ok.1 h).2
  obtain ⟨-, rfl⟩ := (determines_word (by decide)).exact hfound
  obtain ⟨fingerprint, ⟨_, _⟩, hfingerprint, h⟩ := bind_eq_ok.1 (check_eq_ok.1 h).2
  obtain ⟨-, rfl⟩ := (determines_take e.fingerprint.bytes).exact hfingerprint
  obtain ⟨name, ⟨_, _⟩, hname, h⟩ := bind_eq_ok.1 h
  obtain ⟨hmodule, -⟩ := (determines_text module).exact hname
  exact (not_not.1 (check_eq_ok.1 h).1).symm.trans hmodule

theorem gives_decoder (module : String) :
    Gives (decoder module) fun e => e.fingerprint.bytes.length = Fingerprint.size := by
  refine (Gives.any _).bind fun _ _ => .check fun _ => (Gives.any _).bind fun _ _ => .check fun _ =>
    (gives_take _).bind fun fingerprint hfingerprint => ?_
  refine (Gives.any _).bind fun _ _ => .check fun _ => (Gives.any _).bind fun _ _ =>
    (Gives.any _).bind fun _ _ => (Gives.any _).bind fun _ _ => (Gives.any _).bind fun _ _ =>
    .check fun _ => .pure hfingerprint

theorem length_fingerprint_of_decode {e : CacheEntry} {module : String} {bytes : Bytes}
    (h : decode module bytes = .ok e) : e.fingerprint.bytes.length = Fingerprint.size := by
  obtain ⟨c, h⟩ := exists_of_run h
  exact gives_decoder module _ e c h

end CacheEntry

namespace CacheStore

variable {cwd : Location} {dir module module' source : String} {modules : List String}
  {fs fs' : FileSystem} {s s' : CacheStore} {bytes : Bytes} {e : CacheEntry}

/-!
## What a flush puts where
-/

/-- What work on a module may leave at a place: anything at that of its temporary file, and at that of
its entry nothing, or an entry of the module. -/
def LeftBy (cwd : Location) (dir module : String) (l : Location) (n : Option FileNode) : Prop :=
  l = temporaryLocation cwd dir module ∨ l = entryLocation cwd dir module ∧
    (n = none ∨ ∃ e : CacheEntry, e.fingerprint.bytes.length = Fingerprint.size ∧
      n = some (.file (e.encode module)))

/-- The same for several modules. -/
def LeftByAny (cwd : Location) (dir : String) (modules : List String) (l : Location)
    (n : Option FileNode) : Prop :=
  ∃ m ∈ modules, LeftBy cwd dir m l n

theorem LeftByAny.mono {modules' : List String} (hsub : modules ⊆ modules') (l : Location)
    (n : Option FileNode) (h : LeftByAny cwd dir modules l n) : LeftByAny cwd dir modules' l n := by
  obtain ⟨m, hm, hl⟩ := h
  exact ⟨m, hsub hm, hl⟩

/-- Fingerprints have 32 bytes. -/
def Fingerprinted (s : CacheStore) : Prop :=
  ∀ m e, s.get? m = some e → e.fingerprint.bytes.length = Fingerprint.size

/-- **What a flush does to the files**, whether it succeeds or fails. -/
theorem updates_flush (hs : s.dir = some dir) (hprints : s.Fingerprinted) (hdir : fs.HasDirectory dir) :
    Updates (LeftByAny fs.cwd dir (s.dropped ++ s.dirty)) fs (s.flush fs).2.2 := by
  unfold flush
  rw [hs]
  simp only
  split
  · rename_i heq
    exact (removeFiles_spec hdir heq).1.mono fun l n ⟨hn, m, hm, hl⟩ =>
      ⟨m, mem_append_left _ hm, .inr ⟨hl, .inl hn⟩⟩
  · rename_i fs1 heq
    have hremoved := (removeFiles_spec hdir heq).1
    have hwritten := (writeFiles_spec (hremoved.hasDirectory hdir)
      (rfl : s.writeFiles dir s.dirty fs1 = (_, _))).1
    rw [hremoved.cwd] at hwritten
    refine (hremoved.mono ?_).trans (hwritten.mono ?_)
    · exact fun l n ⟨hn, m, hm, hl⟩ => ⟨m, mem_append_left _ hm, .inr ⟨hl, .inl hn⟩⟩
    · exact fun l n ⟨m, hm, hl⟩ => ⟨m, mem_append_right _ hm, hl.imp_right fun ⟨hl, e, he, hn⟩ =>
        ⟨hl, .inr ⟨e, hprints m e he, hn⟩⟩⟩

/-!
## Work on one module
-/

/-- An operation on one module, or a flush of the store. -/
inductive Work where
  | lookup (source : String)
  | insert (source : String) (image : Image)
  | invalidate
  | flush

/-- The store and the files after one operation, whatever its answer is. -/
def Work.step (module : String) (at' : CacheStore × FileSystem) : Work → CacheStore × FileSystem
  | lookup source => ((at'.1.lookup at'.2 module source).2, at'.2)
  | insert source image => (at'.1.insert module source image, at'.2)
  | invalidate => (at'.1.invalidate module, at'.2)
  | flush => (at'.1.flush at'.2).2

def Work.run (module : String) (works : List Work) (at' : CacheStore × FileSystem) :
    CacheStore × FileSystem :=
  works.foldl (Work.step module) at'

/-- **Work that is confined to some modules**: only they have files to be written or removed, and only
their files have changed since `fs`. -/
structure Confined (dir : String) (modules : List String) (fs : FileSystem)
    (at' : CacheStore × FileSystem) : Prop where
  dir_eq : at'.1.dir = some dir
  fingerprints : at'.1.Fingerprinted
  dropped : at'.1.dropped ⊆ modules
  dirty : at'.1.dirty ⊆ modules
  updates : Updates (LeftByAny fs.cwd dir modules) fs at'.2

theorem Fingerprinted.putEntry (h : s.Fingerprinted)
    (he : e.fingerprint.bytes.length = Fingerprint.size) : (s.putEntry module e).Fingerprinted := by
  intro m e' hm
  rw [get?_putEntry] at hm
  split at hm
  · cases hm
    exact he
  · exact h m e' hm

theorem Fingerprinted.eraseEntry (h : s.Fingerprinted) : (s.eraseEntry module).Fingerprinted := by
  intro m e' hm
  rw [get?_eraseEntry] at hm
  split at hm
  · cases hm
  · exact h m e' hm

theorem insertName_subset (hmodule : module ∈ modules) {names : List String} (h : names ⊆ modules) :
    insertName module names ⊆ modules := by
  intro m hm
  rcases mem_insertName.1 hm with rfl | hm
  · exact hmodule
  · exact h hm

namespace Confined

variable {fs0 : FileSystem} {at' : CacheStore × FileSystem}

section

variable (h : Confined dir modules fs0 (s, fs))
include h

theorem insert (hmodule : module ∈ modules)
    (source : String) (image : Image) : Confined dir modules fs0 (s.insert module source image, fs) where
  dir_eq := h.dir_eq
  fingerprints := h.fingerprints.putEntry (CacheEntry.length_digest _)
  dropped := List.Subset.trans (filter_subset_self _) h.dropped
  dirty := insertName_subset hmodule h.dirty
  updates := h.updates

theorem invalidate (hmodule : module ∈ modules) :
    Confined dir modules fs0 (s.invalidate module, fs) where
  dir_eq := h.dir_eq
  fingerprints := h.fingerprints.eraseEntry
  dropped := insertName_subset hmodule h.dropped
  dirty := List.Subset.trans (filter_subset_self _) h.dirty
  updates := h.updates

theorem refresh (hdir : fs0.HasDirectory dir)
    (hmodule : module ∈ modules) : Confined dir modules fs0 (s.refresh fs module, fs) := by
  unfold CacheStore.refresh
  split
  · exact h
  split
  · exact h
  · exact ⟨h.dir_eq, h.fingerprints, insertName_subset hmodule h.dropped, h.dirty, h.updates⟩
  · rename_i e hread
    obtain ⟨bytes, -, -, hdecode⟩ := (readFile_eq_some h.dir_eq (h.updates.hasDirectory hdir)).1 hread
    exact ⟨h.dir_eq, h.fingerprints.putEntry (CacheEntry.length_fingerprint_of_decode hdecode), h.dropped,
      h.dirty, h.updates⟩

theorem lookup (hdir : fs0.HasDirectory dir)
    (hmodule : module ∈ modules) (source : String) :
    Confined dir modules fs0 ((s.lookup fs module source).2, fs) := by
  have hread := h.refresh hdir hmodule
  unfold CacheStore.lookup
  simp only
  split
  · exact hread
  split
  · exact hread
  · exact hread.invalidate hmodule

theorem flush (hdir : fs0.HasDirectory dir) :
    Confined dir modules fs0 (s.flush fs).2 := by
  have hflush := updates_flush h.dir_eq h.fingerprints (h.updates.hasDirectory hdir)
  rw [h.updates.cwd] at hflush
  have hupdates := h.updates.trans
    (hflush.mono (LeftByAny.mono (append_subset.2 ⟨h.dropped, h.dirty⟩)))
  obtain ⟨hstore, hentries, hdropped, hdirty⟩ : (s.flush fs).2.1.dir = s.dir ∧
      (s.flush fs).2.1.entries = s.entries ∧ (s.flush fs).2.1.dropped = [] ∧
      (s.flush fs).2.1.dirty ⊆ s.dirty := by
    unfold CacheStore.flush
    split
    · exact ⟨rfl, rfl, rfl, nil_subset _⟩
    split
    · exact ⟨rfl, rfl, rfl, List.Subset.refl _⟩
    · exact ⟨rfl, rfl, rfl, nil_subset _⟩
  refine ⟨hstore.trans h.dir_eq, fun m e hm => h.fingerprints m e ?_, ?_, List.Subset.trans hdirty h.dirty,
    hupdates⟩
  · rw [get?, ← hentries]
    exact hm
  · rw [hdropped]
    exact nil_subset _

end

theorem step (h : Confined dir modules fs0 at') (hdir : fs0.HasDirectory dir)
    (hmodule : module ∈ modules) (work : Work) :
    Confined dir modules fs0 (work.step module at') := by
  cases work with
  | lookup source => exact h.lookup hdir hmodule source
  | insert source image => exact h.insert hmodule source image
  | invalidate => exact h.invalidate hmodule
  | flush => exact h.flush hdir

/-- **Work on a module stays confined to it** and to the modules whose files are still to be written
or removed. -/
theorem run (h : Confined dir modules fs0 at') (hdir : fs0.HasDirectory dir)
    (hmodule : module ∈ modules) (works : List Work) :
    Confined dir modules fs0 (Work.run module works at') := by
  induction works generalizing at' with
  | nil => exact h
  | cons work works ih => exact ih (h.step hdir hmodule work)

end Confined

/-!
## What a store that is opened anew answers
-/

/-- The answer of a store that is opened for one lookup. -/
def answer (dir : String) (fs : FileSystem) (module source : String) : Except CacheError (Option Image) :=
  let (opened, fs) := openDirectory dir fs
  opened.map fun s => (s.lookup fs module source).1

section

variable (hdir : fs.HasDirectory dir)
include hdir

theorem answer_of_hasDirectory (module source : String) :
    answer dir fs module source = .ok ((readFile { dir := some dir } fs module).join.bind fun e =>
      if e.fingerprint = .ofSource source then some e.image else none) := by
  unfold answer
  rw [openDirectory_of_hasDirectory hdir]
  simp only [Except.map]
  rw [lookup_fst, get?_refresh not_mem_nil]
  rfl

theorem answer_congr (hdir' : fs'.HasDirectory dir) (hcwd : fs'.cwd = fs.cwd)
    (h : fs'.get? (entryLocation fs.cwd dir module) = fs.get? (entryLocation fs.cwd dir module)) :
    answer dir fs' module source = answer dir fs module source := by
  have hread : (readFile { dir := some dir } fs' module).join =
      (readFile { dir := some dir } fs module).join := by
    refine Option.ext fun e => ?_
    rw [Option.join_eq_some_iff, Option.join_eq_some_iff, readFile_eq_some rfl hdir',
      readFile_eq_some rfl hdir, hcwd, h]
  rw [answer_of_hasDirectory hdir, answer_of_hasDirectory hdir', hread]

theorem answer_eq_none
    (h : ∀ bytes e, fs.get? (entryLocation fs.cwd dir module) = some (.file bytes) →
      CacheEntry.decode module bytes ≠ .ok e) : answer dir fs module source = .ok none := by
  have hread : (readFile { dir := some dir } fs module).join = none := by
    refine Option.eq_none_iff_forall_ne_some.2 fun e he => ?_
    obtain ⟨bytes, -, hfile, hdecode⟩ :=
      (readFile_eq_some rfl hdir).1 (Option.join_eq_some_iff.1 he)
    exact h bytes e hfile hdecode
  rw [answer_of_hasDirectory hdir, hread]
  rfl

end

/-- **What work leaves for another module**: its file as it was, or one with no entry of it. -/
theorem answer_of_updates (module' source : String) (hdir : fs.HasDirectory dir)
    (hupdates : Updates (LeftByAny fs.cwd dir modules) fs fs') :
    answer dir fs' module' source = answer dir fs module' source ∨
      (∃ m ∈ modules, fileName m = fileName module') ∧
        (module' ∉ modules → answer dir fs' module' source = .ok none) := by
  have hdir' := hupdates.hasDirectory hdir
  rcases hupdates.places (entryLocation fs.cwd dir module') with hsame | ⟨m, hm, hleft | ⟨hplace, hleft⟩⟩
  · exact .inl (answer_congr hdir hdir' hupdates.cwd hsame)
  · exact absurd hleft entryLocation_ne_temporaryLocation
  · have hname := singleton_inj.1 (append_cancel_left hplace)
    refine .inr ⟨⟨m, hm, hname.symm⟩, fun hother => answer_eq_none hdir' fun bytes e hfile hdecode => ?_⟩
    rw [hupdates.cwd] at hfile
    rcases hleft with hnone | ⟨e', hsize, hentry⟩
    · rw [hnone] at hfile
      cases hfile
    · rw [hentry] at hfile
      cases hfile
      exact hother (CacheEntry.module_of_decode hsize hdecode ▸ hm)

/-- **Work on one module and the others.** The modules at work are the one that the operations name, and
those whose files the store still has to write or to remove. A store that is opened anew answers as it did
for every module with a file of its own. For another module that is not at work it answers as it did, or
has no entry. -/
theorem answer_beside_work (hs : s.dir = some dir) (hprints : s.Fingerprinted)
    (hdir : fs.HasDirectory dir) (module : String) (works : List Work) :
    let atWork := module :: (s.dropped ++ s.dirty)
    let after := (Work.run module works (s, fs)).2
    ∀ module' source,
      ((∀ m ∈ atWork, fileName m ≠ fileName module') →
        answer dir after module' source = answer dir fs module' source) ∧
      (module' ∉ atWork →
        answer dir after module' source = answer dir fs module' source ∨
          answer dir after module' source = .ok none) := by
  intro atWork after module' source
  have hstart : Confined dir atWork fs (s, fs) :=
    ⟨hs, hprints, List.subset_cons_of_subset _ (List.subset_append_left _ _),
      List.subset_cons_of_subset _ (List.subset_append_right _ _), .refl _ _⟩
  have hend := hstart.run hdir List.mem_cons_self works
  rcases answer_of_updates module' source hdir hend.updates with
    hsame | ⟨⟨m, hm, hname⟩, hnone⟩
  · exact ⟨fun _ => hsame, fun _ => .inl hsame⟩
  · exact ⟨fun hown => absurd hname (hown m hm), fun hother => .inr (hnone hother)⟩

/-- A directory with the entries of two modules. -/
def twoFiles : FileSystem :=
  let e : CacheEntry := ⟨.ofSource "x", greekEntry.image⟩
  { cwd := ["", ""]
    nodes := [(["", "", "cache"], .directory), (["", "", "cache", "a_b.tcache"], .file (e.encode "a_b")),
      (["", "", "cache", "c.tcache"], .file (e.encode "c"))] }

theorem hasDirectory_twoFiles : twoFiles.HasDirectory "cache" := .inr (by decide +kernel)

/-- A file is removed, written, removed and written again. -/
def busyWorks : List Work :=
  [.lookup "y", .flush, .insert "y" greekEntry.image, .flush, .invalidate, .flush,
    .insert "x" greekEntry.image, .flush]

theorem answer_beside_work_twoFiles :
    let s : CacheStore := { dir := some "cache" }
    let after := (Work.run "a/b" busyWorks (s, twoFiles)).2
    s.Fingerprinted ∧ twoFiles.HasDirectory "cache" ∧
      (∀ m ∈ "a/b" :: (s.dropped ++ s.dirty), fileName m ≠ fileName "c") ∧
      "a_b" ∉ "a/b" :: (s.dropped ++ s.dirty) ∧
      (answer "cache" twoFiles "c" "x").toOption = some (some greekEntry.image) ∧
      answer "cache" after "c" "x" = answer "cache" twoFiles "c" "x" ∧
      (answer "cache" after "a_b" "x" = answer "cache" twoFiles "a_b" "x" ∨
        answer "cache" after "a_b" "x" = .ok none) := by
  intro s after
  have hprints : s.Fingerprinted := fun m e he => by cases he
  have hown : ∀ m ∈ "a/b" :: (s.dropped ++ s.dirty), fileName m ≠ fileName "c" := by decide +kernel
  have hother : "a_b" ∉ "a/b" :: (s.dropped ++ s.dirty) := by decide +kernel
  have hall := answer_beside_work (s := s) rfl hprints hasDirectory_twoFiles "a/b" busyWorks
  exact ⟨hprints, hasDirectory_twoFiles, hown, hother, by decide +kernel, (hall "c" "x").1 hown,
    (hall "a_b" "x").2 hother⟩

/-- **A module can lose its entry to a mere lookup of another one**, whose name differs from its own in a
slash. -/
theorem answer_lost_beside_lookup :
    (answer "cache" twoFiles "a_b" "x").toOption = some (some greekEntry.image) ∧
    (answer "cache" (Work.run "a/b" [.lookup "y", .flush] ({ dir := some "cache" }, twoFiles)).2 "a_b"
      "x").toOption = some none := by
  decide +kernel

end CacheStore

end GraphReduction
