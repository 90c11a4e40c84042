import GraphReduction.Proofs.FileSystem
import GraphReduction.Proofs.Image.Determined
import GraphReduction.Proofs.Image.Flatten
import GraphReduction.Session

/-!
# The cache does not change what is compiled

The files of a cache directory are the entries that were written there, some of them cut short. An
entry that is read is one that was written for the same module, and so its image is that of the source
whose fingerprint it carries.
-/

namespace GraphReduction

open List
open FileSystem

variable {used : String → Prop} {cwd : Location} {dir : String} {fs fs' : FileSystem}

/-- **An entry that holds the image of a source**, one of those in use. -/
def CacheEntry.Genuine (used : String → Prop) (module : String) (e : CacheEntry) : Prop :=
  ∃ source, used source ∧ e.fingerprint = .ofSource source ∧ imageOfSource module source = .ok e.image

theorem inOrder_of_imageOfSource {name source : String} {image : Image}
    (h : imageOfSource name source = .ok image) : image.InOrder := by
  obtain ⟨m, -, h⟩ := exists_ok_of_bind h
  obtain ⟨p, -, h⟩ := exists_ok_of_bind h
  cases hp : p.toImage with
  | error e =>
    rw [hp] at h
    cases h
  | ok image' =>
    rw [hp] at h
    cases h
    exact Program.inOrder_of_toImage hp

/-- **What is read from the file of a genuine entry**, cut short or not. -/
theorem CacheEntry.Genuine.of_decode {e e' : CacheEntry} {module module' : String} {bytes : Bytes}
    (h : e.Genuine used module) (hbytes : bytes <+: e.encode module)
    (hdecode : CacheEntry.decode module' bytes = .ok e') : e'.Genuine used module' := by
  obtain ⟨source, hused, hfingerprint, himage⟩ := h
  have hsize : e.fingerprint.bytes.length = Fingerprint.size := by
    rw [hfingerprint]
    exact CacheEntry.length_digest _
  obtain ⟨rfl, rfl⟩ := CacheEntry.eq_of_decode hsize (inOrder_of_imageOfSource himage).refersBack
    hbytes hdecode
  exact ⟨source, hused, hfingerprint, himage⟩

namespace CacheStore

/-!
## The files of a store
-/

theorem plainName_append {name suffix : String} (hname : '/' ∉ name.toList)
    (hsuffix : '/' ∉ suffix.toList) (hlen : 2 < suffix.length) : PlainName (name ++ suffix) := by
  have hlong : 2 < (name ++ suffix).length := by
    rw [String.length_append]
    omega
  refine ⟨?_, ?_, ?_, ?_⟩
  · intro h
    rw [h] at hlong
    exact absurd hlong (by decide)
  · rw [String.toList_append, mem_append]
    rintro (h | h)
    · exact hname h
    · exact hsuffix h
  · intro h
    rw [h] at hlong
    exact absurd hlong (by decide)
  · intro h
    rw [h] at hlong
    exact absurd hlong (by decide)

theorem plainName_fileName (module : String) : PlainName (fileName module) := by
  refine plainName_append ?_ (by decide) (by decide)
  rw [String.toList_ofList, mem_map]
  rintro ⟨c, -, hc⟩
  split at hc
  · exact absurd hc (by decide)
  · exact absurd hc ‹_›

theorem plainName_temporary (module : String) : PlainName (fileName module ++ ".tmp") :=
  plainName_append (plainName_fileName module).noSlash (by decide) (by decide)

theorem joinPath_append (dir file suffix : String) :
    joinPath dir file ++ suffix = joinPath dir (file ++ suffix) := by
  unfold joinPath
  split <;> simp only [String.append_assoc]

/-- What the files of a cache directory may be. -/
def Allowed (used : String → Prop) (cwd : Location) (dir : String) (at' : Location)
    (content : Bytes) : Prop :=
  ∀ name, at' = locationOf cwd dir ++ [name] →
    ∃ module e, CacheEntry.Genuine used module e ∧ content <+: e.encode module

/-- **Every file of the directory is the beginning of a genuine entry.** -/
abbrev Clean (used : String → Prop) (cwd : Location) (dir : String) (fs : FileSystem) : Prop :=
  fs.Holds cwd (Allowed used cwd dir)

/-- **Every entry of a store is genuine.** -/
def Sound (used : String → Prop) (s : CacheStore) : Prop :=
  ∀ module e, s.get? module = some e → e.Genuine used module

variable {s : CacheStore} {module source : String} {e : CacheEntry}

theorem Sound.eraseEntry (h : Sound used s) (module : String) :
    Sound used (s.eraseEntry module) := by
  intro module' e' he
  refine h module' e' ?_
  simp only [get?, CacheStore.eraseEntry, lookup_filter_ne] at he
  split at he
  · cases he
  · exact he

theorem Sound.putEntry (h : Sound used s) (he : e.Genuine used module) :
    Sound used (s.putEntry module e) := by
  intro module' e' hget
  simp only [get?, CacheStore.putEntry, lookup_cons] at hget
  by_cases hm : module' = module
  · subst hm
    rw [beq_self_eq_true] at hget
    cases hget
    exact he
  · rw [beq_eq_false_iff_ne.2 hm] at hget
    exact h.eraseEntry module module' e' hget

/-- In a clean directory every entry that reads back is genuine. -/
theorem genuine_of_readFile (hclean : Clean used cwd dir fs) (hdir : s.dir = some dir)
    (h : s.readFile fs module = some (some e)) : e.Genuine used module := by
  have hpath : s.entryPath module = some (joinPath dir (fileName module)) := by
    rw [entryPath, hdir]
    rfl
  rw [readFile, hpath] at h
  simp only at h
  split at h
  · rename_i bytes hread
    have hdecode : CacheEntry.decode module bytes = .ok e := by
      cases hd : CacheEntry.decode module bytes with
      | error r =>
        rw [hd] at h
        cases h
      | ok e' =>
        rw [hd] at h
        cases h
        rfl
    obtain ⟨module', e', he', hprefix⟩ := hclean.read hread _
      (locationOf_joinPath (plainName_fileName module))
    exact he'.of_decode hprefix hdecode
  · cases h
  · cases h

theorem Sound.refresh (h : Sound used s) (hclean : Clean used cwd dir fs) (hdir : s.dir = some dir)
    (module : String) : Sound used (s.refresh fs module) ∧ (s.refresh fs module).dir = some dir := by
  unfold CacheStore.refresh
  split
  · exact ⟨h, hdir⟩
  split
  · exact ⟨h, hdir⟩
  · exact ⟨h, hdir⟩
  · rename_i e he
    exact ⟨h.putEntry (genuine_of_readFile hclean hdir he), hdir⟩

/-- **A hit** is the image of the source that is looked up, as no other source in use has its
fingerprint. -/
theorem Sound.lookup (h : Sound used s) (hclean : Clean used cwd dir fs) (hdir : s.dir = some dir)
    (hinj : ∀ s t, used s → used t → Fingerprint.ofSource s = .ofSource t → s = t)
    (hused : used source) (module : String) :
    Sound used (s.lookup fs module source).2 ∧ (s.lookup fs module source).2.dir = some dir ∧
      ∀ image, (s.lookup fs module source).1 = some image →
        imageOfSource module source = .ok image := by
  obtain ⟨hsound, hdir'⟩ := h.refresh hclean hdir module
  unfold CacheStore.lookup
  simp only
  split
  · exact ⟨hsound, hdir', fun _ h => by cases h⟩
  · rename_i e he
    split
    · rename_i hfingerprint
      refine ⟨hsound, hdir', fun image himage => ?_⟩
      obtain ⟨source', hused', hfingerprint', hsource'⟩ := hsound module e he
      obtain rfl := hinj source' source hused' hused (hfingerprint'.symm.trans hfingerprint)
      cases himage
      exact hsource'
    · exact ⟨hsound.eraseEntry module, hdir', fun _ h => by cases h⟩

/-!
## Writing the files
-/

section

variable (h : Clean used cwd dir fs)
include h

theorem Clean.removeFiles (modules : List String) :
    Clean used cwd dir (removeFiles dir modules fs).2 := by
  induction modules generalizing fs with
  | nil => exact h
  | cons module modules ih =>
    unfold CacheStore.removeFiles
    simp only
    split
    · rename_i hremove
      exact ih (h.removeFile hremove)
    · exact ih h
    · exact h

theorem Clean.writeAtomically (he : e.Genuine used module)
    (file : String) :
    Clean used cwd dir
      (writeAtomically (joinPath dir (fileName file)) (e.encode module) fs).2 := by
  have hnew : ∀ at', Allowed used cwd dir at' (e.encode module) :=
    fun _ _ _ => ⟨module, e, he, prefix_refl _⟩
  unfold CacheStore.writeAtomically
  simp only
  split
  · exact h
  · rename_i fs1 hwrite
    have h1 := h.write (hnew _) hwrite
    split
    · exact h1
    · rename_i fs2 hrename
      refine h1.rename (fun content hcontent => ?_) hrename
      -- what is moved into place is a file of the directory
      obtain ⟨module', e', he', hprefix⟩ := hcontent (fileName file ++ ".tmp") (by
        rw [joinPath_append, locationOf_joinPath (plainName_temporary file)])
      exact fun _ _ => ⟨module', e', he', hprefix⟩

theorem Clean.writeFiles (hs : Sound used s) (modules : List String) :
    Clean used cwd dir (s.writeFiles dir modules fs).2 := by
  induction modules generalizing fs with
  | nil => exact h
  | cons module modules ih =>
    unfold CacheStore.writeFiles
    split
    · exact ih h
    · rename_i e he
      have hwritten := h.writeAtomically (hs module e he) module
      split
      · rename_i heq
        rw [heq] at hwritten
        exact ih hwritten
      · rename_i heq
        rw [heq] at hwritten
        exact hwritten

theorem Clean.flush (hs : Sound used s) (hdir : s.dir = some dir) :
    Clean used cwd dir (s.flush fs).2.2 := by
  unfold CacheStore.flush
  rw [hdir]
  have hremoved := h.removeFiles s.dropped
  simp only
  split
  · rename_i heq
    rw [heq] at hremoved
    exact hremoved
  · rename_i heq
    rw [heq] at hremoved
    exact hremoved.writeFiles hs s.dirty

/-- **A compilation keeps the directory clean** and gives what it gives without a cache. -/
theorem Clean.compile (hs : Sound used s) (hdir : s.dir = some dir)
    (hinj : ∀ s t, used s → used t → Fingerprint.ofSource s = .ofSource t → s = t)
    (hused : used source) :
    Clean used cwd dir (s.compile fs module source).2.2 ∧
      ∀ image, (s.compile fs module source).1 = .ok image →
        imageOfSource module source = .ok image := by
  obtain ⟨hsound, hdir', hhit⟩ := hs.lookup h hdir hinj hused module
  unfold CacheStore.compile
  split
  · rename_i image s' heq
    rw [heq] at hhit
    refine ⟨h, fun image' himage => ?_⟩
    cases himage
    exact hhit image rfl
  · rename_i s' heq
    rw [heq] at hsound hdir'
    cases himage : imageOfSource module source with
    | error r => exact ⟨h, fun _ hr => by cases hr⟩
    | ok image =>
      have hnew : Sound used (s'.insert module source image) :=
        hsound.putEntry (e := ⟨.ofSource source, image⟩) ⟨source, hused, rfl, himage⟩
      have hflush := h.flush hnew hdir'
      simp only
      split
      · rename_i heq'
        rw [heq'] at hflush
        exact ⟨hflush, fun _ hr => hr⟩
      · rename_i heq'
        rw [heq'] at hflush
        exact ⟨hflush, fun _ hr => by cases hr⟩

end

end CacheStore

/-!
## Histories
-/

/-- What happens to a cache directory. -/
inductive CacheEvent where
  /-- A source is compiled by way of the cache. -/
  | compile (config : Config) (name source : String)
  /-- A file is cut to its first `n` bytes. -/
  | truncate (at' : Location) (n : Nat)

namespace CacheEvent

/-- The files after an event. -/
def step (dir : String) (fs : FileSystem) : CacheEvent → FileSystem
  | compile config name source =>
    (compileImage { config with cacheDir := some dir } fs name source).2
  | truncate at' n => fs.truncate at' n

/-- The files after a history. -/
def run (dir : String) (fs : FileSystem) (history : List CacheEvent) : FileSystem :=
  history.foldl (step dir) fs

/-- The source that is compiled, if one is. -/
def source? : CacheEvent → Option String
  | compile _ _ source => some source
  | truncate _ _ => none

end CacheEvent

open CacheStore CacheEvent

theorem CacheStore.Clean.compileImage (h : Clean used cwd dir fs)
    (hinj : ∀ s t, used s → used t → Fingerprint.ofSource s = .ofSource t → s = t)
    {config : Config} (hconfig : config.cacheDir = some dir) {name source : String}
    (hused : used source) :
    Clean used cwd dir (compileImage config fs name source).2 ∧
      ∀ image, (GraphReduction.compileImage config fs name source).1 = .ok image →
        imageOfSource name source = .ok image := by
  have hopened : Clean used cwd dir (fs.makeDirectories dir).2 := h.makeDirectories dir
  unfold GraphReduction.compileImage openDirectory
  rw [hconfig]
  simp only
  cases hmake : fs.makeDirectories dir with
  | mk r fs1 =>
    rw [hmake] at hopened
    cases r with
    | error e => exact ⟨hopened, fun _ hr => by cases hr⟩
    | ok u =>
      have hnew : Sound used { dir := some dir } := fun _ _ hget => by cases hget
      exact Clean.compile hopened hnew rfl hinj hused

theorem CacheStore.Clean.step (h : Clean used cwd dir fs)
    (hinj : ∀ s t, used s → used t → Fingerprint.ofSource s = .ofSource t → s = t)
    {event : CacheEvent} (hused : ∀ source, event.source? = some source → used source) :
    Clean used cwd dir (event.step dir fs) := by
  cases event with
  | compile config name source => exact (h.compileImage hinj rfl (hused source rfl)).1
  | truncate at' n =>
    refine h.truncate (fun l content n hallowed name hname => ?_) at' n
    obtain ⟨module, e, he, hprefix⟩ := hallowed name hname
    exact ⟨module, e, he, ( take_prefix n content).trans hprefix⟩

theorem CacheStore.Clean.run (h : Clean used cwd dir fs)
    (hinj : ∀ s t, used s → used t → Fingerprint.ofSource s = .ofSource t → s = t)
    {history : List CacheEvent}
    (hused : ∀ event ∈ history, ∀ source, event.source? = some source → used source) :
    Clean used cwd dir (run dir fs history) := by
  induction history generalizing fs with
  | nil => exact h
  | cons event history ih =>
    exact ih (h.step hinj (hused event mem_cons_self))
      fun event' hevent => hused event' (mem_cons_of_mem _ hevent)

/-- **The cache never changes a compilation result.** Let a directory without files be used as the
cache of any history of compilations, each with a store of its own, between which files are cut
short. If no two of the sources share their fingerprint, an image that is then compiled by way of this
cache is the one that its source is compiled to without a cache. -/
theorem compileImage_of_history {dir : String} {fs : FileSystem}
    (hempty : ∀ name content, fs.get? (locationOf fs.cwd dir ++ [name]) ≠ some (.file content))
    (history : List CacheEvent) (config : Config) (name source : String)
    (hinj : ∀ s ∈ source :: history.filterMap source?, ∀ t ∈ source :: history.filterMap source?,
      Fingerprint.ofSource s = .ofSource t → s = t)
    {image : Image}
    (h : (compileImage { config with cacheDir := some dir } (run dir fs history) name source).1 =
      .ok image) :
    imageOfSource name source = .ok image := by
  have hclean : Clean (· ∈ source :: history.filterMap source?) fs.cwd dir fs := by
    refine ⟨rfl, fun at' content hget name hname => ?_⟩
    rw [hname] at hget
    exact absurd hget (hempty name content)
  have hinj' : ∀ s t, s ∈ source :: history.filterMap source? →
      t ∈ source :: history.filterMap source? → Fingerprint.ofSource s = .ofSource t → s = t :=
    fun s t hs ht => hinj s hs t ht
  have hrun := hclean.run hinj' fun event hevent s hs =>
    List.mem_cons_of_mem _ (List.mem_filterMap.2 ⟨event, hevent, hs⟩)
  exact (hrun.compileImage hinj' rfl List.mem_cons_self).2 image h

/-- Two modules with one file name, whose file is cut short between compilations. -/
def clashingHistory : List CacheEvent :=
  [.compile {} "a/b" "def main = 7", .truncate ["", "", "cache", "a_b.tcache"] 9,
    .compile {} "a_b" "def main = 8", .compile {} "a/b" "def main = 7"]

theorem compileImage_of_history_clashingHistory :
    (∀ name content, FileSystem.empty.get? (locationOf FileSystem.empty.cwd "cache" ++ [name]) ≠
      some (.file content)) ∧
    (run "cache" .empty clashingHistory).files.length = 1 ∧
    ∃ image, (compileImage { cacheDir := some "cache" } (run "cache" .empty clashingHistory) "a/b"
        "def main = 7").1 = .ok image ∧
      imageOfSource "a/b" "def main = 7" = .ok image := by
  have hempty : ∀ name content, FileSystem.empty.get?
      (locationOf FileSystem.empty.cwd "cache" ++ [name]) ≠ some (.file content) := by
    intro name content
    have hdir : locationOf FileSystem.empty.cwd "cache" = ["", "", "cache"] := by decide +kernel
    rw [hdir]
    simp [FileSystem.get?, FileSystem.empty]
  have hok : (compileImage { cacheDir := some "cache" } (run "cache" .empty clashingHistory) "a/b"
      "def main = 7").1.isOk := by decide +kernel
  obtain ⟨image, himage⟩ := exists_ok_of_isOk hok
  exact ⟨hempty, by decide +kernel, image, himage,
    compileImage_of_history hempty clashingHistory {} "a/b" "def main = 7" (by decide +kernel) himage⟩

end GraphReduction
