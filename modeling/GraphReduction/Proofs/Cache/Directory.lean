import GraphReduction.Proofs.FileSystem

/-!
# The files of a directory

In a directory that exists, what can be done with a file depends only on its name and on what is at
its place. The operations on such files leave all other places, and all directories, as they are.
-/

namespace GraphReduction

open List
open CacheStore

namespace FileSystem

variable {fs fs' fs'' : FileSystem} {dir name : String} {at' l : Location} {t : Target}
  {names : List String} {cwd : Location} {n : FileNode}

/-!
## Following a path into a directory
-/

/-- A directory that exists. Without a name it is the working directory. -/
def HasDirectory (fs : FileSystem) (dir : String) : Prop := dir = "" ∨ fs.isDirectory dir

theorem exists_of_isDirectory (h : fs.isDirectory dir) :
    ∃ t, fs.locate dir = .ok t ∧ t.location = .ok (locationOf fs.cwd dir) ∧
      fs.get? (locationOf fs.cwd dir) = some .directory := by
  unfold isDirectory at h
  split at h
  · rename_i at' hopen
    obtain rfl := openExisting_eq_ok hopen
    obtain ⟨t, ht, hopen⟩ := exists_ok_of_bind hopen
    obtain ⟨l, hl, -⟩ := exists_ok_of_bind hopen
    obtain rfl := location_of_locate ht hl
    exact ⟨t, ht, hl, by simpa using h⟩
  · cases h

theorem isDirectory_of_locate (ht : fs.locate dir = .ok t) (hloc : t.location = .ok at')
    (hD : fs.get? at' = some .directory) : fs.isDirectory dir := by
  have hopen : fs.openExisting dir = .ok at' := by
    simp only [openExisting, ht, hloc, bind, Except.bind, hD]
    rfl
  simp only [isDirectory, hopen, hD, beq_self_eq_true]

theorem location_ofName_slash (d : Location) (name : String) (slash slash' : Bool) :
    (Target.ofName d name slash).location = (Target.ofName d name slash').location := by
  unfold Target.ofName
  split
  · rfl
  split <;> rfl

/-- The last name of a path is looked up in the directory before it. -/
theorem walk_concat {slash slash' : Bool} {d D : Location} (h : fs.walk slash d names = .ok t)
    (ht : t.location = .ok D) (hD : fs.get? D = some .directory) :
    fs.walk slash' d (names ++ [name]) = .ok (.ofName D name slash') := by
  induction names generalizing d with
  | nil =>
    cases h
    cases ht
    rfl
  | cons n names ih =>
    cases names with
    | nil =>
      cases h
      have henter : fs.enter d n = .ok D := by
        simp only [enter, location_ofName_slash d n true slash, ht, bind, Except.bind, hD]
        rfl
      show (do let dir ← fs.enter d n; fs.walk slash' dir [name]) = _
      rw [henter]
      rfl
    | cons n' names =>
      obtain ⟨d', hd', h⟩ := exists_ok_of_bind h
      show (do let dir ← fs.enter d n; fs.walk slash' dir (n' :: names ++ [name])) = _
      rw [hd']
      exact ih h

theorem locate_eq (fs : FileSystem) (path : String) : fs.locate path =
    if path.toList.contains '\x00' then .error .nulInName
    else if path = "" then .error .notFound
    else if pathLimit ≤ path.utf8ByteSize then .error .nameTooLong
    else fs.walk (path.toList.getLast? == some '/') (if isAbsolute path then [] else fs.cwd)
      (components path) := rfl

theorem walk_directory (h : fs.HasDirectory dir) (slash : Bool) (name : String) :
    fs.walk slash (if isAbsolute dir then [] else fs.cwd) (components dir ++ [name]) =
      .ok (.ofName (locationOf fs.cwd dir) name slash) := by
  rcases h with rfl | h
  · have hnone : components "" = [] := by decide +kernel
    rw [locationOf, hnone]
    rfl
  · obtain ⟨t, ht, hloc, hD⟩ := exists_of_isDirectory h
    exact walk_concat (of_check_ok (of_check_ok (of_check_ok ht))) hloc hD

theorem joinPath_cases (dir name : String) :
    joinPath dir name = dir ++ name ∨ joinPath dir name = dir ++ "/" ++ name := by
  unfold joinPath
  split
  · exact .inl rfl
  · exact .inr rfl

theorem getLast?_joinPath (hname : PlainName name) :
    ((joinPath dir name).toList.getLast? == some '/') = false := by
  have hne : name.toList ≠ [] := fun h => hname.ne_empty (String.toList_eq_nil_iff.1 h)
  have hlast : (joinPath dir name).toList.getLast? = name.toList.getLast? := by
    rcases joinPath_cases dir name with h | h <;>
      rw [h, String.toList_append, getLast?_append_of_ne_nil _ hne]
  rw [hlast, beq_eq_false_iff_ne]
  exact fun h => hname.noSlash (mem_of_getLast? h)

theorem joinPath_ne_empty (hname : PlainName name) : joinPath dir name ≠ "" := by
  intro h
  rcases joinPath_cases dir name with h' | h' <;> rw [h'] at h <;>
    exact hname.ne_empty (String.append_eq_empty_iff.1 h).2

/-- **A path into a directory that exists** can be followed if it can be used at all. -/
theorem locate_joinPath (h : fs.HasDirectory dir) (hname : PlainName name) :
    fs.locate (joinPath dir name) =
      if (joinPath dir name).toList.contains '\x00' then .error .nulInName
      else if pathLimit ≤ (joinPath dir name).utf8ByteSize then .error .nameTooLong
      else .ok (.entry (locationOf fs.cwd dir) name false) := by
  rw [locate_eq, getLast?_joinPath hname, isAbsolute_joinPath hname, components_joinPath hname,
    walk_directory h, Target.ofName, if_neg hname.ne_dot, if_neg hname.ne_up,
    if_neg (joinPath_ne_empty hname)]

/-- Where a file of a directory is, if its name can be used. -/
def place (cwd : Location) (dir name : String) : Except FileError Location :=
  if (joinPath dir name).toList.contains '\x00' then .error .nulInName
  else if pathLimit ≤ (joinPath dir name).utf8ByteSize then .error .nameTooLong
  else if nameLimit < name.utf8ByteSize then .error .nameTooLong
  else .ok (locationOf cwd dir ++ [name])

theorem place_eq_ok (h : place cwd dir name = .ok at') :
    at' = locationOf cwd dir ++ [name] ∧ name.utf8ByteSize ≤ nameLimit := by
  unfold place at h
  split at h
  · cases h
  split at h
  · cases h
  split at h
  · cases h
  · cases h
    exact ⟨rfl, by omega⟩

theorem place_ne_notFound : place cwd dir name ≠ .error .notFound := by
  unfold place
  split
  · exact fun h => by cases h
  split
  · exact fun h => by cases h
  split <;> exact fun h => by cases h

/-- What follows a path into a directory goes on from the place of the file. -/
theorem bind_locate_joinPath {α : Type} (h : fs.HasDirectory dir) (hname : PlainName name)
    (f : Target → Location → Except FileError α) :
    (do let t ← fs.locate (joinPath dir name); let at' ← t.location; f t at') =
      (do let at' ← place fs.cwd dir name
          f (.entry (locationOf fs.cwd dir) name false) at') := by
  rw [locate_joinPath h hname]
  unfold place
  split
  · rfl
  split
  · rfl
  show (do let at' ← (Target.entry (locationOf fs.cwd dir) name false).location; f _ at') = _
  rw [Target.location]

/-!
## Operations on a file of a directory
-/

/-- What is at a place, read as a file. -/
def contentAt (fs : FileSystem) (at' : Location) : Except FileError Bytes :=
  match fs.get? at' with
  | none => .error .notFound
  | some .directory => .error .isADirectory
  | some (.file content) => .ok content

theorem read_joinPath (h : fs.HasDirectory dir) (hname : PlainName name) :
    fs.read (joinPath dir name) = (do let at' ← place fs.cwd dir name; fs.contentAt at') := by
  have hopen : fs.openExisting (joinPath dir name) = _ := bind_locate_joinPath h hname _
  unfold read
  rw [hopen]
  cases place fs.cwd dir name with
  | error e => rfl
  | ok at' =>
    simp only [bind, Except.bind, contentAt]
    cases hget : fs.get? at' with
    | none => rfl
    | some n =>
      simp only [pure, Except.pure, hget]
      cases n <;> rfl

theorem removeFile_joinPath (h : fs.HasDirectory dir) (hname : PlainName name) :
    fs.removeFile (joinPath dir name) = (do
      let at' ← place fs.cwd dir name
      let _ ← fs.contentAt at'
      return fs.erase at') := by
  have hremove : fs.removeFile (joinPath dir name) = _ := bind_locate_joinPath h hname _
  rw [hremove]
  cases place fs.cwd dir name with
  | error e => rfl
  | ok at' =>
    simp only [bind, Except.bind, contentAt]
    cases fs.get? at' with
    | none => rfl
    | some n => cases n <;> rfl

theorem put_put (n n' : FileNode) : (fs.put at' n).put at' n' = fs.put at' n' := by
  simp [put, erase]

/-- Puts a file at a place that no directory is at. -/
def putFile (fs : FileSystem) (at' : Location) (content : Bytes) : Except FileError FileSystem :=
  if fs.get? at' = some .directory then .error .isADirectory else .ok (fs.put at' (.file content))

theorem write_joinPath (h : fs.HasDirectory dir) (hname : PlainName name) (content : Bytes) :
    fs.write (joinPath dir name) content =
      (do let at' ← place fs.cwd dir name; fs.putFile at' content) := by
  unfold write openOrCreate
  rw [locate_joinPath h hname]
  unfold place
  split
  · rfl
  split
  · rfl
  simp only [bind, Except.bind, Target.location]
  by_cases hlong : nameLimit < name.utf8ByteSize
  · simp only [if_pos hlong]
  · simp only [if_neg hlong, putFile]
    cases hget : fs.get? (locationOf fs.cwd dir ++ [name]) with
    | none => exact congrArg Except.ok (put_put _ _)
    | some n => cases n <;> rfl

theorem rename_joinPath {source : String} (h : fs.HasDirectory dir) (hname : PlainName name) :
    fs.rename (joinPath dir source) (joinPath dir name) = (do
      let content ← fs.read (joinPath dir source)
      let at' ← place fs.cwd dir name
      match fs.get? at' with
      | some .directory => throw .isADirectory
      | _ => do
        let fs ← fs.removeFile (joinPath dir source)
        return fs.put at' (.file content)) := by
  unfold rename
  cases fs.read (joinPath dir source) with
  | error e => rfl
  | ok content => exact bind_locate_joinPath h hname _

/-!
## What else changes
-/

theorem get?_erase_of_ne (hne : l ≠ at') : (fs.erase at').get? l = fs.get? l := by
  simp only [get?, erase, lookup_filter_ne, beq_iff_eq, if_neg hne]

theorem get?_put_of_ne (hne : l ≠ at') : (fs.put at' n).get? l = fs.get? l := by
  simp only [get?, put, erase, lookup_cons, beq_eq_false_iff_ne.2 hne, lookup_filter_ne,
    Bool.false_eq_true, if_false]

theorem not_isPrefixOf_cwd (h : fs.get? at' ≠ some .directory) : ¬ at'.isPrefixOf fs.cwd :=
  fun hcwd => h (if_pos hcwd)

theorem get?_put_self (h : fs.get? at' ≠ some .directory) : (fs.put at' n).get? at' = some n := by
  refine (if_neg (not_isPrefixOf_cwd h)).trans ?_
  rw [put, lookup_cons, beq_self_eq_true]

theorem get?_erase_self (h : fs.get? at' ≠ some .directory) : (fs.erase at').get? at' = none := by
  refine (if_neg (not_isPrefixOf_cwd h)).trans ?_
  simp only [erase, lookup_filter_ne, beq_self_eq_true, if_true]

/-- **Every place is as it was, or holds what `U` allows there**, and no directory is lost. -/
structure Updates (U : Location → Option FileNode → Prop) (fs fs' : FileSystem) : Prop where
  cwd : fs'.cwd = fs.cwd
  places : ∀ l, fs'.get? l = fs.get? l ∨ U l (fs'.get? l)
  directories : ∀ l, fs.get? l = some .directory → fs'.get? l = some .directory

namespace Updates

variable {U V : Location → Option FileNode → Prop}

theorem refl (U : Location → Option FileNode → Prop) (fs : FileSystem) : Updates U fs fs :=
  ⟨rfl, fun _ => .inl rfl, fun _ h => h⟩

theorem mono (h : Updates U fs fs') (hU : ∀ l n, U l n → V l n) : Updates V fs fs' :=
  ⟨h.cwd, fun l => (h.places l).imp_right (hU l _), h.directories⟩

theorem trans (h : Updates U fs fs') (h' : Updates U fs' fs'') : Updates U fs fs'' := by
  refine ⟨h'.cwd.trans h.cwd, fun l => ?_, fun l hl => h'.directories l (h.directories l hl)⟩
  rcases h'.places l with hsame | hnew
  · rw [hsame]
    exact h.places l
  · exact .inr hnew

theorem same (h : Updates U fs fs') (hl : ∀ n, ¬ U l n) : fs'.get? l = fs.get? l :=
  (h.places l).resolve_right (hl _)

/-- A change at one place, which has no directory. -/
theorem single {n : Option FileNode} (h : fs.get? at' ≠ some .directory) (hcwd : fs'.cwd = fs.cwd)
    (hself : fs'.get? at' = n) (hne : ∀ l ≠ at', fs'.get? l = fs.get? l) :
    Updates (fun l n' => l = at' ∧ n' = n) fs fs' := by
  refine ⟨hcwd, fun l => ?_, fun l hl => ?_⟩
  · by_cases heq : l = at'
    · subst heq
      exact .inr ⟨rfl, hself⟩
    · exact .inl (hne l heq)
  · have hl' : l ≠ at' := by
      rintro rfl
      exact h hl
    rw [hne l hl']
    exact hl

theorem put (h : fs.get? at' ≠ some .directory) (n : FileNode) :
    Updates (fun l n' => l = at' ∧ n' = some n) fs (fs.put at' n) :=
  single h rfl (get?_put_self h) fun _ => get?_put_of_ne

theorem erase (h : fs.get? at' ≠ some .directory) :
    Updates (fun l n => l = at' ∧ n = none) fs (fs.erase at') :=
  single h rfl (get?_erase_self h) fun _ => get?_erase_of_ne

theorem walk (h : Updates U fs fs') {slash : Bool} {d : Location}
    (hwalk : fs.walk slash d names = .ok t) : fs'.walk slash d names = .ok t := by
  induction names generalizing d with
  | nil => exact hwalk
  | cons n names ih =>
    cases names with
    | nil => exact hwalk
    | cons n' names =>
      obtain ⟨d', hd, hwalk⟩ := exists_ok_of_bind hwalk
      have henter : fs'.enter d n = .ok d' := by
        obtain ⟨l, hl, hd⟩ := exists_ok_of_bind hd
        simp only [enter, hl, bind, Except.bind]
        split at hd
        · cases hd
        · cases hd
        · cases hd
          rw [h.directories d' ‹_›]
          rfl
      show (do let dir ← fs'.enter d n; fs'.walk slash dir (n' :: names)) = _
      rw [henter]
      exact ih hwalk

theorem locate (h : Updates U fs fs') {path : String} (ht : fs.locate path = .ok t) :
    fs'.locate path = .ok t := by
  have hwalk := h.walk (of_check_ok (of_check_ok (of_check_ok ht)))
  rw [locate_eq] at ht ⊢
  rw [h.cwd, hwalk]
  split at ht
  · cases ht
  rw [if_neg ‹_›]
  split at ht
  · cases ht
  rw [if_neg ‹_›]
  split at ht
  · cases ht
  · rw [if_neg ‹_›]

theorem hasDirectory (h : Updates U fs fs') (hdir : fs.HasDirectory dir) : fs'.HasDirectory dir := by
  refine hdir.imp_right fun hdir => ?_
  obtain ⟨t, ht, hloc, hD⟩ := exists_of_isDirectory hdir
  exact isDirectory_of_locate (h.locate ht) hloc (h.directories _ hD)

end Updates

end FileSystem

open FileSystem

/-!
## Opening a directory
-/

variable {fs fs' : FileSystem} {dir : String}

theorem FileSystem.isDirectory_of_makeDirectory (h : fs.makeDirectory dir = .ok fs') :
    fs'.isDirectory dir := by
  obtain ⟨t, ht, h⟩ := exists_ok_of_bind h
  obtain ⟨at', hloc, h⟩ := exists_ok_of_bind h
  split at h
  · rename_i hnone
    cases h
    have hnew : fs.get? at' ≠ some .directory := by
      rw [hnone]
      exact fun h => by cases h
    exact isDirectory_of_locate ((Updates.put hnew .directory).locate ht) hloc (get?_put_self hnew)
  · cases h

theorem FileSystem.isDirectory_of_lastStep {r : Except FileError FileSystem} {fs1 : FileSystem}
    (h : (match r with
      | .ok fs => (.ok (), fs)
      | .error e => (if fs1.isDirectory dir then .ok () else .error e, fs1) :
        Except FileError Unit × FileSystem) = (.ok (), fs')) (hr : fs1.makeDirectory dir = r) :
    fs'.isDirectory dir := by
  cases r with
  | ok fs2 =>
    cases h
    exact isDirectory_of_makeDirectory hr
  | error e =>
    by_cases hdir : fs1.isDirectory dir
    · simp only [if_pos hdir] at h
      cases h
      exact hdir
    · simp only [if_neg hdir] at h
      cases h

theorem FileSystem.hasDirectory_of_makeDirectories (h : fs.makeDirectories dir = (.ok (), fs')) :
    fs'.HasDirectory dir := by
  unfold makeDirectories makeDirectoriesUpTo at h
  split at h
  · exact .inl ‹_›
  refine .inr ?_
  cases hmake : fs.makeDirectory dir with
  | ok fs1 =>
    rw [hmake] at h
    refine isDirectory_of_lastStep ?_ hmake
    exact h
  | error e =>
    rw [hmake] at h
    simp only at h
    split at h
    · split at h
      · cases h
      · exact isDirectory_of_lastStep h rfl
    · refine isDirectory_of_lastStep ?_ hmake
      exact h

theorem CacheStore.openDirectory_of_hasDirectory (h : fs.HasDirectory dir) :
    openDirectory dir fs = (.ok { dir := some dir }, fs) := by
  have hmake : fs.makeDirectories dir = (.ok (), fs) := by
    unfold makeDirectories makeDirectoriesUpTo
    rcases h with rfl | h
    · rfl
    obtain ⟨t, ht, hloc, hD⟩ := exists_of_isDirectory h
    have hexists : fs.makeDirectory dir = .error .alreadyExists := by
      simp only [makeDirectory, ht, hloc, bind, Except.bind, hD]
      rfl
    split
    · rfl
    · rw [hexists]
      simp only [reduceCtorEq, if_false]
  unfold openDirectory
  rw [hmake]

theorem CacheStore.of_openDirectory {s : CacheStore} (h : openDirectory dir fs = (.ok s, fs')) :
    s = { dir := some dir } ∧ fs'.HasDirectory dir := by
  unfold openDirectory at h
  split at h
  · cases h
    exact ⟨rfl, hasDirectory_of_makeDirectories ‹_›⟩
  · cases h

end GraphReduction
