import GraphReduction.Cache.Store
import GraphReduction.Proofs.Fallible
import Mathlib

/-!
# Which files an operation touches

An operation on a path touches only the file where the path leads, which can be told from the path
and the working directory alone.
-/

namespace GraphReduction

open List

variable {name : String}

theorem lookup_filter_ne {α β : Type} [BEq α] [LawfulBEq α] {a x : α} {entries : List (α × β)} :
    (entries.filter fun e => e.1 != a).lookup x = if x == a then none else entries.lookup x := by
  induction entries with
  | nil => simp
  | cons e entries ih =>
    by_cases he : e.1 = a
    · rw [filter_cons_of_neg (by simpa using he), ih, lookup_cons, he]
      cases x == a <;> rfl
    · rw [filter_cons_of_pos (by simpa using he), lookup_cons, lookup_cons, ih]
      by_cases hx : x = a
      · rw [hx, beq_eq_false_iff_ne.2 (Ne.symm he), beq_self_eq_true]
      · rw [if_neg (by simpa using hx), if_neg (by simpa using hx)]

namespace FileSystem

variable {fs fs' : FileSystem} {path : String} {at' : Location} {content : Bytes} {dir l : Location}
  {slash : Bool} {t : Target}

/-!
## Following a path
-/

theorem location_ofName (h : (Target.ofName dir name slash).location = .ok at') :
    at' = descend dir name := by
  unfold Target.ofName at h
  unfold descend
  by_cases hdot : name = "."
  · rw [if_pos hdot] at h ⊢
    cases h
    rfl
  · rw [if_neg hdot] at h ⊢
    by_cases hup : name = ".."
    · rw [if_pos hup] at h ⊢
      cases h
      rfl
    · rw [if_neg hup] at h ⊢
      simp only [Target.location] at h
      split at h
      · cases h
      · cases h
        rfl

theorem enter_eq_ok (h : fs.enter dir name = .ok at') : at' = descend dir name := by
  obtain ⟨l, hl, h⟩ := exists_ok_of_bind h
  obtain rfl := location_ofName hl
  split at h <;> cases h
  rfl

theorem location_of_walk {names : List String} (h : fs.walk slash dir names = .ok t)
    (ht : t.location = .ok at') : at' = names.foldl descend dir := by
  induction names generalizing dir with
  | nil =>
    cases h
    cases ht
    rfl
  | cons name names ih =>
    cases names with
    | nil =>
      cases h
      exact location_ofName ht
    | cons name' names =>
      obtain ⟨dir', hdir, h⟩ := exists_ok_of_bind h
      rw [foldl_cons, ← enter_eq_ok hdir]
      exact ih h

/-- **Where a path leads** can be told without the file system. -/
theorem location_of_locate (h : fs.locate path = .ok t) (ht : t.location = .ok at') :
    at' = locationOf fs.cwd path :=
  location_of_walk (of_check_ok (of_check_ok (of_check_ok h))) ht

theorem openExisting_eq_ok (h : fs.openExisting path = .ok at') :
    at' = locationOf fs.cwd path := by
  obtain ⟨t, ht, h⟩ := exists_ok_of_bind h
  obtain ⟨l, hl, h⟩ := exists_ok_of_bind h
  split at h <;> cases h
  exact location_of_locate ht hl

theorem get?_of_read (h : fs.read path = .ok content) :
    fs.get? (locationOf fs.cwd path) = some (.file content) := by
  obtain ⟨l, hl, h⟩ := exists_ok_of_bind h
  rw [← openExisting_eq_ok hl]
  split at h
  · cases h
    assumption
  · cases h

/-!
## Changes
-/

theorem file_of_erase (h : (fs.erase at').get? l = some (.file content)) :
    l ≠ at' ∧ fs.get? l = some (.file content) := by
  unfold get? at h ⊢
  split at h
  · cases h
  rename_i hcwd
  simp only [erase, lookup_filter_ne] at h
  split at h
  · cases h
  rename_i hl
  exact ⟨fun heq => hl (by rw [heq, beq_self_eq_true]), (if_neg hcwd).trans h⟩

theorem file_of_put {n : FileNode} (h : (fs.put at' n).get? l = some (.file content)) :
    l = at' ∧ n = .file content ∨ l ≠ at' ∧ fs.get? l = some (.file content) := by
  by_cases hl : l = at'
  · unfold get? at h
    split at h
    · cases h
    rw [hl, put, lookup_cons, beq_self_eq_true] at h
    exact .inl ⟨hl, Option.some.inj h⟩
  · refine .inr (file_of_erase ?_)
    unfold get? at h ⊢
    split at h
    · cases h
    rename_i hcwd
    rw [put, lookup_cons, beq_eq_false_iff_ne.2 hl] at h
    rw [if_neg (show ¬ l.isPrefixOf (fs.erase at').cwd from hcwd)]
    exact h

/-- The file at a location, cut to its first `n` bytes. -/
def truncate (fs : FileSystem) (at' : Location) (n : Nat) : FileSystem :=
  match fs.get? at' with
  | some (.file content) => fs.put at' (.file (content.take n))
  | _ => fs

/-- **The working directory is `cwd`, and `P` holds of every file** and its location. -/
structure Holds (cwd : Location) (P : Location → Bytes → Prop) (fs : FileSystem) : Prop where
  cwd_eq : fs.cwd = cwd
  files : ∀ at' content, fs.get? at' = some (.file content) → P at' content

namespace Holds

variable {cwd : Location} {P : Location → Bytes → Prop}

section

variable (h : Holds cwd P fs)
include h

theorem read (hread : fs.read path = .ok content) :
    P (locationOf cwd path) content := by
  rw [← h.cwd_eq]
  exact h.files _ _ (get?_of_read hread)

theorem erase (at' : Location) : Holds cwd P (fs.erase at') :=
  ⟨h.cwd_eq, fun l content hl => h.files l content (file_of_erase hl).2⟩

theorem put_file (hP : P at' content) :
    Holds cwd P (fs.put at' (.file content)) := by
  refine ⟨h.cwd_eq, fun l content' hl => ?_⟩
  rcases file_of_put hl with ⟨rfl, hc⟩ | ⟨-, hl⟩
  · cases hc
    exact hP
  · exact h.files l content' hl

theorem put_directory (at' : Location) :
    Holds cwd P (fs.put at' .directory) := by
  refine ⟨h.cwd_eq, fun l content hl => ?_⟩
  rcases file_of_put hl with ⟨-, hc⟩ | ⟨-, hl⟩
  · cases hc
  · exact h.files l content hl

theorem write (hP : P (locationOf cwd path) content)
    (hwrite : fs.write path content = .ok fs') : Holds cwd P fs' := by
  obtain ⟨⟨at', fs1⟩, hopen, hwrite⟩ := exists_ok_of_bind hwrite
  cases hwrite
  obtain ⟨t, ht, hopen⟩ := exists_ok_of_bind hopen
  have hcases : at' = locationOf cwd path ∧ (fs1 = fs ∨ fs1 = fs.put at' (.file [])) := by
    split at hopen
    · cases hopen
    · cases hopen
    obtain ⟨l, hl, hopen⟩ := exists_ok_of_bind hopen
    have hloc := location_of_locate ht hl
    rw [h.cwd_eq] at hloc
    split at hopen <;> cases hopen
    · exact ⟨hloc, .inr rfl⟩
    · exact ⟨hloc, .inl rfl⟩
  obtain ⟨rfl, rfl | rfl⟩ := hcases
  · exact h.put_file hP
  · refine ⟨h.cwd_eq, fun l content' hl => ?_⟩
    rcases file_of_put hl with ⟨rfl, hc⟩ | ⟨hne, hl⟩
    · cases hc
      exact hP
    · rcases file_of_put hl with ⟨rfl, -⟩ | ⟨-, hl⟩
      · exact absurd rfl hne
      · exact h.files l content' hl

theorem removeFile (hremove : fs.removeFile path = .ok fs') :
    Holds cwd P fs' := by
  obtain ⟨t, ht, hremove⟩ := exists_ok_of_bind hremove
  obtain ⟨at', hat, hremove⟩ := exists_ok_of_bind hremove
  split at hremove <;> cases hremove
  exact h.erase _

theorem rename {source target : String}
    (hP : ∀ content, P (locationOf cwd source) content → P (locationOf cwd target) content)
    (hrename : fs.rename source target = .ok fs') : Holds cwd P fs' := by
  obtain ⟨content, hread, hrename⟩ := exists_ok_of_bind hrename
  obtain ⟨t, ht, hrename⟩ := exists_ok_of_bind hrename
  obtain ⟨at', hat, hrename⟩ := exists_ok_of_bind hrename
  have hloc := location_of_locate ht hat
  rw [h.cwd_eq] at hloc
  subst hloc
  split at hrename
  · cases hrename
  obtain ⟨fs1, hremove, hrename⟩ := exists_ok_of_bind hrename
  cases hrename
  exact (h.removeFile hremove).put_file (hP content (h.read hread))

theorem makeDirectory (hmake : fs.makeDirectory path = .ok fs') :
    Holds cwd P fs' := by
  obtain ⟨t, ht, hmake⟩ := exists_ok_of_bind hmake
  obtain ⟨at', hat, hmake⟩ := exists_ok_of_bind hmake
  split at hmake <;> cases hmake
  exact h.put_directory _

/-- Making directories leaves every file as it is. -/
theorem makeDirectoriesUpTo (levels : Nat) (path : String) :
    Holds cwd P (makeDirectoriesUpTo levels path fs).2 := by
  induction levels generalizing path fs with
  | zero => exact h
  | succ levels ih =>
    unfold FileSystem.makeDirectoriesUpTo
    split
    · exact h
    split
    · rename_i hmake
      exact h.makeDirectory hmake
    split
    · have habove := ih h (parentPath path)
      split
      · rename_i heq
        rw [heq] at habove
        exact habove
      · rename_i heq
        rw [heq] at habove
        split
        · rename_i hmake
          exact habove.makeDirectory hmake
        · exact habove
    · exact h

theorem makeDirectories (path : String) :
    Holds cwd P (fs.makeDirectories path).2 := h.makeDirectoriesUpTo _ _

theorem truncate (hP : ∀ at' content n, P at' content → P at' (content.take n))
    (at' : Location) (n : Nat) : Holds cwd P (fs.truncate at' n) := by
  unfold FileSystem.truncate
  split
  · rename_i content hget
    exact h.put_file (hP at' content n (h.files at' content hget))
  · exact h

end

end Holds

end FileSystem

namespace CacheStore

open FileSystem

variable {dir : String}

/-!
## The files of a directory
-/

/-- A name that stands for itself in a path. -/
structure PlainName (name : String) : Prop where
  ne_empty : name ≠ ""
  noSlash : '/' ∉ name.toList
  ne_dot : name ≠ "."
  ne_up : name ≠ ".."

theorem components_append_slash {path : String} (h : PlainName name)
    (hpath : path.toList = dir.toList ++ '/' :: name.toList) :
    components path = components dir ++ [name] := by
  unfold components
  rw [hpath, splitOn_append_cons_self, splitOn_eq_singleton h.noSlash, map_append,
    filter_append, map_singleton, String.ofList_toList,
    filter_cons_of_pos (by simpa using h.ne_empty), filter_nil]

theorem components_slash {path : String} (hpath : path.toList = dir.toList ++ ['/']) :
    components path = components dir := by
  unfold components
  rw [hpath, splitOn_append_cons_self, splitOn_nil, map_append, filter_append]
  simp

theorem components_joinPath (h : PlainName name) :
    components (joinPath dir name) = components dir ++ [name] := by
  unfold joinPath
  by_cases hend : dir.toList.getLast? = some '/'
  · obtain ⟨front, hfront⟩ := getLast?_eq_some_iff.1 hend
    have hdir : dir.toList = (String.ofList front).toList ++ ['/'] := by
      rw [String.toList_ofList, hfront]
    rw [if_pos (.inr hend), components_slash hdir]
    refine components_append_slash h ?_
    rw [String.toList_append, hdir, append_assoc, singleton_append]
  by_cases hempty : dir = ""
  · rw [if_pos (.inl hempty), hempty]
    unfold components
    rw [String.empty_append, splitOn_eq_singleton h.noSlash]
    simp [h.ne_empty]
  · rw [if_neg (not_or.2 ⟨hempty, hend⟩)]
    refine components_append_slash h ?_
    simp

theorem isAbsolute_joinPath (h : PlainName name) :
    isAbsolute (joinPath dir name) = isAbsolute dir := by
  have hhead : ∀ path : String, (dir ++ path).toList.head? =
      dir.toList.head?.or path.toList.head? := by
    intro path
    rw [String.toList_append, head?_append]
  by_cases hempty : dir = ""
  · subst hempty
    have hname : name.toList.head? ≠ some '/' := fun hslash =>
      h.noSlash (mem_of_head? hslash)
    simpa [joinPath, isAbsolute] using hname
  · obtain ⟨c, hc⟩ : ∃ c, dir.toList.head? = some c := by
      cases hd : dir.toList with
      | nil => exact absurd (String.toList_eq_nil_iff.1 hd) hempty
      | cons c cs => exact ⟨c, rfl⟩
    unfold joinPath isAbsolute
    split
    · rw [hhead, hc]
      rfl
    · rw [String.append_assoc, hhead, hc]
      rfl

theorem locationOf_joinPath {cwd : Location} (h : PlainName name) :
    locationOf cwd (joinPath dir name) = locationOf cwd dir ++ [name] := by
  unfold locationOf
  rw [components_joinPath h, isAbsolute_joinPath h, foldl_append, foldl_cons,
    foldl_nil]
  unfold descend
  rw [if_neg h.ne_dot, if_neg h.ne_up]

end CacheStore

end GraphReduction
