import TileAsm.Command.Files
import TileAsm.Proofs.Basic

/-!
# What commands expect of files

A command is written for any means to read and write files. What it can rely on is little: to look
at files changes none of them, and a file holds what was written to it last (`LawfulFileAccess`).
What is said about commands elsewhere is said about every file system with these two properties.

A `Folder` is such a file system. That looking changes nothing is how it is built. That a path is
read as it was written needs an argument, since writing changes the folder, and a path is followed
anew for reading. A path can only be written to if all that is above it is a directory already, so
no path becomes that of a directory, and none ceases to be (`Folder.hasDirectory_put`). The path is
therefore followed the same way.
-/

namespace TileAsm.Command

namespace FileAccess

variable {σ : Type} [FileAccess (StateM σ)]

/-- What reading a file gives in a state of the file system. -/
def contents (s : σ) (path : String) : Except FileError (List UInt8) :=
  ((read path : StateM σ (Except FileError (List UInt8))).run s).1

/-- The full path of a file in a state of the file system. -/
def location (s : σ) (path : String) : String := ((absolute path : StateM σ String).run s).1

/-- Whether a file can be written, whatever is to be in it. -/
def IsWritable (s : σ) (path : String) : Prop :=
  ∀ bytes, ∃ s', (write path bytes : StateM σ (Except FileError Unit)).run s = (.ok (), s')

end FileAccess

/-- A file system that behaves as file systems do. -/
class LawfulFileAccess (σ : Type) [FileAccess (StateM σ)] : Prop where
  /-- Reading changes nothing. -/
  run_read (path : String) (s : σ) :
    (FileAccess.read path : StateM σ (Except FileError (List UInt8))).run s =
      (FileAccess.contents s path, s)
  /-- Asking for a full path changes nothing. -/
  run_absolute (path : String) (s : σ) :
    (FileAccess.absolute path : StateM σ String).run s = (FileAccess.location s path, s)
  /-- A file holds what was written to it. -/
  contents_of_write {path : String} {bytes : List UInt8} {s s' : σ} :
    (FileAccess.write path bytes : StateM σ (Except FileError Unit)).run s = (.ok (), s') →
      FileAccess.contents s' path = .ok bytes

/-! ### Folders -/

namespace Folder

variable {f : Folder} {target path : Path} {bytes : List UInt8}

/-- Whether all that is above a path is a directory. -/
def IsReached (f : Folder) (target : Path) : Prop :=
  ∀ path, path <+: target → path ≠ target → f.hasDirectory path = true

/-- One part of a path leads from a directory to the same place, one up, or one down. -/
theorem enter_cases {current next : Path} {part : String} (h : f.enter current part = .ok next) :
    f.hasDirectory current = true ∧
      (next = current ∨ next = current.dropLast ∨ next = current ++ [part]) := by
  unfold enter at h
  split at h
  · rename_i hcurrent
    refine ⟨hcurrent, ?_⟩
    split at h
    · exact .inl (Except.ok.inj h).symm
    · split at h
      · exact .inr (.inl (Except.ok.inj h).symm)
      · split at h
        · exact absurd h (by simp)
        · exact .inr (.inr (Except.ok.inj h).symm)
  · split at h <;> exact absurd h (by simp)

theorem IsReached.enter {current : Path} {part : String} (h : f.IsReached current)
    (hnext : f.enter current part = .ok target) : f.IsReached target := by
  obtain ⟨hcurrent, rfl | rfl | rfl⟩ := enter_cases hnext
  · exact h
  · -- what is above the place one up is above the place itself
    intro path hpath hne
    refine h path (hpath.trans (List.dropLast_prefix current)) ?_
    rintro rfl
    exact hne (hpath.eq_of_length_le (by simp))
  · intro path hpath hne
    rcases List.prefix_concat_iff.1 hpath with rfl | hpath
    · exact absurd rfl hne
    · by_cases heq : path = current
      · rw [heq]
        exact hcurrent
      · exact h path hpath heq

/-- A path that can be followed leads to a place below directories. -/
theorem isReached_of_follow {parts : List String} (h : f.follow parts = .ok target) :
    f.IsReached target := by
  refine foldlM_ok_induction (fun _ _ _ hcurrent hnext ↦ hcurrent.enter hnext) ?_ h
  intro path hpath hne
  exact absurd (List.prefix_nil.1 hpath) hne

/-- Writing a file neither makes a directory nor removes one. -/
theorem hasDirectory_put (h : f.IsReached target) (path : Path) :
    (f.put target bytes).hasDirectory path = f.hasDirectory path := by
  rw [Bool.eq_iff_iff]
  constructor
  · intro hdir
    by_cases hfile : path <+: target ∧ path ≠ target
    · exact h path hfile.1 hfile.2
    · simp only [hasDirectory, put, List.any_cons, List.any_filter, Bool.or_eq_true,
        List.any_eq_true, Bool.and_eq_true, List.isPrefixOf_iff_prefix, bne_iff_ne] at hdir ⊢
      rcases hdir with habove | ⟨hpre, hne⟩ | ⟨entry, hentry, -, hpre, hne⟩
      · exact .inl habove
      · exact absurd ⟨hpre, Ne.symm hne⟩ hfile
      · exact .inr ⟨entry, hentry, hpre, hne⟩
  · intro hdir
    simp only [hasDirectory, put, List.any_cons, List.any_filter, Bool.or_eq_true, List.any_eq_true,
      Bool.and_eq_true, List.isPrefixOf_iff_prefix, bne_iff_ne] at hdir ⊢
    rcases hdir with habove | ⟨entry, hentry, hpre, hne⟩
    · exact .inl habove
    · -- a file that is replaced is still there
      by_cases htarget : entry.1 = target
      · exact .inr (.inl (htarget ▸ ⟨hpre, hne⟩))
      · exact .inr (.inr ⟨entry, hentry, htarget, hpre, hne⟩)

/-- A path leads where it led, as long as the directories are the same. -/
theorem follow_eq_of_hasDirectory_eq {g : Folder} {parts : List String}
    (hdir : ∀ path, g.hasDirectory path = f.hasDirectory path) (h : f.follow parts = .ok target) :
    g.follow parts = .ok target := by
  refine foldlM_eq_ok_of_step (fun current part next hnext ↦ ?_) h
  have hcurrent := (enter_cases hnext).1
  rw [enter, if_pos hcurrent] at hnext
  rw [enter, hdir, if_pos hcurrent]
  exact hnext

/-- What it takes to write a file, and what the folder is then. -/
theorem write_eq_ok_iff {path : String} {f' : Folder} :
    f.write path bytes = .ok f' ↔
      ∃ parts target, Folder.parts path = .ok parts ∧ parts.getLast? ≠ some "" ∧
        f.follow parts = .ok target ∧ f.hasDirectory target = false ∧ f' = f.put target bytes := by
  rw [write, bind_eq_ok_iff]
  constructor
  · rintro ⟨parts, hparts, h⟩
    split at h
    · obtain ⟨above, -, h⟩ := bind_eq_ok_iff.1 h
      obtain ⟨_, -, h⟩ := bind_eq_ok_iff.1 h
      exact absurd h (by simp)
    · rename_i hlast
      obtain ⟨target, htarget, h⟩ := bind_eq_ok_iff.1 h
      split at h
      · exact absurd h (by simp)
      · rename_i hdir
        exact ⟨parts, target, hparts, hlast, htarget, by simpa using hdir, (Except.ok.inj h).symm⟩
  · rintro ⟨parts, target, hparts, hlast, htarget, hdir, rfl⟩
    refine ⟨parts, hparts, ?_⟩
    rw [if_neg hlast, htarget, ok_bind, hdir]
    rfl

/-- **A file holds what was written to it.** -/
theorem read_of_write {path : String} {f' : Folder} (h : f.write path bytes = .ok f') :
    f'.read path = .ok bytes := by
  obtain ⟨parts, target, hparts, -, hfollow, hfile, rfl⟩ := write_eq_ok_iff.1 h
  have hdir : ∀ path, (f.put target bytes).hasDirectory path = f.hasDirectory path :=
    hasDirectory_put (isReached_of_follow hfollow)
  have hfind : (f.put target bytes).find? target = some bytes := List.lookup_cons_self
  refine bind_eq_ok_iff.2 ⟨target, ?_, ?_⟩
  · exact bind_eq_ok_iff.2 ⟨parts, hparts, follow_eq_of_hasDirectory_eq hdir hfollow⟩
  · rw [hdir, hfile, hfind]
    rfl

/-- Whether a file can be written does not depend on what is written. -/
theorem exists_write {path : String} {f' : Folder} (h : f.write path bytes = .ok f')
    (bytes' : List UInt8) : ∃ g, f.write path bytes' = .ok g := by
  obtain ⟨parts, target, hparts, hlast, hfollow, hfile, rfl⟩ := write_eq_ok_iff.1 h
  exact ⟨_, write_eq_ok_iff.2 ⟨parts, target, hparts, hlast, hfollow, hfile, rfl⟩⟩

theorem run_write_eq_ok_iff {path : String} {g : Folder} :
    (FileAccess.write path bytes : StateM Folder (Except FileError Unit)).run f = (.ok (), g) ↔
      f.write path bytes = .ok g := by
  simp only [FileAccess.write, StateT.run_bind, StateT.run_get, pure_bind]
  rcases f.write path bytes with e | f'
  · exact iff_of_false (fun h ↦ absurd (Prod.mk.inj h).1 (by simp)) (by simp)
  · exact ⟨fun h ↦ congrArg Except.ok (Prod.mk.inj h).2, fun h ↦ Except.ok.inj h ▸ rfl⟩

theorem isWritable_of_write {path : String} {f' : Folder} (h : f.write path bytes = .ok f') :
    FileAccess.IsWritable f path := by
  intro bytes'
  obtain ⟨g, hg⟩ := exists_write h bytes'
  exact ⟨g, run_write_eq_ok_iff.2 hg⟩

end Folder

instance : LawfulFileAccess Folder where
  run_read _ _ := rfl
  run_absolute _ _ := rfl
  contents_of_write h := Folder.read_of_write (Folder.run_write_eq_ok_iff.1 h)

end TileAsm.Command
