/-
# Files of one directory

Names linked to files and files with contents, as a POSIX directory has them: a name can be
unlinked or replaced while a writer still holds the file it was linked to.
-/

import Mathlib.Data.Nat.Notation
import Mathlib.Logic.Function.Basic

namespace TieredCache.Math.Files

universe u
variable {Name : Type u}

/-- The files of a directory and the names linked to them.  Every linked file has been made,
and no file is linked twice. -/
structure Disk (Name : Type u) where
  links : Name → Option ℕ
  contents : ℕ → List UInt8
  /-- How many files have been made. -/
  count : ℕ
  known : ∀ (name : Name) (file : ℕ), links name = some file → file < count
  alone : ∀ (name name' : Name) (file : ℕ), links name = some file → links name' = some file → name = name'

namespace Disk

variable {d d' : Disk Name} {name other source target : Name} {file : ℕ} {bytes : List UInt8}

/-- A directory without files. -/
def empty (Name : Type u) : Disk Name where
  links := fun _ => none
  contents := fun _ => []
  count := 0
  known := nofun
  alone := nofun

/-- What a reader of the name finds. -/
def read (d : Disk Name) (name : Name) : Option (List UInt8) := (d.links name).map d.contents

/-- Rewrite one file. -/
def write (d : Disk Name) (file : ℕ) (bytes : List UInt8) : Disk Name :=
  { d with contents := Function.update d.contents file bytes }

/-- Put bytes at the end of a file. -/
def append (d : Disk Name) (file : ℕ) (bytes : List UInt8) : Disk Name :=
  d.write file (d.contents file ++ bytes)

theorem read_eq_none_iff : d.read name = none ↔ d.links name = none := by
  unfold read
  rw [Option.map_eq_none_iff]

theorem read_of_links (h : d.links name = some file) : d.read name = some (d.contents file) := by
  rw [read, h, Option.map_some]

@[simp]
theorem links_append (d : Disk Name) (file : ℕ) (bytes : List UInt8) :
    (d.append file bytes).links = d.links := rfl

theorem contents_append (d : Disk Name) (file : ℕ) (bytes : List UInt8) :
    (d.append file bytes).contents file = d.contents file ++ bytes :=
  Function.update_self ..

theorem read_append_self (h : d.links name = some file) :
    (d.append file bytes).read name = some (d.contents file ++ bytes) := by
  rw [read, links_append, h]
  exact congrArg some (Function.update_self ..)

theorem read_append_other (h : d.links other ≠ some file) :
    (d.append file bytes).read other = d.read other := by
  rw [read, links_append, read]
  cases hlink : d.links other with
  | none => rfl
  | some file' =>
      refine congrArg some (Function.update_of_ne ?_ ..)
      rintro rfl
      exact h hlink

section Names

variable [DecidableEq Name]

/-- Link a new, empty file to a name. -/
def make (d : Disk Name) (name : Name) : Disk Name where
  links := Function.update d.links name (some d.count)
  contents := Function.update d.contents d.count []
  count := d.count + 1
  known := fun other file h => by
    by_cases hother : other = name
    · rw [hother, Function.update_self] at h
      cases h
      exact Nat.lt_succ_self _
    · rw [Function.update_of_ne hother] at h
      exact Nat.lt_succ_of_lt (d.known other file h)
  alone := fun a b file ha hb => by
    have hnew : ∀ c, c ≠ name → d.links c ≠ some d.count := fun c _ hc =>
      absurd (d.known c _ hc) (Nat.lt_irrefl _)
    by_cases hna : a = name <;> by_cases hnb : b = name
    · rw [hna, hnb]
    · rw [hna, Function.update_self] at ha
      rw [Function.update_of_ne hnb] at hb
      cases ha
      exact absurd hb (hnew b hnb)
    · rw [hnb, Function.update_self] at hb
      rw [Function.update_of_ne hna] at ha
      cases hb
      exact absurd ha (hnew a hna)
    · rw [Function.update_of_ne hna] at ha
      rw [Function.update_of_ne hnb] at hb
      exact d.alone a b file ha hb

/-- Open a name for writing: its file is emptied, or made. -/
def create (d : Disk Name) (name : Name) : ℕ × Disk Name :=
  match d.links name with
  | some file => (file, d.write file [])
  | none => (d.count, d.make name)

/-- Remove a name. -/
def unlink (d : Disk Name) (name : Name) : Disk Name where
  links := Function.update d.links name none
  contents := d.contents
  count := d.count
  known := fun other file h => by
    by_cases hother : other = name
    · rw [hother, Function.update_self] at h
      cases h
    · rw [Function.update_of_ne hother] at h
      exact d.known other file h
  alone := fun a b file ha hb => by
    by_cases hna : a = name
    · rw [hna, Function.update_self] at ha
      cases ha
    · by_cases hnb : b = name
      · rw [hnb, Function.update_self] at hb
        cases hb
      · rw [Function.update_of_ne hna] at ha
        rw [Function.update_of_ne hnb] at hb
        exact d.alone a b file ha hb

/-- Link the file of `source` to `target` as well, once neither has a file. -/
private def link (d : Disk Name) (target : Name) (file : ℕ) (hknown : file < d.count)
    (hfree : ∀ name, d.links name ≠ some file) : Disk Name where
  links := Function.update d.links target (some file)
  contents := d.contents
  count := d.count
  known := fun other file' h => by
    by_cases hother : other = target
    · rw [hother, Function.update_self] at h
      cases h
      exact hknown
    · rw [Function.update_of_ne hother] at h
      exact d.known other file' h
  alone := fun a b file' ha hb => by
    by_cases hna : a = target <;> by_cases hnb : b = target
    · rw [hna, hnb]
    · rw [hna, Function.update_self] at ha
      rw [Function.update_of_ne hnb] at hb
      cases ha
      exact absurd hb (hfree b)
    · rw [hnb, Function.update_self] at hb
      rw [Function.update_of_ne hna] at ha
      cases hb
      exact absurd ha (hfree a)
    · rw [Function.update_of_ne hna] at ha
      rw [Function.update_of_ne hnb] at hb
      exact d.alone a b file' ha hb

/-- Move the file of `source` to the name `target`; there must be one. -/
def rename (d : Disk Name) (source target : Name) : Option (Disk Name) :=
  match h : d.links source with
  | none => none
  | some file =>
      some ((d.unlink source).link target file (d.known source file h) fun name hname => by
        by_cases hname' : name = source
        · rw [hname'] at hname
          have hself : (d.unlink source).links source = none := Function.update_self ..
          rw [hself] at hname
          cases hname
        · have hkept : (d.unlink source).links name = d.links name :=
            Function.update_of_ne hname' ..
          rw [hkept] at hname
          exact hname' (d.alone name source file hname h))

/-! ## What the operations change -/

theorem create_of_links (h : d.links name = some file) : d.create name = (file, d.write file []) := by
  rw [create, h]

theorem create_of_free (h : d.links name = none) : d.create name = (d.count, d.make name) := by
  rw [create, h]

/-- The created file is linked to its name and empty. -/
theorem create_links (d : Disk Name) (name : Name) :
    (d.create name).2.links name = some (d.create name).1 ∧
      (d.create name).2.contents (d.create name).1 = [] := by
  cases h : d.links name with
  | none =>
      rw [create_of_free h]
      exact ⟨Function.update_self .., Function.update_self ..⟩
  | some file =>
      rw [create_of_links h]
      exact ⟨h, Function.update_self ..⟩

theorem create_links_other (hother : other ≠ name) :
    (d.create name).2.links other = d.links other := by
  cases h : d.links name with
  | none =>
      rw [create_of_free h]
      exact Function.update_of_ne hother ..
  | some file =>
      rw [create_of_links h]
      rfl

theorem read_create_other (hother : other ≠ name) : (d.create name).2.read other = d.read other := by
  unfold read
  rw [create_links_other hother]
  cases hlink : d.links other with
  | none => rfl
  | some file =>
      refine congrArg some ?_
      cases h : d.links name with
      | none =>
          rw [create_of_free h]
          exact Function.update_of_ne (Nat.ne_of_lt (d.known other file hlink)) ..
      | some file' =>
          rw [create_of_links h]
          refine Function.update_of_ne ?_ ..
          rintro rfl
          exact hother (d.alone other name file hlink h)

theorem read_unlink_self (d : Disk Name) (name : Name) : (d.unlink name).read name = none :=
  read_eq_none_iff.mpr (Function.update_self ..)

theorem links_unlink_other (hother : other ≠ name) :
    (d.unlink name).links other = d.links other :=
  Function.update_of_ne hother ..

theorem read_unlink_other (hother : other ≠ name) : (d.unlink name).read other = d.read other := by
  rw [read, links_unlink_other hother]
  rfl

theorem rename_eq_none_iff : d.rename source target = none ↔ d.links source = none := by
  unfold rename
  split <;> rename_i h <;> simp [h]

/-- A renamed file is found under its new name, and no other name has moved. -/
theorem rename_eq_some (h : d.rename source target = some d') (hne : source ≠ target) :
    ∃ file, d.links source = some file ∧ d'.links target = some file ∧ d'.links source = none ∧
      (∀ name, name ≠ source → name ≠ target → d'.links name = d.links name) ∧
      d'.contents = d.contents := by
  unfold rename at h
  split at h
  · cases h
  · rename_i file hlink
    cases h
    refine ⟨file, hlink, Function.update_self .., ?_, fun name hs ht => ?_, rfl⟩
    · exact (Function.update_of_ne hne ..).trans (Function.update_self ..)
    · exact (Function.update_of_ne ht ..).trans (Function.update_of_ne hs ..)

end Names

end Disk

end TieredCache.Math.Files
