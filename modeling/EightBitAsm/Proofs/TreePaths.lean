import EightBitAsm.CommandLine.Tree
import EightBitAsm.Result
import Mathlib

/-! Where paths lead. Two paths can name one file, so what a write changes is told by places and not
by paths. In a tree the place of a path follows from its names alone: the folders only decide
whether one gets there. -/
namespace EightBitAsm.CommandLine

/-- The places of a file system, with what lies in each of them. -/
structure Resolution {φ : Type} (fs : FileSystem φ) (ι : Type) where
  place : String → ι
  content : φ → ι → Option (List UInt8)
  content_of_read : ∀ {files path bytes}, fs.read files path = .ok bytes →
    content files (place path) = some bytes
  content_of_write : ∀ {files path bytes after}, fs.write files path bytes = (.ok (), after) →
    content after (place path) = some bytes
  content_elsewhere : ∀ {files path bytes after}, fs.write files path bytes = (.ok (), after) →
    ∀ i, i ≠ place path → content after i = content files i

namespace Tree

variable {tree : Tree} {files after : Files}

theorem walk_eq_ok {place last : Place} {names : List String}
    (h : tree.walk files place names = .ok last) : last = names.foldl Place.follow place := by
  induction names generalizing place with
  | nil =>
    cases h
    rfl
  | cons name rest ih =>
    rw [walk] at h
    split at h
    · cases h
    · split at h
      · exact ih h
      · cases h

def placeOf (tree : Tree) (path : Path) : Place :=
  path.names.foldl Place.follow (tree.start path)

theorem locate_eq_ok {path : Path} {name : String} (h : tree.locate files path = .ok name) :
    name = (tree.placeOf path).fileName := by
  obtain ⟨place, hwalk, h⟩ := bind_eq_ok_iff.mp h
  split at h
  · cases h
  · cases h
    rw [walk_eq_ok hwalk, placeOf]

def fileOf (tree : Tree) (text : String) : String :=
  (tree.placeOf (.ofChars text.toList)).fileName

theorem ofText_eq_ok {text : String} {path : Path} (h : Path.ofText text = .ok path) :
    path = .ofChars text.toList := by
  unfold Path.ofText at h
  split at h
  · cases h
  · split at h
    · cases h
      rfl
    · cases h

theorem find?_of_read {text : String} {content : List UInt8}
    (h : tree.read files text = .ok content) : files.find? (tree.fileOf text) = some content := by
  obtain ⟨path, hpath, h⟩ := bind_eq_ok_iff.mp h
  obtain ⟨name, hname, h⟩ := bind_eq_ok_iff.mp h
  rw [fileOf, ← ofText_eq_ok hpath, ← locate_eq_ok hname]
  split at h
  · cases h
  · next hfind =>
    split at h
    · cases h
    · cases h
      exact hfind

theorem eq_of_write {text : String} {content : List UInt8}
    (h : tree.write files text content = .ok after) :
    after = files.insert (tree.fileOf text) content := by
  obtain ⟨path, hpath, h⟩ := bind_eq_ok_iff.mp h
  split at h
  · cases h
  · obtain ⟨name, hname, h⟩ := bind_eq_ok_iff.mp h
    cases h
    rw [fileOf, ← ofText_eq_ok hpath, ← locate_eq_ok hname]

theorem eq_of_fileSystem_write {text : String} {content : List UInt8}
    (h : tree.fileSystem.write files text content = (.ok (), after)) :
    after = files.insert (tree.fileOf text) content := by
  simp only [fileSystem] at h
  split at h
  · next hwrite =>
    cases h
    exact eq_of_write hwrite
  · cases h

/-- Folders stay, and a write changes the file to which its path leads. -/
def resolution (tree : Tree) : Resolution tree.fileSystem String where
  place := tree.fileOf
  content files name := files.find? name
  content_of_read := find?_of_read
  content_of_write := by
    intro files path bytes after h
    simp [eq_of_fileSystem_write h, NameMap.find?_insert]
  content_elsewhere := by
    intro files path bytes after h i hi
    simp [eq_of_fileSystem_write h, NameMap.find?_insert, hi]

theorem place_resolution (text : String) : tree.resolution.place text = tree.fileOf text := rfl

theorem content_resolution (name : String) :
    tree.resolution.content files name = files.find? name := rfl

end Tree

end EightBitAsm.CommandLine
