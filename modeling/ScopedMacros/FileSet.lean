import ScopedMacros.Bytes

/-!
# Sets of files

The files that a source may include, each under one name.
-/

namespace ScopedMacros

structure FileSet where
  /-- Names with contents; the first entry of a name counts. -/
  entries : List (Bytes × Bytes)
  deriving DecidableEq, Repr

namespace FileSet

def empty : FileSet :=
  ⟨[]⟩

/-- Adds a file, in place of the one of the same name. -/
def insert (files : FileSet) (name contents : Bytes) : FileSet :=
  ⟨(name, contents) :: files.entries.filter (·.1 != name)⟩

def contents? (files : FileSet) (name : Bytes) : Option Bytes :=
  files.entries.lookup name

def names (files : FileSet) : List Bytes :=
  files.entries.map (·.1)

theorem mem_names_of_contents? {files : FileSet} {name contents : Bytes}
    (found : files.contents? name = some contents) : name ∈ files.names := by
  obtain ⟨entries⟩ := files
  simp only [contents?] at found
  induction entries with
  | nil => cases found
  | cons entry rest ih =>
      obtain ⟨key, value⟩ := entry
      rw [List.lookup_cons] at found
      split at found
      · next same => simp [names, eq_of_beq same]
      · exact List.mem_cons_of_mem _ (ih found)

end FileSet

end ScopedMacros
