import ScopedMacros.Proofs.Relexing
import ScopedMacros.Proofs.Termination

/-!
# Markers lead back to the sources

If an expansion uses no macro, its output is a copy of the text that is read, with line markers in
place of what is left out.  Scanning the output shows each token of that text at the file, line and
column where it stands in its source.
-/

namespace ScopedMacros

namespace Expansion

/-- What is seen of a source and of the files that it includes, without the branches that are not
taken. -/
def sightsRead (files : FileSet) (name text : Bytes) (env : Env) : List Sight :=
  match Token.scan name text with
  | .ok tokens =>
      (Item.read files [name] [] env (Item.ofTokens tokens)).marks.filterMap Mark.sight?
  | .error _ => []

/-- Scanning the output of an expansion that succeeds and uses no macro, under whatever name, shows
what is read of the sources, each token at its own place. -/
theorem scan_output_shows_sources (files : FileSet) (name text : Bytes) (env final : Env)
    (short : text.length < 2 ^ 31)
    (shortFiles : ∀ path contents, files.contents? path = some contents → contents.length < 2 ^ 31)
    (traceable : Token.Traceable name text)
    (traceableFiles : ∀ path contents, files.contents? path = some contents →
      Token.Traceable path contents)
    (done : (ofSource files name text env).result = .ok final)
    (free : ∀ nodes, Node.ofSource name text = .ok nodes →
      UsesNoMacro files ⟨[name], none⟩ nodes env) (file : Bytes) :
    ∃ tokens, Token.scan file (Layout.output true (ofSource files name text env).events) =
        .ok tokens ∧
      Token.sights tokens = sightsRead files name text env := by
  cases read : Node.ofSource name text with
  | error error => simp [ofSource, read] at done
  | ok nodes =>
      obtain ⟨tokens, scanned, spelled⟩ := exists_items_of_ofSource read
      simp only [ofSource, read, expand] at done ⊢
      rcases ran : run files ⟨[name], none⟩ nodes env with ⟨events, result⟩
      rw [ran] at done
      dsimp only at done
      subst done
      obtain ⟨marks, reads, same⟩ := tracks_of_spelled traceableFiles ⟨[name], none⟩ spelled
        (traceable tokens scanned) [] env events final rfl ran (free nodes read)
      have whole : Item.read files [name] [] env (Item.ofTokens tokens) = ⟨marks, final⟩ := by
        have passage := reads []
        rw [List.append_nil, Item.read_nil] at passage
        simpa [Passage.after] using passage
      have traced := Item.traced_of_scan traceableFiles shortFiles traceable short scanned [name]
        env
      rw [whole] at traced
      have shown := traced.shows.1 (by simp) none (.first file) true (by simp)
      have output : Layout.output true events =
          (Layout.mk true none).render (marks.flatMap Mark.events) := same.render Layout.start
      rw [← output] at shown
      simp only [sightsRead, scanned, whole]
      exact shown

/-- A file that ends within its line. -/
def guardedFiles : FileSet :=
  ⟨[(bytes "f", bytes "z")]⟩

/-- A source that uses a macro in a branch that is not taken, and includes a file. -/
def guardedSource : Bytes :=
  bytes "#define A\n#ifdef A\nx\n#else\nA\n#endif\n#include \"f\"\n y"

theorem scan_output_shows_guardedSource :
    ∃ tokens, Token.scan (bytes "o") (Layout.output true
          (ofSource guardedFiles (bytes "t") guardedSource .empty).events) = .ok tokens ∧
      Token.sights tokens = [⟨bytes "x", bytes "t", 3, 0⟩, ⟨bytes "z", bytes "f", 1, 0⟩,
        ⟨bytes "y", bytes "t", 8, 1⟩] := by
  have only : ∀ path contents, guardedFiles.contents? path = some contents →
      path = bytes "f" ∧ contents = bytes "z" := by
    intro path contents found
    simp only [guardedFiles, FileSet.contents?, List.lookup_cons, List.lookup_nil] at found
    split at found
    · rename_i same
      exact ⟨eq_of_beq same, (Option.some.inj found).symm⟩
    · cases found
  have succeeds : (ofSource guardedFiles (bytes "t") guardedSource .empty).result.isOk = true :=
    view_ofSource_of_within (fun outcome => outcome.result.isOk)
      (show ((Node.ofSource (bytes "t") guardedSource).toOption.bind fun nodes =>
        within guardedFiles 3 ⟨[bytes "t"], none⟩ nodes .empty).map _ = some true by decide +kernel)
  have free : ∀ nodes, Node.ofSource (bytes "t") guardedSource = .ok nodes →
      UsesNoMacro guardedFiles ⟨[bytes "t"], none⟩ nodes .empty := by
    have sees : (Node.ofSource (bytes "t") guardedSource).toOption.all
        (seesNoMacro guardedFiles 8 ⟨[bytes "t"], none⟩ · .empty) = true := by decide +kernel
    intro nodes read
    rw [read] at sees
    exact usesNoMacro_of_sees sees
  have seen : sightsRead guardedFiles (bytes "t") guardedSource .empty =
      [⟨bytes "x", bytes "t", 3, 0⟩, ⟨bytes "z", bytes "f", 1, 0⟩, ⟨bytes "y", bytes "t", 8, 1⟩] := by
    decide +kernel
  cases done : (ofSource guardedFiles (bytes "t") guardedSource .empty).result with
  | error error =>
      rw [done] at succeeds
      cases succeeds
  | ok final =>
      rw [← seen]
      refine scan_output_shows_sources guardedFiles (bytes "t") guardedSource .empty final
        (by decide) ?_ (by decide +kernel) ?_ done free (bytes "o")
      · intro path contents found
        rw [(only path contents found).2]
        decide
      · intro path contents found
        rw [(only path contents found).1, (only path contents found).2]
        decide +kernel

end Expansion

end ScopedMacros
