import ScopedMacros.Proofs.Inclusion
import ScopedMacros.Proofs.Unplacing

/-!
# Joining sources

Where a source of whole lines ends, nothing reaches over to what comes next: no token, no directive
and no call.  A source that follows is read as it would be alone, only at other places.
-/

namespace ScopedMacros

namespace Builder

/-- A builder after a source, and one that has taken the same tokens up to places. -/
theorem exists_builder_of_unplaced {tokens others : List Token} {builder : Builder}
    (taken : tokens.foldlM step empty = .ok builder) (closed : builder.frames = [])
    (same : tokens.map Token.unplaced = others.map Token.unplaced) :
    ∃ other, others.foldlM step empty = .ok other ∧ other.frames = [] ∧
      builder.nodes.map Node.unplaced = other.nodes.map Node.unplaced ∧
      (builder.call? = none → other.call? = none) := by
  obtain ⟨other, takenOther, alike⟩ := foldlM_unplaced rfl same builder taken
  obtain ⟨nodes, frames⟩ := mk.inj alike
  refine ⟨other, takenOther, ?_, nodes, fun unopened => ?_⟩
  · rw [closed] at frames
    exact List.map_eq_nil_iff.1 frames.symm
  · have opened := call?_unplaced other
    rw [← alike, call?_unplaced, unopened] at opened
    exact Option.map_eq_none_iff.1 opened.symm

end Builder

theorem Token.exists_tokens_of_joined {first second : Bytes} {front rest : List Token}
    (stretch : Stretch first front) (whole : first.WholeLines) (restStretch : Stretch second rest)
    (file : Bytes) :
    ∃ head others stop, scan file (first ++ second) = .ok (head ++ others ++ [stop]) ∧
      front.map unplaced = head.map unplaced ∧ rest.map unplaced = others.map unplaced := by
  obtain ⟨head, place, same, headRead⟩ := stretch.read (.first file) second (.inr whole)
  obtain ⟨others, ended, othersSame, othersRead⟩ := restStretch.read place [] (.inl rfl)
  have nothing : ofSource true ⟨ended, []⟩ = .ok [Cursor.point ⟨ended, []⟩ .fileEnd] :=
    ofSource_of_rest_nil rfl
  rw [List.append_nil, nothing] at othersRead
  refine ⟨head, others, Cursor.point ⟨ended, []⟩ .fileEnd, ?_, same, othersSame⟩
  rw [scan, headRead, othersRead, List.append_assoc]
  rfl

/-- Two sources that can be read can be read as one where the first is whole lines, whatever their
names are.  The nodes are those of the first source and then those of the second, up to places. -/
theorem Node.ofSource_joined {file name other first second : Bytes} {nodes others : List Node}
    (whole : first.WholeLines) (read : Node.ofSource name first = .ok nodes)
    (readOther : Node.ofSource other second = .ok others) :
    ∃ all, Node.ofSource file (first ++ second) = .ok all ∧
      all.map Node.unplaced = (nodes ++ others).map Node.unplaced := by
  obtain ⟨front, last, builder, scanned, stretch, taken, closed, rfl⟩ :=
    Node.exists_builder_of_ofSource read
  obtain ⟨rest, _, restBuilder, _, restStretch, restTaken, restClosed, rfl⟩ :=
    Node.exists_builder_of_ofSource readOther
  obtain ⟨head, tail, stop, joined, headSame, tailSame⟩ :=
    Token.exists_tokens_of_joined stretch whole restStretch file
  obtain ⟨base, baseTaken, baseClosed, baseNodes, baseApart⟩ :=
    Builder.exists_builder_of_unplaced taken closed headSame
  obtain ⟨top, topTaken, topClosed, topNodes, _⟩ :=
    Builder.exists_builder_of_unplaced restTaken restClosed tailSame
  have block : Builder.AtBlock base.frames := by
    rw [baseClosed]
    trivial
  have unopened : base.call? = none := by
    obtain ⟨stands, _⟩ := Builder.stands_of_scan scanned (stretch.apart whole) taken
    exact baseApart (stands.closed rfl (by rw [closed]; trivial))
  have stacked : tail.foldlM Builder.step base = .ok (base.stack top) :=
    Builder.foldlM_stack_of_ok block unopened topTaken
  refine ⟨base.nodes.reverse ++ top.nodes.reverse, ?_, ?_⟩
  · rw [Node.ofSource_eq joined, List.foldlM_append, baseTaken]
    refine bind_eq_ok_iff.2 ⟨_, stacked, ?_⟩
    obtain ⟨nodes, frames⟩ := top
    obtain rfl : frames = [] := topClosed
    simp [Builder.finish, Builder.stack, Builder.onto, baseClosed]
  · simp only [List.map_append, List.map_reverse, baseNodes, topNodes]

/-- A continued definition, and a call whose line ends in an apostrophe. -/
def Node.callLines : Bytes :=
  bytes "#define f(x) \\\n  x\nf(1) '\n"

/-- A parenthesis, a name that stands for its place, and a directive. -/
def Node.parenLines : Bytes :=
  bytes "(__LINE__)'a\n#undef f"

theorem Node.ofSource_joined_callLines :
    callLines.WholeLines ∧ ∃ nodes others all, Node.ofSource (bytes "s") callLines = .ok nodes ∧
      Node.ofSource (bytes "t") parenLines = .ok others ∧
      Node.ofSource (bytes "u") (callLines ++ parenLines) = .ok all ∧
      all.map Node.unplaced = (nodes ++ others).map Node.unplaced := by
  have whole : callLines.WholeLines :=
    .inr ⟨bytes "#define f(x) \\\n  x\nf(1) '", by decide, by decide⟩
  obtain ⟨nodes, read⟩ : ∃ nodes, Node.ofSource (bytes "s") callLines = .ok nodes :=
    exists_eq_ok_of_isOk (by decide +kernel)
  obtain ⟨others, readOther⟩ : ∃ others, Node.ofSource (bytes "t") parenLines = .ok others :=
    exists_eq_ok_of_isOk (by decide +kernel)
  obtain ⟨all, joined, same⟩ := Node.ofSource_joined whole read readOther
  exact ⟨whole, nodes, others, all, read, readOther, joined, same⟩

end ScopedMacros
