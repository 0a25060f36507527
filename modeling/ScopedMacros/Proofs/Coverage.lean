import ScopedMacros.Proofs.Tiling

/-!
# Scanning loses nothing

The tokens of a source stand in its order and do not overlap, each one has the bytes that it lies
on for a text, and a byte that no token holds is a blank or a continued newline of a directive line
or the newline at its end.  All of it follows from the tiling of the source by induction on it.
-/

namespace ScopedMacros.Token

/-- The token lies on the byte at an index of its source. -/
def Holds (token : Token) (index : Nat) : Prop :=
  token.begins ≤ index ∧ index < token.ends

/-- The tokens that end up to an index and those that begin after it. -/
structure SplitAt (tokens : List Token) (index : Nat) (before after : List Token) : Prop where
  whole : tokens = before ++ after
  ended : ∀ token ∈ before, token.ends ≤ index
  ahead : ∀ token ∈ after, index < token.begins

/-- Why no token holds the byte at an index, between the tokens before it and those after it.  The
zone is that of the first token. -/
inductive LeftOut (zone : Zone) (text : Bytes) (index : Nat) (before after : List Token) :
    Prop where
  /-- There are only blanks from the index up to a directive word. -/
  | indent {token : Token} (next : after.head? = some token) (kind : token.kind = .directive)
      (blank : ∀ place, index ≤ place → place < token.begins →
        ∃ byte, text[place]? = some byte ∧ Byte.isBlank byte = true)
  | blank {byte : Byte} (inLine : zone.afterAll before = .line)
      (here : text[index]? = some byte) (blank : Byte.isBlank byte = true)
  /-- The index is one of the two places of a backslash and a newline. -/
  | continued {place : Nat} (inLine : zone.afterAll before = .line)
      (here : index = place ∨ index = place + 1) (backslash : text[place]? = some Byte.backslash)
      (newline : text[place + 1]? = some Byte.newline)
  /-- The newline at the end of a directive line. -/
  | newline {token : Token} (last : before.getLast? = some token) (kind : token.kind = .lineEnd)
      (ends : token.ends = index) (here : text[index]? = some Byte.newline)

/-- The byte at an index is left out among the tokens. -/
def LeavesOut (zone : Zone) (text : Bytes) (index : Nat) (tokens : List Token) : Prop :=
  ∃ before after, SplitAt tokens index before after ∧ LeftOut zone text index before after

/-- One token ends the source, at the given offset, and it is the last one. -/
def EndsAt (offset : Nat) (tokens : List Token) : Prop :=
  ∃ front stop, tokens = front ++ [stop] ∧ stop.kind = .fileEnd ∧ stop.LiesOn offset [] ∧
    ∀ token ∈ front, token.kind ≠ .fileEnd

/-- The tokens of a source lose nothing of it. -/
structure Covers (text : Bytes) (tokens : List Token) : Prop where
  /-- No token ends before it begins. -/
  upright : ∀ token ∈ tokens, token.begins ≤ token.ends
  ordered : tokens.Pairwise fun first second => first.ends ≤ second.begins
  ended : EndsAt text.length tokens
  writes : ∀ before token after, tokens = before ++ token :: after →
    Writes (Zone.text.afterAll before) token (text.extract token.begins token.ends)
      (text.drop token.ends)
  leftOut : ∀ index, index < text.length → (∀ token ∈ tokens, ¬ token.Holds index) →
    LeavesOut .text text index tokens
  /-- Nothing is left out in front of a source that does not open with a directive. -/
  opening : ∀ token after, tokens = token :: after → token.kind ≠ .directive → token.begins = 0
  /-- Nothing is left out between two tokens outside directive lines, nor in bodies. -/
  adjoining : ∀ before first second after, tokens = before ++ first :: second :: after →
    Zone.text.afterAll (before ++ [first]) ≠ .line → first.kind ≠ .lineEnd →
      second.kind ≠ .directive → first.ends = second.begins

theorem EndsAt.cons {token : Token} {offset : Nat} {tokens : List Token}
    (goesOn : token.kind ≠ .fileEnd) (ended : EndsAt offset tokens) :
    EndsAt offset (token :: tokens) := by
  obtain ⟨front, stop, rfl, kind, lies, others⟩ := ended
  exact ⟨token :: front, stop, rfl, kind, lies, List.forall_mem_cons.2 ⟨goesOn, others⟩⟩

namespace Tiles

variable {zone : Zone} {offset : Nat} {rest : Bytes} {tokens : List Token}

/-! ## Order -/

theorem bounds (tiles : Tiles zone offset rest tokens) :
    ∀ token ∈ tokens, offset ≤ token.begins ∧ token.begins ≤ token.ends := by
  induction tiles with
  | stop kind writes lies =>
      intro token member
      obtain rfl := List.mem_singleton.1 member
      rw [lies.begins, lies.ends]
      omega
  | token goesOn lies writes tiles ih =>
      rintro token (- | ⟨_, member⟩)
      · rw [lies.begins, lies.ends]
        omega
      · have := ih token member
        omega
  | lineEnd kind writes lies ended tiles ih =>
      rintro token (- | ⟨_, member⟩)
      · rw [lies.begins, lies.ends]
        omega
      · have := ih token member
        omega
  | indent kind begins blank tiles ih =>
      intro token member
      have := ih token member
      omega
  | blank blank tiles ih =>
      intro token member
      have := ih token member
      omega
  | continued tiles ih =>
      intro token member
      have := ih token member
      omega

theorem pairwise (tiles : Tiles zone offset rest tokens) :
    tokens.Pairwise fun first second => first.ends ≤ second.begins := by
  induction tiles with
  | stop => exact List.pairwise_singleton _ _
  | token goesOn lies writes tiles ih =>
      refine List.pairwise_cons.2 ⟨fun second member => ?_, ih⟩
      rw [lies.ends]
      exact (tiles.bounds second member).1
  | lineEnd kind writes lies ended tiles ih =>
      refine List.pairwise_cons.2 ⟨fun second member => ?_, ih⟩
      rw [lies.ends]
      exact Nat.le_trans (Nat.le_add_right _ _) (tiles.bounds second member).1
  | indent kind begins blank tiles ih => exact ih
  | blank blank tiles ih => exact ih
  | continued tiles ih => exact ih

theorem endsAt (tiles : Tiles zone offset rest tokens) : EndsAt (offset + rest.length) tokens := by
  induction tiles with
  | stop kind writes lies => exact ⟨[], _, rfl, kind, lies, by simp⟩
  | token goesOn lies writes tiles ih =>
      rw [List.length_append, ← Nat.add_assoc]
      exact ih.cons goesOn
  | lineEnd kind writes lies ended tiles ih =>
      rw [List.length_append, ← Nat.add_assoc]
      exact ih.cons (by rw [kind]; decide)
  | indent kind begins blank tiles ih => rwa [List.length_append, ← Nat.add_assoc]
  | blank blank tiles ih => rwa [List.length_cons, Nat.add_comm _ 1, ← Nat.add_assoc]
  | continued tiles ih =>
      rwa [List.length_cons, List.length_cons, Nat.add_assoc _ 1 1, Nat.add_comm _ 2,
        ← Nat.add_assoc]

/-! ## Texts -/

/-- What stands in a source after the bytes at an offset. -/
theorem drop_add {text raw rest : Bytes} {offset : Nat} (placed : text.drop offset = raw ++ rest) :
    text.drop (offset + raw.length) = rest := by
  rw [← List.drop_drop, placed, List.drop_left]

theorem writes_at (tiles : Tiles zone offset rest tokens) {text : Bytes} :
    text.drop offset = rest → ∀ before token after, tokens = before ++ token :: after →
      Writes (zone.afterAll before) token (text.extract token.begins token.ends)
        (text.drop token.ends) := by
  induction tiles with
  | @stop _ stop kind writes lies =>
      intro placed before token after split
      obtain ⟨rfl, rfl, rfl⟩ : before = [] ∧ token = stop ∧ after = [] := by
        cases before with
        | nil => exact ⟨rfl, (List.cons.inj split).imp Eq.symm Eq.symm⟩
        | cons first before => simp at split
      simpa only [Writes, kind] using writes
  | @token zone offset raw rest head tokens goesOn lies writes tiles ih =>
      intro placed before token after split
      cases before with
      | nil =>
          obtain ⟨rfl, rfl⟩ := List.cons.inj split
          have slice : text.extract head.begins head.ends = raw := by
            rw [List.extract_eq_take_drop, lies.begins, lies.ends, placed,
              Nat.add_sub_cancel_left, List.take_left]
          rw [slice, lies.ends, drop_add placed]
          exact writes
      | cons first before =>
          obtain ⟨rfl, others⟩ := List.cons.inj split
          exact ih (drop_add placed) before token after others
  | @lineEnd zone offset newline rest head tokens kind writes lies ended tiles ih =>
      intro placed before token after split
      cases before with
      | nil =>
          obtain ⟨rfl, rfl⟩ := List.cons.inj split
          simpa only [Writes, kind] using writes
      | cons first before =>
          obtain ⟨rfl, others⟩ := List.cons.inj split
          have inText : zone.after head.kind = .text := by
            rw [kind]
            rfl
          have later := ih (drop_add placed) before token after others
          rwa [← inText] at later
  | indent kind begins blank tiles ih => exact fun placed => ih (drop_add placed)
  | @blank offset byte rest tokens blank tiles ih =>
      exact fun placed => ih (@drop_add text [byte] rest offset placed)
  | @continued offset rest tokens tiles ih =>
      exact fun placed => ih (@drop_add text [Byte.backslash, Byte.newline] rest offset placed)

/-! ## What is left out -/

theorem getElem?_of_drop {text rest : Bytes} {offset : Nat} {byte : Byte}
    (placed : text.drop offset = byte :: rest) : text[offset]? = some byte := by
  rw [← List.head?_drop, placed]
  rfl

/-- Blanks at an offset, place by place. -/
theorem blank_of_drop {text blanks rest : Bytes} {offset : Nat}
    (placed : text.drop offset = blanks ++ rest)
    (blank : ∀ byte ∈ blanks, Byte.isBlank byte = true) {place : Nat} (start : offset ≤ place)
    (stop : place < offset + blanks.length) :
    ∃ byte, text[place]? = some byte ∧ Byte.isBlank byte = true := by
  obtain ⟨distance, rfl⟩ := Nat.exists_eq_add_of_le start
  have inside : distance < blanks.length := by omega
  refine ⟨blanks[distance], ?_, blank _ (List.getElem_mem inside)⟩
  rw [← List.getElem?_drop, placed, List.getElem?_append_left inside,
    List.getElem?_eq_getElem inside]

/-- A byte that is left out in front of all the tokens. -/
theorem leavesOut_first (tiles : Tiles zone offset rest tokens) {text : Bytes} {index : Nat}
    (ahead : index < offset) (leftOut : LeftOut zone text index [] tokens) :
    LeavesOut zone text index tokens :=
  ⟨[], tokens, ⟨rfl, by simp, fun token member => by
    have := tiles.bounds token member
    omega⟩, leftOut⟩

/-- A byte that is left out after the first token. -/
theorem leavesOut_cons {token : Token} {text : Bytes} {index : Nat} (ended : token.ends ≤ index)
    (later : LeavesOut (zone.after token.kind) text index tokens) :
    LeavesOut zone text index (token :: tokens) := by
  obtain ⟨before, after, split, leftOut⟩ := later
  have allEnded : ∀ other ∈ token :: before, other.ends ≤ index :=
    List.forall_mem_cons.2 ⟨ended, split.ended⟩
  refine ⟨token :: before, after, ⟨?_, allEnded, split.ahead⟩, ?_⟩
  · rw [split.whole]
    rfl
  · cases leftOut with
    | indent next kind blank => exact .indent next kind blank
    | blank inLine here blank => exact .blank inLine here blank
    | continued inLine here backslash newline => exact .continued inLine here backslash newline
    | newline last kind ends here =>
        refine .newline ?_ kind ends here
        rw [List.getLast?_cons, last]
        rfl

theorem leavesOut (tiles : Tiles zone offset rest tokens) {text : Bytes} {index : Nat} :
    text.drop offset = rest → offset ≤ index → index < text.length →
      (∀ token ∈ tokens, ¬ token.Holds index) → LeavesOut zone text index tokens := by
  induction tiles with
  | stop kind writes lies =>
      intro placed start inText
      have := List.drop_eq_nil_iff.1 placed
      omega
  | @token zone offset raw rest token tokens goesOn lies writes tiles ih =>
      intro placed start inText free
      obtain ⟨freeFirst, freeRest⟩ := List.forall_mem_cons.1 free
      have past : offset + raw.length ≤ index := by
        rw [Holds, lies.begins, lies.ends] at freeFirst
        omega
      refine leavesOut_cons ?_ (ih (drop_add placed) past inText freeRest)
      rwa [lies.ends]
  | @lineEnd zone offset newline rest token tokens kind writes lies ended tiles ih =>
      intro placed start inText free
      have cons (later : LeavesOut .text text index tokens) :
          LeavesOut zone text index (token :: tokens) := by
        have inText : zone.after token.kind = .text := by
          rw [kind]
          rfl
        refine leavesOut_cons (by rwa [lies.ends]) ?_
        rwa [inText]
      have freeRest := (List.forall_mem_cons.1 free).2
      rcases ended with rfl | ⟨rfl, rfl⟩
      · rcases Nat.eq_or_lt_of_le start with rfl | past
        · refine ⟨[token], tokens, ⟨rfl, ?_, fun next member => (tiles.bounds next member).1⟩,
            .newline rfl kind lies.ends (getElem?_of_drop placed)⟩
          simpa using Nat.le_of_eq lies.ends
        · exact cons (ih (drop_add placed) past inText freeRest)
      · exact cons (ih (drop_add placed) start inText freeRest)
  | @indent offset blanks rest token tokens kind begins blank tiles ih =>
      intro placed start inText free
      rcases Nat.lt_or_ge index (offset + blanks.length) with ahead | past
      · refine tiles.leavesOut_first ahead (.indent rfl kind fun place later stop => ?_)
        rw [begins] at stop
        exact blank_of_drop placed blank (Nat.le_trans start later) stop
      · exact ih (drop_add placed) past inText free
  | @blank offset byte rest tokens blank tiles ih =>
      intro placed start inText free
      rcases Nat.eq_or_lt_of_le start with rfl | past
      · exact tiles.leavesOut_first (Nat.lt_succ_self _)
          (.blank rfl (getElem?_of_drop placed) blank)
      · exact ih (@drop_add text [byte] rest offset placed) past inText free
  | @continued offset rest tokens tiles ih =>
      intro placed start inText free
      rcases Nat.lt_or_ge index (offset + 2) with ahead | past
      · have next := @drop_add text [Byte.backslash] (Byte.newline :: rest) offset placed
        exact tiles.leavesOut_first ahead (.continued rfl (by omega) (getElem?_of_drop placed)
          (getElem?_of_drop next))
      · exact ih (@drop_add text [Byte.backslash, Byte.newline] rest offset placed) past inText free

/-- Only a directive word or a token of a directive line can have something left out in front. -/
theorem begins_eq {token : Token} (tiles : Tiles zone offset rest (token :: tokens))
    (outside : zone ≠ .line) (other : token.kind ≠ .directive) : token.begins = offset := by
  cases tiles with
  | stop kind writes lies => exact lies.begins
  | token goesOn lies writes tiles => exact lies.begins
  | lineEnd kind writes lies ended tiles => exact lies.begins
  | indent kind begins blank tiles => exact absurd kind other
  | blank | continued => exact absurd rfl outside

theorem adjoin (tiles : Tiles zone offset rest tokens) :
    ∀ before first second after, tokens = before ++ first :: second :: after →
      zone.afterAll (before ++ [first]) ≠ .line → first.kind ≠ .lineEnd →
        second.kind ≠ .directive → first.ends = second.begins := by
  induction tiles with
  | stop kind writes lies =>
      intro before first second after split
      have short := congrArg List.length split
      simp only [List.length_append, List.length_cons, List.length_nil] at short
      omega
  | token goesOn lies writes tiles ih =>
      intro before first second after split outside inLine other
      cases before with
      | nil =>
          obtain ⟨rfl, rfl⟩ := List.cons.inj split
          rw [lies.ends]
          exact (tiles.begins_eq outside other).symm
      | cons head before =>
          obtain ⟨rfl, others⟩ := List.cons.inj split
          exact ih before first second after others outside inLine other
  | lineEnd kind writes lies ended tiles ih =>
      intro before first second after split outside goesOn other
      cases before with
      | nil =>
          obtain ⟨rfl, rfl⟩ := List.cons.inj split
          exact absurd kind goesOn
      | cons head before =>
          obtain ⟨rfl, others⟩ := List.cons.inj split
          refine ih before first second after others ?_ goesOn other
          rwa [List.cons_append, Zone.afterAll, List.foldl_cons, kind] at outside
  | indent kind begins blank tiles ih => exact ih
  | blank blank tiles ih => exact ih
  | continued tiles ih => exact ih

end Tiles

/-- Scanning loses nothing of a source whose offsets do not wrap. -/
theorem scan_covers_source {file text : Bytes} {tokens : List Token}
    (short : text.length < UInt32.size) (scanned : scan file text = .ok tokens) :
    Covers text tokens := by
  have tiles := tiles_scan scanned short
  exact {
    upright := fun token member => (tiles.bounds token member).2
    ordered := tiles.pairwise
    ended := Nat.zero_add text.length ▸ tiles.endsAt
    writes := tiles.writes_at rfl
    leftOut := fun index inText free => tiles.leavesOut rfl (Nat.zero_le index) inText free
    opening := by
      rintro token after rfl other
      exact tiles.begins_eq (by decide) other
    adjoining := tiles.adjoin }

/-- A definition with a body of two lines, a use of it after a string, and a line directive. -/
def layeredSource : Bytes :=
  bytes " # define A(x \\\n) x \\\n y\n\"s\"  A(1)\n\t# 7 \"f\" \n"

theorem scan_covers_layeredSource :
    ∃ tokens, scan (bytes "t") layeredSource = .ok tokens ∧ Covers layeredSource tokens := by
  have reads : (scan (bytes "t") layeredSource).toOption.isSome = true := by decide +kernel
  cases scanned : scan (bytes "t") layeredSource with
  | error => simp [scanned, Except.toOption] at reads
  | ok tokens => exact ⟨tokens, rfl, scan_covers_source (by decide +kernel) scanned⟩

end ScopedMacros.Token
