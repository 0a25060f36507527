import ScopedMacros.Token.Scan

/-!
# The order of scanned tokens

Scanning never starts a directive between the start of the body of a definition and the end of its
line.  This is what keeps directives out of macro bodies.
-/

namespace ScopedMacros

namespace Token

/-- A class of tokens that can stand anywhere in a line. -/
def Kind.isInline : Kind → Bool
  | .directive | .body | .lineEnd | .fileEnd | .invalid => false
  | _ => true

/-- Whether the next token stands in a body after one of the given class. -/
def bodyAfter (inBody : Bool) : Kind → Bool
  | .body => true
  | .lineEnd | .directive => false
  | _ => inBody

/-- No directive starts inside a body; `inBody` tells whether the tokens start inside one. -/
def Orderly (inBody : Bool) : List Token → Prop
  | [] => True
  | token :: rest =>
      (token.kind = .directive → inBody = false) ∧ Orderly (bodyAfter inBody token.kind) rest

theorem bodyAfter_inline {inBody : Bool} {kind : Kind} (inline : kind.isInline = true) :
    bodyAfter inBody kind = inBody := by
  cases kind <;> simp_all [Kind.isInline, bodyAfter]

theorem orderly_cons_inline {inBody : Bool} {token : Token} {rest : List Token}
    (inline : token.kind.isInline = true) :
    Orderly inBody (token :: rest) ↔ Orderly inBody rest := by
  rw [Orderly, bodyAfter_inline inline]
  refine and_iff_right fun directive => ?_
  rw [directive] at inline
  cases inline

/-- Tokens that can stand anywhere in a line, or start a body, change nothing for tokens that may
stand in a body or not. -/
theorem orderly_append {tokens rest : List Token}
    (kinds : ∀ token ∈ tokens, token.kind.isInline = true ∨ token.kind = .body)
    (orderly : ∀ inBody, Orderly inBody rest) (inBody : Bool) : Orderly inBody (tokens ++ rest) := by
  induction tokens generalizing inBody with
  | nil => exact orderly inBody
  | cons token tail ih =>
      refine ⟨fun directive => ?_, ih (fun other member => kinds other (.tail token member)) _⟩
      rcases kinds token (.head tail) with inline | body
      · rw [directive] at inline
        cases inline
      · rw [directive] at body
        cases body

theorem Orderly.of_append {inBody : Bool} {tokens rest : List Token}
    (orderly : Orderly inBody (tokens ++ rest)) : Orderly inBody tokens := by
  induction tokens generalizing inBody with
  | nil => trivial
  | cons token tail ih =>
      rw [List.cons_append, Orderly] at orderly
      exact ⟨orderly.1, ih orderly.2⟩

end Token

/-! ## Lexemes -/

namespace Lexeme

theorem isInline_string {multiline : Bool} {rest : Bytes} {lexeme : Lexeme}
    (found : string multiline rest = .ok lexeme) : lexeme.kind.isInline = true := by
  unfold string at found
  dsimp only at found
  split at found
  · cases found
    rfl
  · cases found

theorem isInline_character (rest : Bytes) : (character rest).kind.isInline = true := by
  unfold character
  split <;> rfl

theorem isInline_solid {multiline : Bool} {first : Byte} {rest : Bytes} {lexeme : Lexeme}
    (found : solid multiline first rest = .ok lexeme) : lexeme.kind.isInline = true := by
  unfold solid at found
  split at found
  · cases found
    rfl
  split at found
  · cases found
    rfl
  split at found
  · exact isInline_string found
  split at found
  · cases found
    exact isInline_character rest
  split at found
  · cases found
    rfl
  split at found
  · cases found
    rfl
  split at found
  · cases found
    rfl
  · cases found
    rfl

theorem isInline_inSource {first : Byte} {rest : Bytes} {lexeme : Lexeme}
    (found : inSource first rest = .ok lexeme) : lexeme.kind.isInline = true := by
  unfold inSource at found
  split at found
  · cases found
    rfl
  split at found
  · cases found
    rfl
  · exact isInline_solid found

theorem isInline_inBody {first : Byte} {rest : Bytes} {lexeme : Lexeme}
    (found : inBody first rest = .ok lexeme) : lexeme.kind.isInline = true := by
  unfold inBody at found
  split at found
  · cases found
    rfl
  · exact isInline_solid found

theorem isInline_inLine {first : Byte} {rest : Bytes} {lexeme : Lexeme}
    (found : inLine first rest = .ok lexeme) : lexeme.kind.isInline = true := by
  unfold inLine at found
  split at found
  · cases found
    rfl
  split at found
  · exact isInline_string found
  split at found
  · dsimp only at found
    split at found
    · cases found
      rfl
    · cases found
  split at found
  · cases found
    rfl
  split at found
  · cases found
    rfl
  split at found
  · cases found
    rfl
  split at found
  · cases found
    rfl
  · cases found

end Lexeme

/-! ## Lines and sources -/

namespace Token

theorem isInline_ofLine {cursor stop : Cursor} {tokens : List Token}
    (read : ofLine cursor = .ok (tokens, stop)) : ∀ token ∈ tokens, token.kind.isInline = true := by
  fun_induction ofLine cursor generalizing tokens stop with
  | case1 => cases read; simp
  | case2 => cases read
  | case3 => cases read
  | case4 cursor next found lexeme lexed tail stop' rest ih =>
      cases read
      intro token member
      rcases List.mem_cons.1 member with rfl | member
      · exact Lexeme.isInline_inLine lexed
      · exact ih rest token member

/-- The tokens of a directive line can stand anywhere in a line, or start a body. -/
theorem Trail.kind {inBody : Bool} {cursor stop : Cursor} {tokens : List Token}
    (trail : Trail inBody cursor tokens stop) :
    ∀ token ∈ tokens, token.kind.isInline = true ∨ token.kind = .body := by
  induction trail with
  | stop => simp
  | skip _ ih => exact ih
  | inLine _ lexed _ ih => exact List.forall_mem_cons.2 ⟨.inl (Lexeme.isInline_inLine lexed), ih⟩
  | opens _ ih => exact List.forall_mem_cons.2 ⟨.inr rfl, ih⟩
  | inBody _ lexed _ ih => exact List.forall_mem_cons.2 ⟨.inl (Lexeme.isInline_inBody lexed), ih⟩

theorem orderly_ofSource {fresh : Bool} {cursor : Cursor} {tokens : List Token}
    (read : ofSource fresh cursor = .ok tokens) : Orderly false tokens := by
  fun_induction ofSource fresh cursor generalizing tokens with
  | case1 => cases read
  | case2 => cases read
  | case3 fresh cursor head _ lineTokens next line rest source ih =>
      cases read
      obtain ⟨inner, stop, whole, rfl⟩ := line_of_ofDirective line
      rw [List.cons_append, List.cons_append, Orderly, List.append_assoc]
      refine ⟨fun _ => rfl, orderly_append whole.trail.kind (fun inBody => ?_) _⟩
      exact ⟨by simp [Cursor.point], ih source⟩
  | case4 =>
      cases read
      simp [Orderly, Cursor.point]
  | case5 => cases read
  | case6 => cases read
  | case7 =>
      rename_i lexed tail source ih
      cases read
      exact (orderly_cons_inline (Lexeme.isInline_inSource lexed)).2 (ih source)

theorem orderly_scan {file text : Bytes} {tokens : List Token}
    (read : scan file text = .ok tokens) : Orderly false tokens :=
  orderly_ofSource read

end Token

end ScopedMacros
