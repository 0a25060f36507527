import ScopedMacros.Proofs.Extent

/-!
# Where names lie

The text of a name is a stretch of the source, in the text outside directives, in their lines, and in
the bodies of definitions.
-/

namespace ScopedMacros

theorem Cursor.Passes.suffix {cursor stop : Cursor} (passes : Passes cursor stop) :
    stop.rest <:+ cursor.rest := by
  obtain ⟨raw, _, rfl⟩ := passes
  exact List.drop_suffix _ _

namespace Token

open Cursor

/-- All names among the tokens are stretches of the text. -/
def NamesIn (text : Bytes) (tokens : List Token) : Prop :=
  ∀ token ∈ tokens, token.kind = .ident → token.text <:+: text

namespace NamesIn

variable {text later : Bytes} {token : Token} {tokens more : List Token}

theorem nil (text : Bytes) : NamesIn text [] := by
  intro token member
  cases member

theorem cons (first : token.kind = .ident → token.text <:+: text) (names : NamesIn text tokens) :
    NamesIn text (token :: tokens) := by
  intro other member kind
  rcases List.mem_cons.1 member with rfl | member
  · exact first kind
  · exact names other member kind

theorem append (names : NamesIn text tokens) (others : NamesIn text more) :
    NamesIn text (tokens ++ more) := by
  intro other member kind
  rcases List.mem_append.1 member with member | member
  · exact names other member kind
  · exact others other member kind

theorem of_suffix (names : NamesIn later tokens) (ends : later <:+ text) : NamesIn text tokens :=
  fun token member kind => (names token member kind).trans ends.isInfix

end NamesIn

/-- A lexeme of a name stands in the text as it is. -/
theorem infix_token {cursor : Cursor} {first : Byte} {lexeme : Lexeme}
    (inText : first :: lexeme.more <+: cursor.rest) :
    (cursor.token first lexeme).kind = .ident →
      (cursor.token first lexeme).text <:+: cursor.rest := by
  intro kind
  have notSpace : lexeme.kind ≠ .space := by
    intro space
    have same : lexeme.kind = .ident := kind
    rw [space] at same
    cases same
  have text : (cursor.token first lexeme).text = first :: lexeme.more := by
    simp [Cursor.token, Lexeme.tokenText, notSpace]
  rw [text]
  exact inText.isInfix

theorem Trail.namesIn {inBody : Bool} {cursor stop : Cursor} {tokens : List Token}
    (trail : Trail inBody cursor tokens stop) : NamesIn cursor.rest tokens := by
  induction trail with
  | stop => exact .nil _
  | skip _ ih => exact ih.of_suffix (Passes.skip _).suffix
  | inLine found lexed _ ih =>
      have inRest := Lexeme.prefix_inLine lexed
      exact .cons (infix_token (prefix_of_inLine? found inRest))
        (ih.of_suffix (Passes.lexeme found inRest).suffix)
  | opens _ ih => exact .cons (fun kind => by cases kind) ih
  | inBody found lexed _ ih =>
      have inRest := Lexeme.prefix_inBody lexed
      exact .cons (infix_token (prefix_of_inLine? found inRest))
        (ih.of_suffix (Passes.lexeme found inRest).suffix)

section

variable {head : Head} {cursor stop next : Cursor} {inner : List Token}
  (line : Line head cursor inner stop next)

include line

theorem Line.namesIn : NamesIn cursor.rest inner :=
  line.trail.namesIn.of_suffix ((List.drop_suffix _ _).trans (List.drop_suffix _ _))

theorem Line.suffix : next.rest <:+ cursor.rest := by
  rw [rest_nextLine line.following]
  exact (List.drop_suffix _ _).trans (line.trail.passes.suffix.trans
    ((List.drop_suffix _ _).trans (List.drop_suffix _ _)))

end

theorem namesIn_ofSource {fresh : Bool} {cursor : Cursor} {tokens : List Token}
    (read : ofSource fresh cursor = .ok tokens) : NamesIn cursor.rest tokens := by
  fun_induction ofSource fresh cursor generalizing tokens with
  | case1 => cases read
  | case2 => cases read
  | case3 fresh cursor head found lineTokens next line rest source ih =>
      cases read
      obtain ⟨inner, stop, whole, rfl⟩ := line_of_ofDirective line
      have ended : NamesIn cursor.rest [stop.point .lineEnd] :=
        .cons (fun kind => by cases kind) (.nil _)
      exact (NamesIn.cons (fun kind => by cases kind) (whole.namesIn.append ended)).append
        ((ih source).of_suffix whole.suffix)
  | case4 =>
      cases read
      exact .cons (fun kind => by cases kind) (.nil _)
  | case5 => cases read
  | case6 => cases read
  | case7 fresh cursor noHead first rest left lexeme lexed tail source ih =>
      cases read
      have inText := cons_prefix_of_eq left (Lexeme.prefix_inSource lexed)
      exact .cons (infix_token inText) ((ih source).of_suffix (List.drop_suffix _ _))

end Token

end ScopedMacros
