import ScopedMacros.Node.Form
import ScopedMacros.Proofs.Pasting
import ScopedMacros.Proofs.Rereading

/-!
# Building from the same tokens at another place

A builder follows another one token by token: from tokens alike it makes nodes that are the same up
to places, also if it holds a file pasted in place of its inclusion.
-/

namespace ScopedMacros

namespace Node.Pastes

variable {files : FileSet} {pasting : Bool} {nodes others more rest : List Node}

theorem append (first : Pastes files pasting nodes others) (second : Pastes files pasting more rest) :
    Pastes files pasting (nodes ++ more) (others ++ rest) := by
  induction first with
  | nil => exact second
  | same alike _ ih => exact .same alike ih
  | cond location place same yes no _ _ _ ih => exact .cond location place same yes no ih
  | paste allowed location found read alike _ ih =>
      rw [List.append_assoc]
      exact .paste allowed location found read alike ih

theorem exists_append (pastes : Pastes files pasting (nodes ++ more) others) :
    ∃ front back, others = front ++ back ∧ Pastes files pasting nodes front ∧
      Pastes files pasting more back := by
  induction nodes generalizing others with
  | nil => exact ⟨[], others, rfl, .nil, pastes⟩
  | cons node nodes ih =>
      cases pastes with
      | same alike pastes =>
          obtain ⟨front, back, rfl, first, second⟩ := ih pastes
          exact ⟨_, back, rfl, .same alike first, second⟩
      | cond location place same yes no pastes =>
          obtain ⟨front, back, rfl, first, second⟩ := ih pastes
          exact ⟨_, back, rfl, .cond location place same yes no first, second⟩
      | paste allowed location found read alike pastes =>
          obtain ⟨front, back, rfl, first, second⟩ := ih pastes
          exact ⟨_, back, (List.append_assoc ..).symm,
            .paste allowed location found read alike first, second⟩

/-- Where nothing can be pasted, all nodes are alike. -/
theorem alike (pastes : Pastes files pasting nodes others)
    (never : pasting = true → ∀ path, files.contents? path = none) : AllAlike nodes others := by
  induction pastes with
  | nil => exact .nil
  | same alike _ ih => exact .cons alike ih
  | cond location place same _ _ _ yes no ih => exact .cons (.cond location place same yes no) ih
  | paste allowed location found =>
      rw [never allowed] at found
      cases found

end Node.Pastes

theorem Node.AllAlike.trim {nodes others : List Node} (alike : Node.AllAlike nodes others) :
    Node.AllAlike (Node.trim nodes) (Node.trim others) := by
  have drop : ∀ {nodes others : List Node}, Node.AllAlike nodes others →
      Node.AllAlike (nodes.dropWhile Node.isSpace) (others.dropWhile Node.isSpace) := by
    intro nodes others alike
    induction alike with
    | nil => exact .nil
    | cons head tail ih =>
        rw [List.dropWhile_cons, List.dropWhile_cons, head.isSpace]
        split
        · exact ih
        · exact .cons head tail
  exact List.rel_reverse (drop (List.rel_reverse (drop alike)))

/-- The same branch up to places and pasted files. -/
structure Branch.Pastes (files : FileSet) (pasting : Bool) (branch other : Branch) : Prop where
  test : branch.test.unplaced = other.test.unplaced
  nodes : Node.Pastes files pasting branch.nodes other.nodes

theorem Branch.chain_pastes {files : FileSet} {pasting : Bool} {last twin : Branch}
    {earlier others : List Branch} {no otherNo : List Node} (same : last.Pastes files pasting twin)
    (each : List.Forall₂ (Branch.Pastes files pasting) earlier others)
    (noPastes : Node.Pastes files pasting no otherNo) :
    Node.Pastes files pasting [last.chain earlier no] [twin.chain others otherNo] := by
  have first : Node.Pastes files pasting [last.node no] [twin.node otherNo] :=
    .cond _ _ same.test same.nodes noPastes .nil
  unfold chain
  generalize last.node no = inner at first
  generalize twin.node otherNo = innerOther at first
  induction each generalizing inner innerOther with
  | nil => exact first
  | cons head _ ih => exact ih _ _ (.cond _ _ head.test head.nodes first .nil)

theorem Branch.exists_chain_eq_cond (last : Branch) (earlier : List Branch) (no : List Node) :
    ∃ location test yes other, last.chain earlier no = .cond location test yes other := by
  unfold chain
  suffices ∀ inner : Node, (∃ location test yes other, inner = .cond location test yes other) →
      ∃ location test yes other, earlier.foldl (fun inner branch => branch.node [inner]) inner =
        .cond location test yes other from this _ ⟨_, _, _, _, rfl⟩
  induction earlier with
  | nil => exact fun _ isCond => isCond
  | cons branch _ ih => exact fun inner _ => ih _ ⟨_, _, _, _, rfl⟩

namespace Builder

/-! ## Builders alike -/

/-- The same purpose up to places and pasted files. -/
inductive Purpose.Follows (files : FileSet) (pasting : Bool) : Purpose → Purpose → Prop where
  | define : Follows files pasting .define .define
  | undef : Follows files pasting .undef .undef
  | inclusion : Follows files pasting .inclusion .inclusion
  | error : Follows files pasting .error .error
  | warning : Follows files pasting .warning .warning
  | line : Follows files pasting .line .line
  | ifDefined (positive : Bool) : Follows files pasting (.ifDefined positive) (.ifDefined positive)
  | ifTrue {earlier others : List Branch}
      (each : List.Forall₂ (Branch.Pastes files pasting) earlier others) :
      Follows files pasting (.ifTrue earlier) (.ifTrue others)
  | otherwise {last twin : Branch} {earlier others : List Branch}
      (same : last.Pastes files pasting twin)
      (each : List.Forall₂ (Branch.Pastes files pasting) earlier others) :
      Follows files pasting (.otherwise last earlier) (.otherwise twin others)
  | endIf {last twin : Branch} {earlier others : List Branch} {no otherNo : List Node}
      (same : last.Pastes files pasting twin)
      (each : List.Forall₂ (Branch.Pastes files pasting) earlier others)
      (noPastes : Node.Pastes files pasting no otherNo) :
      Follows files pasting (.endIf last earlier no) (.endIf twin others otherNo)

/-- The same open construct up to places and pasted files. -/
inductive Frame.Follows (files : FileSet) (pasting : Bool) : Frame → Frame → Prop where
  | call (location place : Location) (name : Bytes) (depth : Nat)
      {arguments others : List (List Node)} (each : List.Forall₂ Node.AllAlike arguments others) :
      Follows files pasting (.call location name depth arguments) (.call place name depth others)
  | define {word twin : Token} (alike : word.Alike twin) (name : Bytes)
      (parameters : Option (List Bytes)) :
      Follows files pasting (.define word name parameters) (.define twin name parameters)
  | line {word twin : Token} {purpose other : Purpose} {tokens others : List Token}
      (alike : word.Alike twin) (same : purpose.Follows files pasting other)
      (each : Token.AllAlike tokens others) :
      Follows files pasting (.line word purpose tokens) (.line twin other others)
  | branch (word : Bytes) (location place : Location) {test check : Test}
      {earlier others : List Branch} (same : test.unplaced = check.unplaced)
      (each : List.Forall₂ (Branch.Pastes files pasting) earlier others) :
      Follows files pasting (.branch word location test earlier) (.branch word place check others)
  | otherwise (location place : Location) {last twin : Branch} {earlier others : List Branch}
      (same : last.Pastes files pasting twin)
      (each : List.Forall₂ (Branch.Pastes files pasting) earlier others) :
      Follows files pasting (.otherwise location last earlier) (.otherwise place twin others)

/-- Whether a construct is a call or the body of a definition, where no file can be pasted. -/
def Frame.isBody : Frame → Bool
  | .call _ _ _ _ | .define _ _ _ => true
  | _ => false

/-- Whether files can be pasted inside the given constructs. -/
def pasting (frames : List (Frame × List Node)) : Bool :=
  frames.all (!·.1.isBody)

/-- The same open constructs up to places and pasted files. -/
inductive FramesFollow (files : FileSet) :
    List (Frame × List Node) → List (Frame × List Node) → Prop where
  | nil : FramesFollow files [] []
  | cons {frame twin : Frame} {before others : List Node}
      {rest more : List (Frame × List Node)} (same : frame.Follows files (pasting rest) twin)
      (nodes : Node.Pastes files (pasting rest) before.reverse others.reverse)
      (frames : FramesFollow files rest more) :
      FramesFollow files ((frame, before) :: rest) ((twin, others) :: more)

/-- The second builder holds the same nodes and constructs, up to places and pasted files. -/
structure Matches (files : FileSet) (builder other : Builder) : Prop where
  nodes : Node.Pastes files (pasting builder.frames) builder.nodes.reverse other.nodes.reverse
  frames : FramesFollow files builder.frames other.frames

/-- Moreover, a parenthesis starts a call in the second builder only if it does in the first one. -/
structure Follows (files : FileSet) (builder other : Builder) : Prop
    extends Matches files builder other where
  calls : other.call?.isSome = true → builder.call?.isSome = true

variable {files : FileSet} {builder other : Builder} {token twin : Token}

theorem Matches.push {node one : Node} (held : Matches files builder other)
    (pastes : Node.Pastes files (pasting builder.frames) [node] [one])
    (calls : (other.push one).call?.isSome = true → (builder.push node).call?.isSome = true) :
    Follows files (builder.push node) (other.push one) where
  nodes := by
    simp only [Builder.push, List.reverse_cons]
    exact held.nodes.append pastes
  frames := held.frames
  calls := calls

theorem Matches.pushAlike {node one : Node} (held : Matches files builder other)
    (alike : node.Alike one) : Follows files (builder.push node) (other.push one) := by
  refine held.push (.same alike .nil) ?_
  cases alike <;> simp [Builder.push, call?]

theorem Matches.enter {frame twinFrame : Frame} (held : Matches files builder other)
    (same : frame.Follows files (pasting builder.frames) twinFrame) :
    Follows files (builder.enter frame) (other.enter twinFrame) where
  nodes := .nil
  frames := .cons same held.nodes held.frames
  calls := by simp [Builder.enter, call?]

/-! ## Tokens outside directive lines -/

theorem ofName_alike (alike : token.Alike twin) (isName : token.kind = .ident) :
    (ofName token).Alike (ofName twin) := by
  have placeless := alike.placeless isName
  simp only [Bytes.isPlaceless, Bool.and_eq_true, bne_iff_ne] at placeless
  rw [ofName, ofName, alike.text, if_neg placeless.1, if_neg placeless.2, if_neg placeless.1,
    if_neg placeless.2]
  exact .ident _ _ _

theorem leaf_follows (held : Matches files builder other) (alike : token.Alike twin) :
    FollowsWith (Follows files) (builder.leaf token) (other.leaf twin) := by
  unfold leaf
  rw [alike.kind, alike.text]
  split
  · next isName => exact .ok (held.pushAlike (ofName_alike alike isName))
  · exact .ok (held.pushAlike (.space _ _ _))
  all_goals first
    | exact .ok (held.pushAlike (.text _ _ _))
    | exact .error _ _

/-- A call starts in both builders or in none. -/
theorem call?_follows (follows : Follows files builder other) :
    Option.Rel (Follows files) builder.call? other.call? := by
  obtain ⟨nodes, frames⟩ := builder
  obtain ⟨others, more⟩ := other
  cases opened : (Builder.mk nodes frames).call? with
  | none =>
      cases openedOther : (Builder.mk others more).call? with
      | none => exact .none
      | some inner =>
          have both := follows.calls
          rw [opened, openedOther] at both
          cases both rfl
  | some inner =>
      unfold call? at opened
      split at opened
      · rename_i location name before here
        cases opened
        dsimp only at here
        subst here
        have pastes := follows.nodes
        dsimp only at pastes
        rw [List.reverse_cons] at pastes
        obtain ⟨front, back, split, first, second⟩ := pastes.exists_append
        cases second with
        | same alike rest =>
            cases rest
            cases alike with
            | ident _ place =>
                obtain rfl : others = .ident place name :: front.reverse := by
                  rw [← List.reverse_reverse others, split]
                  simp
                refine .some ⟨⟨.nil, ?_⟩, by simp [call?]⟩
                refine .cons (.call _ _ _ _ .nil) ?_ follows.frames
                rw [List.reverse_reverse]
                exact first
      · cases opened

/-- A parenthesis starts a call in both builders, or is taken otherwise in both. -/
theorem callOr_follows (follows : Follows files builder other)
    {first second : Except Error Builder} (otherwise : FollowsWith (Follows files) first second) :
    FollowsWith (Follows files)
      (match builder.call? with
      | some inner => .ok inner
      | none => first)
      (match other.call? with
      | some inner => .ok inner
      | none => second) := by
  have opened := call?_follows follows
  generalize builder.call? = inner at opened
  generalize other.call? = innerOther at opened
  cases opened with
  | none => exact otherwise
  | some follows => exact .ok follows

theorem calls_of_alike {nodes others : List Node} (alike : Node.AllAlike nodes others)
    {frames more : List (Frame × List Node)}
    (opens : (Builder.mk others more).call?.isSome = true) :
    (Builder.mk nodes frames).call?.isSome = true := by
  cases alike with
  | nil => exact opens
  | cons head _ =>
      cases head with
      | ident => rfl
      | _ => exact opens

theorem argument_follows {nodes others : List Node} {outer twinOuter : Builder}
    {arguments otherArguments : List (List Node)} (location place : Location) (name : Bytes)
    (depth : Nat) (held : Matches files outer twinOuter) (nodesAlike : Node.AllAlike nodes others)
    (each : List.Forall₂ Node.AllAlike arguments otherArguments) (alike : token.Alike twin) :
    FollowsWith (Follows files) (argument nodes outer location name depth arguments token)
      (argument others twinOuter place name depth otherArguments twin) := by
  have reversed : Node.AllAlike nodes.reverse others.reverse := List.rel_reverse nodesAlike
  have inside : ∀ depth, Follows files
      ⟨nodes, (.call location name depth arguments, outer.nodes) :: outer.frames⟩
      ⟨others, (.call place name depth otherArguments, twinOuter.nodes) :: twinOuter.frames⟩ :=
    fun depth => ⟨⟨.of_alike reversed, .cons (.call _ _ _ _ each) held.nodes held.frames⟩,
      calls_of_alike nodesAlike⟩
  unfold argument
  dsimp only
  rw [alike.kind]
  split
  · exact .error _ _
  · exact .error _ _
  · refine .ok ⟨⟨.nil, .cons (.call _ _ _ _ (.cons reversed each)) held.nodes held.frames⟩, ?_⟩
    simp [call?]
  · have noArguments : otherArguments.isEmpty = arguments.isEmpty := by cases each <;> rfl
    have noNodes : others.isEmpty = nodes.isEmpty := by cases nodesAlike <;> rfl
    rw [noArguments, noNodes]
    refine .ok (held.pushAlike (.call _ _ _ (List.rel_reverse ?_)))
    split
    · exact .nil
    · exact .cons reversed each
  · exact leaf_follows (inside _).toMatches alike
  · exact callOr_follows (inside _) (leaf_follows (inside _).toMatches alike)
  · exact leaf_follows (inside _).toMatches alike

/-! ## Directive lines -/

section

variable {stop halt : Token} {tokens others : List Token}

theorem takeName_follows (what : Expectation) (alike : Token.AllSame tokens others) :
    FollowsWith (fun taken twin => taken.1.Same twin.1 ∧ Token.AllSame taken.2 twin.2)
      (takeName stop what tokens) (takeName halt what others) := by
  cases alike with
  | nil => exact .error _ _
  | cons head tail =>
      simp only [takeName, head.kind]
      split
      · exact .ok ⟨head, tail⟩
      · exact .error _ _

theorem takeString_follows (what : Expectation) (alike : Token.AllSame tokens others) :
    FollowsWith (fun taken twin => taken.1 = twin.1 ∧ Token.AllSame taken.2 twin.2)
      (takeString stop what tokens) (takeString halt what others) := by
  cases alike with
  | nil => exact .error _ _
  | cons head tail =>
      simp only [takeString, head.kind]
      split
      · exact .ok ⟨rfl, tail⟩
      · exact .error _ _

theorem takeLine_follows (alike : Token.AllSame tokens others) :
    FollowsWith (fun taken twin => taken.1 = twin.1 ∧ taken.2.1 = twin.2.1 ∧
        Token.AllSame taken.2.2 twin.2.2)
      (takeLine stop tokens) (takeLine halt others) := by
  cases alike with
  | nil => exact .error _ _
  | @cons token twin _ _ head tail =>
      simp only [takeLine, head.kind]
      generalize token.kind = kind
      cases tail with
      | nil =>
          cases kind with
          | integer number => exact .ok ⟨rfl, rfl, .nil⟩
          | _ => exact .error _ _
      | @cons second other _ _ same rest =>
          obtain ⟨secondKind, text, location⟩ := second
          obtain ⟨otherKind, otherText, place⟩ := other
          have sameKind := same.kind
          dsimp only at sameKind
          subst sameKind
          cases kind with
          | integer number =>
              cases otherKind with
              | string file => exact .ok ⟨rfl, rfl, rest⟩
              | _ => exact .ok ⟨rfl, rfl, .cons same rest⟩
          | _ => exact .error _ _

theorem takeParameters_follows (name : Bytes) (seen : List Bytes)
    (alike : Token.AllSame tokens others) :
    FollowsWith (fun taken twin => taken.1 = twin.1 ∧ Token.AllSame taken.2 twin.2)
      (takeParameters stop name seen tokens) (takeParameters halt name seen others) := by
  fun_induction takeParameters stop name seen tokens generalizing others with
  | case1 => exact .error _ _
  | case2 => exact .error _ _
  | case3 => exact .error _ _
  | case4 seen token isName fresh =>
      obtain _ | ⟨head, tail⟩ := alike
      cases tail
      simp only [takeParameters, head.kind, head.text, isName, fresh, if_false]
      exact .ok ⟨rfl, .nil⟩
  | case5 seen token isName fresh next rest comma ih =>
      obtain _ | ⟨head, _ | ⟨second, tail⟩⟩ := alike
      simp only [takeParameters, head.kind, head.text, isName, fresh, if_false, second.kind, comma,
        if_true]
      exact ih tail
  | case6 seen token isName fresh next rest notComma =>
      obtain _ | ⟨head, _ | ⟨second, tail⟩⟩ := alike
      simp only [takeParameters, head.kind, head.text, isName, fresh, if_false, second.kind, notComma]
      exact .ok ⟨rfl, .cons second tail⟩

theorem takeParameterList_follows (name : Bytes) (alike : Token.AllSame tokens others) :
    FollowsWith (fun taken twin => taken.1 = twin.1 ∧ Token.AllSame taken.2 twin.2)
      (takeParameterList stop name tokens) (takeParameterList halt name others) := by
  cases alike with
  | nil => exact .ok ⟨rfl, .nil⟩
  | @cons token twin _ _ head tail =>
      obtain ⟨kind, text, location⟩ := token
      obtain ⟨otherKind, otherText, place⟩ := twin
      obtain rfl : otherKind = kind := head.kind
      cases otherKind with
      | leftParen =>
          cases tail with
          | nil => exact .error _ _
          | @cons second other _ _ same rest =>
              obtain ⟨secondKind, text, location⟩ := second
              obtain ⟨otherKind, otherText, place⟩ := other
              obtain rfl : otherKind = secondKind := same.kind
              cases otherKind with
              | rightParen => exact .ok ⟨rfl, rest⟩
              | _ =>
                  refine (takeParameters_follows name [] (.cons same rest)).bind ?_
                  rintro ⟨parameters, left⟩ ⟨_, leftTwin⟩ ⟨rfl, leftAlike⟩
                  change Token.AllSame left leftTwin at leftAlike
                  cases leftAlike with
                  | nil => exact .error _ _
                  | @cons third closing _ _ close more =>
                      obtain ⟨thirdKind, text, location⟩ := third
                      obtain ⟨closingKind, otherText, place⟩ := closing
                      obtain rfl : closingKind = thirdKind := close.kind
                      cases closingKind with
                      | rightParen => exact .ok ⟨rfl, more⟩
                      | _ => exact .error _ _
      | _ => exact .ok ⟨rfl, .cons head tail⟩

theorem takeHead_follows (stops : stop.Same halt) (alike : Token.AllSame tokens others) :
    FollowsWith Eq (takeHead stop tokens) (takeHead halt others) := by
  unfold takeHead
  refine (takeName_follows _ alike).bind fun taken twin same => ?_
  obtain ⟨name, rest⟩ := taken
  obtain ⟨otherName, otherRest⟩ := twin
  dsimp only at same ⊢
  rw [same.1.text]
  refine (takeParameterList_follows name.text same.2).bind fun taken twin same => ?_
  obtain ⟨parameters, rest⟩ := taken
  obtain ⟨otherParameters, otherRest⟩ := twin
  obtain ⟨sameParameters, alike⟩ := same
  dsimp only at sameParameters alike ⊢
  have empty : otherRest.isEmpty = rest.isEmpty := by cases alike <;> rfl
  rw [empty, stops.kind, sameParameters]
  split
  · exact .ok rfl
  · exact .error _ _

theorem endLine_follows {word other : Token} (stops : stop.Same halt)
    (same : Token.AllSame tokens others) :
    FollowsWith (fun _ _ => True) (endLine word stop tokens) (endLine other halt others) := by
  have got := Test.headD_same stops same
  simp only [endLine, got.kind]
  split
  · exact .ok trivial
  · exact .error _ _

/-- What follows a directive line follows once the line is done. -/
theorem finishLine_follows {outer twinOuter : Builder} {word twinWord : Token}
    {purpose other : Purpose} (held : Matches files outer twinOuter) (words : word.Alike twinWord)
    (same : purpose.Follows files (pasting outer.frames) other)
    (alike : Token.AllAlike tokens others) (stops : stop.Alike halt) :
    FollowsWith (Follows files) (finishLine outer word purpose tokens stop)
      (finishLine twinOuter twinWord other others halt) := by
  have tokensSame := Token.allSame_of_allAlike alike
  cases same with
  | define =>
      refine (takeHead_follows stops.same tokensSame).bind fun taken twin same => ?_
      subst same
      exact .ok (held.enter (.define words _ _))
  | undef =>
      simp only [finishLine, words.text]
      refine (takeName_follows _ tokensSame).bind fun taken twin same => ?_
      refine (endLine_follows stops.same same.2).bind fun location place _ => ?_
      rw [same.1.text]
      exact .ok (held.pushAlike (.undef _ _ _))
  | inclusion =>
      refine (takeString_follows _ tokensSame).bind fun taken twin same => ?_
      refine (endLine_follows stops.same same.2).bind fun location place _ => ?_
      rw [same.1]
      exact .ok (held.pushAlike (.inclusion _ _ _))
  | error =>
      simp only [finishLine, words.text]
      refine (takeString_follows _ tokensSame).bind fun taken twin same => ?_
      refine (endLine_follows stops.same same.2).bind fun location place _ => ?_
      rw [same.1]
      exact .ok (held.pushAlike (.error _ _ _))
  | warning =>
      simp only [finishLine, words.text]
      refine (takeString_follows _ tokensSame).bind fun taken twin same => ?_
      refine (endLine_follows stops.same same.2).bind fun location place _ => ?_
      rw [same.1]
      exact .ok (held.pushAlike (.warning _ _ _))
  | line =>
      refine (takeLine_follows tokensSame).bind fun taken twin same => ?_
      refine (endLine_follows stops.same same.2.2).bind fun location place _ => ?_
      rw [same.1, same.2.1]
      exact .ok (held.pushAlike (.line _ _ _ _))
  | ifDefined positive =>
      simp only [finishLine, words.text]
      refine (takeName_follows _ tokensSame).bind fun taken twin same => ?_
      refine (endLine_follows stops.same same.2).bind fun location place _ => ?_
      rw [same.1.text]
      refine .ok (held.enter (.branch _ _ _ ?_ .nil))
      cases positive <;> rfl
  | ifTrue each =>
      simp only [finishLine, words.text]
      refine (Test.ofTokens_follows stops.same tokensSame).bind fun taken twin same => ?_
      refine (endLine_follows stops.same same.2).bind fun location place _ => ?_
      exact .ok (held.enter (.branch _ _ _ same.1 each))
  | otherwise last each =>
      refine (endLine_follows stops.same tokensSame).bind fun location place _ => ?_
      exact .ok (held.enter (.otherwise _ _ last each))
  | endIf last each no =>
      refine (endLine_follows stops.same tokensSame).bind fun location place _ => ?_
      refine .ok (held.push (Branch.chain_pastes last each no) fun calls => ?_)
      obtain ⟨place, test, yes, no, isCond⟩ := Branch.exists_chain_eq_cond _ _ _
      rw [isCond] at calls
      cases calls

end

theorem Follows.branch {frame twinFrame : Frame} {before others : List Node}
    {rest more : List (Frame × List Node)} (nodes twinNodes : List Node) (location place : Location)
    {test check : Test} (same : test.unplaced = check.unplaced)
    (notBody : frame.isBody = false)
    (follows : Follows files ⟨nodes, (frame, before) :: rest⟩
      ⟨twinNodes, (twinFrame, others) :: more⟩) :
    Branch.Pastes files (pasting rest) ⟨location, test, nodes.reverse⟩
      ⟨place, check, twinNodes.reverse⟩ := by
  have nodes := follows.nodes
  simp only [pasting, List.all_cons, notBody, Bool.not_false, Bool.true_and] at nodes
  exact ⟨same, nodes⟩

theorem directive_follows (follows : Follows files builder other) (alike : token.Alike twin) :
    FollowsWith (Follows files) (builder.directive token) (other.directive twin) := by
  have start : ∀ purpose twinPurpose : Purpose,
      purpose.Follows files (pasting builder.frames) twinPurpose →
      FollowsWith (Follows files) (.ok (builder.enter (.line token purpose [])))
        (.ok (other.enter (.line twin twinPurpose []))) :=
    fun purpose twinPurpose same => .ok (follows.enter (.line alike same .nil))
  unfold directive
  rw [alike.text]
  dsimp only
  obtain ⟨nodes, frames⟩ := builder
  obtain ⟨others, more⟩ := other
  have framesFollow := follows.frames
  dsimp only at framesFollow
  split
  · exact .error _ _
  · exact start _ _ .define
  · exact start _ _ .undef
  · exact start _ _ .inclusion
  · exact start _ _ .error
  · exact start _ _ .warning
  · exact start _ _ .line
  · exact start _ _ (.ifTrue .nil)
  · exact start _ _ (.ifDefined true)
  · exact start _ _ (.ifDefined false)
  · cases framesFollow with
    | nil => exact .error _ _
    | cons same before frames =>
        cases same with
        | branch word location place test each =>
            have last := follows.branch nodes others location place test rfl
            exact .ok ⟨⟨.nil, .cons (.line alike (.ifTrue (.cons last each)) .nil) before frames⟩,
              by simp [call?]⟩
        | _ => exact .error _ _
  · cases framesFollow with
    | nil => exact .error _ _
    | cons same before frames =>
        cases same with
        | branch word location place test each =>
            have last := follows.branch nodes others location place test rfl
            exact .ok ⟨⟨.nil, .cons (.line alike (.otherwise last each) .nil) before frames⟩,
              by simp [call?]⟩
        | _ => exact .error _ _
  · cases framesFollow with
    | nil => exact .error _ _
    | cons same before frames =>
        cases same with
        | branch word location place test each =>
            have last := follows.branch nodes others location place test rfl
            exact .ok ⟨⟨.nil, .cons (.line alike (.endIf last each .nil) .nil) before frames⟩,
              by simp [call?]⟩
        | otherwise location place last each =>
            have no := follows.nodes
            exact .ok ⟨⟨.nil, .cons (.line alike (.endIf last each no) .nil) before frames⟩,
              by simp [call?]⟩
        | _ => exact .error _ _

theorem plain_follows (follows : Follows files builder other) (alike : token.Alike twin) :
    FollowsWith (Follows files) (builder.plain token) (other.plain twin) := by
  have leaf := leaf_follows follows.toMatches alike
  unfold plain
  rw [alike.kind]
  split
  · exact directive_follows follows alike
  · exact callOr_follows follows leaf
  · exact leaf

theorem Purpose.Follows.endsLine {pasting : Bool} {purpose twinPurpose : Purpose}
    (follows : purpose.Follows files pasting twinPurpose) (kind : Token.Kind) :
    endsLine twinPurpose kind = endsLine purpose kind := by
  cases follows <;> cases kind <;> rfl

/-- Whether a call can start depends on the last node only. -/
theorem isSome_call?_congr (nodes : List Node) (frames more : List (Frame × List Node)) :
    (Builder.mk nodes frames).call?.isSome = (Builder.mk nodes more).call?.isSome := by
  cases nodes with
  | nil => rfl
  | cons node _ => cases node <;> rfl

/-- A builder follows another one by a token. -/
theorem step_follows (follows : Follows files builder other) (alike : token.Alike twin) :
    FollowsWith (Follows files) (builder.step token) (other.step twin) := by
  have plain := plain_follows follows alike
  obtain ⟨nodes, frames⟩ := builder
  obtain ⟨others, more⟩ := other
  obtain ⟨⟨nodesFollow, framesFollow⟩, calls⟩ := follows
  dsimp only at nodesFollow framesFollow
  cases framesFollow with
  | nil => exact plain
  | cons same before frames =>
      cases same with
      | @line word twinWord purpose twinPurpose tokens twinTokens words purposes each =>
          simp only [step, alike.kind, purposes.endsLine]
          split
          · exact finishLine_follows ⟨before, frames⟩ words purposes (List.rel_reverse each) alike
          · refine .ok ⟨⟨nodesFollow, .cons (.line words purposes (.cons alike each)) before frames⟩,
              fun opens => ?_⟩
            rw [isSome_call?_congr others] at opens
            rw [isSome_call?_congr nodes]
            exact calls opens
      | call location place name depth each =>
          have unpasted : Node.Pastes files false nodes.reverse others.reverse := nodesFollow
          have inside : Node.AllAlike nodes others :=
            List.forall₂_reverse_iff.1 (unpasted.alike nofun)
          exact argument_follows location place name depth ⟨before, frames⟩ inside each alike
      | define words name parameters =>
          simp only [step, alike.kind]
          split
          · have unpasted : Node.Pastes files false nodes.reverse others.reverse := nodesFollow
            have body := unpasted.alike nofun
            have outer : Matches files ⟨_, _⟩ ⟨_, _⟩ := ⟨before, frames⟩
            exact .ok (outer.pushAlike (.define _ _ name parameters body.trim))
          · exact plain
      | branch word location place test each => exact plain
      | otherwise location place last each => exact plain

theorem foldlM_follows {tokens others : List Token} (follows : Follows files builder other)
    (alike : Token.AllAlike tokens others) :
    FollowsWith (Follows files) (tokens.foldlM step builder) (others.foldlM step other) := by
  induction alike generalizing builder other with
  | nil => exact .ok follows
  | cons head _ ih =>
      rw [List.foldlM_cons, List.foldlM_cons]
      exact (step_follows follows head).bind fun middle twin follows => ih follows

theorem finish_follows (follows : Follows files builder other) (stop halt : Token) :
    FollowsWith (Node.Pastes files true) (builder.finish stop) (other.finish halt) := by
  obtain ⟨nodes, frames⟩ := builder
  obtain ⟨others, more⟩ := other
  obtain ⟨⟨nodesFollow, framesFollow⟩, _⟩ := follows
  dsimp only at nodesFollow framesFollow
  cases framesFollow with
  | nil => exact .ok nodesFollow
  | cons same before frames =>
      cases same with
      | line =>
          intro answer done
          obtain ⟨_, _, done⟩ := bind_eq_ok_iff.1 done
          cases done
      | _ => exact .error _ _

end Builder

end ScopedMacros
