import ScopedMacros.Proofs.Renaming

/-!
# Parameters can be renamed

Expansions go in step in environments that are the same up to a new name for a parameter.  The same
nodes are expanded in both, apart from the bodies of renamed macros and the arguments that stand in
them; there the environments have one and the same argument under different names.
-/

namespace ScopedMacros

/-- Errors of the same kind at the same place. -/
def Error.Similar (error other : Error) : Prop :=
  error.kind = other.kind ∧ error.location = other.location

namespace Expansion

open Step

/-- What goes in step one level down: the same nodes from environments that came about in step, and
the body of a macro with the body after the renaming. -/
structure InStep (files : FileSet) (old new : Bytes) (expand : Context → List Node → Step) :
    Prop where
  same : ∀ called context nodes, (∀ node ∈ nodes, ¬node.Compares files called) →
    Matches id Error.Similar (Env.Twins files old new called) (expand context nodes)
      (expand context nodes)
  renamed : ∀ context nodes, (∀ node ∈ nodes, node.Plain) → (∀ node ∈ nodes, node.Spares new) →
    Matches id Error.Similar (Env.Shifted files old new) (expand context nodes)
      (expand context (Node.renameAll old new nodes))

section

variable {files : FileSet} {old new : Bytes} {expand : Context → List Node → Step}
  {context : Context} {called : Bool} {related : Env → Env → Prop} {definition twin : Macro}

variable (inStep : InStep files old new expand)
include inStep

theorem matches_useMacro (twins : Macro.Twins files old new called definition twin)
    (location : Location) :
    Matches id Error.Similar related (useMacro expand context location definition)
      (useMacro expand context location twin) := by
  unfold useMacro
  cases twins with
  | object name other place nested quiet scopes => exact .inside scopes (inStep.same _ _ _ quiet)
  | function name other parameters place nested quiet scopes => exact .fail ⟨rfl, rfl⟩
  | renamed name other place nested renamable scopes => exact .fail ⟨rfl, rfl⟩
  | argument name other place plain spares scopes bound shifts =>
      exact .inside ⟨_, scopes, bound, shifts⟩ (inStep.renamed _ _ plain spares)

theorem matches_callMacro (twins : Macro.Twins files old new called definition twin)
    {given others : List (List Node)} (empty : Env.Passes files old new related [] [])
    (passes : List.Forall₂ (Env.Passes files old new related) given others) (location : Location) :
    Matches id Error.Similar related (callMacro expand context location definition given)
      (callMacro expand context location twin others) := by
  unfold callMacro
  cases twins with
  | object name other place nested quiet scopes => exact .fail ⟨rfl, rfl⟩
  | argument name other place plain spares scopes bound shifts => exact .fail ⟨rfl, rfl⟩
  | function name other parameters place nested quiet scopes =>
      intro env outer start
      have passed := Macro.forall₂_arguments empty passes (Eq.refl parameters.length)
      dsimp only
      rw [passed.length_eq]
      split
      · refine Matches.inside ?_ (inStep.same true _ _ quiet) env outer start
        exact scopes.bindArguments passed start parameters location
      · exact Matches.fail ⟨rfl, rfl⟩ env outer start
  | @renamed name other place _ _ parameters body scope outerScope nested renamable scopes =>
      intro env outer start
      have passed := Macro.forall₂_arguments empty passes
        (show (parameters.map (Bytes.rename old new)).length = parameters.length from
          List.length_map _)
      dsimp only
      rw [← passed.length_eq, List.length_map]
      split
      · next arity =>
          refine Matches.inside ?_ (inStep.renamed _ _ renamable.plain renamable.spares) env outer
            start
          exact Env.Twins.bindArguments_rename scopes renamable passed start arity location
      · exact Matches.fail ⟨rfl, rfl⟩ env outer start

theorem matches_includeFile {path : Bytes} {location : Location}
    (quiet : ¬(Node.inclusion location path).Compares files called) :
    Matches id Error.Similar (Env.Twins files old new called)
      (includeFile files expand context location path)
      (includeFile files expand context location path) := by
  unfold includeFile
  split
  · exact .fail ⟨rfl, rfl⟩
  cases found : files.contents? path with
  | none => exact .fail ⟨rfl, rfl⟩
  | some text =>
      cases read : Node.ofSource path text with
      | error error =>
          simp only [read]
          exact .fail ⟨rfl, rfl⟩
      | ok nodes =>
          simp only [read]
          refine .between rfl rfl (inStep.same called _ _ fun node member compares => ?_)
          exact quiet (.file location found read member compares)

/-- The same node, from environments that came about in step. -/
theorem matches_ofNode {node : Node} (quiet : ¬node.Compares files called) :
    Matches id Error.Similar (Env.Twins files old new called) (ofNode files expand context node)
      (ofNode files expand context node) := by
  intro env other start
  cases node with
  | ident location name =>
      rcases start.lookup_cases name with ⟨free, otherFree⟩ | ⟨_, _, found, otherFound, twins⟩
      · simp only [ofNode, free, otherFree]
        exact Matches.say rfl env other start
      · simp only [ofNode, found, otherFound]
        exact (Matches.say rfl).andThen (matches_useMacro inStep twins location) env other start
  | call location name given =>
      have quietGiven : ∀ argument ∈ given, ∀ node ∈ argument, ¬node.Compares files called :=
        fun argument among node member compares =>
          quiet (.argument location name among member compares)
      rcases start.lookup_cases name with ⟨free, otherFree⟩ | ⟨_, _, found, otherFound, twins⟩
      · simp only [ofNode, free, otherFree]
        refine matches_callUnbound (fun _ _ => rfl) ?_ location name env other start
        exact List.forall₂_same.2 fun argument among =>
          inStep.same called _ _ (quietGiven argument among)
      · simp only [ofNode, found, otherFound]
        have passes : List.Forall₂ (Env.Passes files old new (Env.Twins files old new called))
            given given :=
          List.forall₂_same.2 fun argument among => Env.passes_same (quietGiven argument among)
        exact (Matches.say rfl).andThen
          (matches_callMacro inStep twins (Env.passes_same (by simp)) passes location) env other
          start
  | define location name parameters body =>
      simp only [ofNode]
      rw [start.contains]
      split
      · exact Matches.fail ⟨rfl, rfl⟩ env other start
      refine .some (.ok [.jump] (start.bind ?_ rfl))
      cases parameters with
      | none =>
          exact .object name name location id
            (fun node member compares => quiet (.object location name member compares)) start
      | some parameters =>
          exact .function name name parameters location id
            (fun node member compares =>
              quiet (.function location name parameters called member compares)) start
  | undef location name => exact .some (.ok [.jump] (start.unbind name))
  | inclusion location path => exact matches_includeFile inStep quiet env other start
  | cond location test yes no =>
      simp only [ofNode]
      have same : test.eval other = test.eval env := by
        refine Test.eval_of_twins start fun inCall compares => quiet ?_
        subst inCall
        exact .test location yes no compares
      rw [same]
      cases test.eval env with
      | error error => exact Matches.fail ⟨rfl, rfl⟩ env other start
      | ok holds =>
          have branch : ∀ node ∈ (if holds then yes else no), ¬node.Compares files called := by
            intro node member compares
            cases holds with
            | true => exact quiet (.yes location test no member compares)
            | false => exact quiet (.no location test yes member compares)
          exact Matches.between rfl rfl (inStep.same called _ _ branch) env other start
  | error location message => exact Matches.fail ⟨rfl, rfl⟩ env other start
  | seq location nodes =>
      exact inStep.same called _ _
        (fun node member compares => quiet (.seq location member compares)) env other start
  | warning | space | text | line | currentLine | currentFile =>
      exact Matches.say rfl env other start

/-- A node of a body, and the node after the renaming. -/
theorem matches_ofNode_rename {node : Node} (plain : node.Plain) (spares : node.Spares new) :
    Matches id Error.Similar (Env.Shifted files old new) (ofNode files expand context node)
      (ofNode files expand context (node.rename old new)) := by
  intro env other start
  cases plain with
  | ident location name =>
      cases spares with
      | ident _ different =>
          rcases start.lookup_cases different with ⟨free, otherFree, same⟩ |
            ⟨_, _, found, otherFound, same⟩
          · simp only [Node.rename, ofNode, free, otherFree]
            rw [same]
            exact Matches.say rfl env other start
          · simp only [Node.rename, ofNode, found, otherFound]
            exact (Matches.say rfl).andThen (matches_useMacro inStep same location) env other start
  | call location name given givenPlain =>
      cases spares with
      | call _ different givenSpare =>
          rcases start.lookup_cases different with ⟨free, otherFree, same⟩ |
            ⟨_, _, found, otherFound, same⟩
          · simp only [Node.rename, ofNode, free, otherFree]
            rw [same]
            refine matches_callUnbound (fun _ _ => rfl) ?_ location name env other start
            rw [Node.renameArguments_eq_map, List.forall₂_map_right_iff, List.forall₂_same]
            exact fun argument among =>
              inStep.renamed _ _ (givenPlain argument among) (givenSpare argument among)
          · simp only [Node.rename, ofNode, found, otherFound]
            have passes : List.Forall₂ (Env.Passes files old new (Env.Shifted files old new)) given
                (Node.renameArguments old new given) := by
              rw [Node.renameArguments_eq_map, List.forall₂_map_right_iff, List.forall₂_same]
              exact fun argument among =>
                Env.passes_renamed (givenPlain argument among) (givenSpare argument among)
            exact (Matches.say rfl).andThen (matches_callMacro inStep same
              (Env.passes_renamed (by simp) (by simp)) passes location) env other start
  | space | text | currentLine | currentFile => exact Matches.say rfl env other start

end

/-- To every depth the expansions go in step. -/
theorem inStep_within (files : FileSet) (old new : Bytes) (depth : Nat) :
    InStep files old new (within files depth) := by
  induction depth with
  | zero => exact ⟨fun _ _ _ _ _ _ _ => .none, fun _ _ _ _ _ _ _ => .none⟩
  | succ depth ih =>
      refine ⟨fun called context nodes quiet => ?_, fun context nodes plain spares => ?_⟩
      · refine .all ?_
        rw [List.forall₂_map_left_iff, List.forall₂_map_right_iff, List.forall₂_same]
        exact fun node member => matches_ofNode ih (quiet node member)
      · refine .all ?_
        rw [Node.renameAll_eq_map, List.map_map, List.forall₂_map_left_iff,
          List.forall₂_map_right_iff, List.forall₂_same]
        exact fun node member => matches_ofNode_rename ih (plain node member) (spares node member)

end Expansion

/-! ## New names for parameters -/

namespace Env.Renamed

variable {files : FileSet} {old new : Bytes} {env other : Env}

/-- Where no name is compared in a call, environments that are the same up to the new name are in
step. -/
theorem twins (renamed : Env.Renamed old new env other) (quiet : ¬env.Compares files) :
    Env.Twins files old new false env other := by
  induction renamed with
  | empty => exact .empty false
  | keep name parameters body location _ _ ihScope ihRest =>
      refine .cons ?_ (ihRest fun compares => quiet (.rest _ _ _ _ _ compares))
      have scopes := ihScope fun compares => quiet (.scope _ _ _ _ _ compares)
      cases parameters with
      | none =>
          exact .object name name location id
            (fun node member compares => quiet (.object _ _ _ _ member compares)) scopes
      | some parameters =>
          exact .function name name parameters location id
            (fun node member compares => quiet (.function _ _ _ _ _ member compares)) scopes
  | rename name location renamable _ _ ihScope ihRest =>
      exact .cons (.renamed name name location id renamable
          (ihScope fun compares => quiet (.scope _ _ _ _ _ compares)))
        (ihRest fun compares => quiet (.rest _ _ _ _ _ compares))

theorem of_twins (twins : Env.Twins files old new false env other) :
    Env.Renamed old new env other := by
  have settled : ∀ inner : Bool, (inner = true → false = true) → inner = false := by decide
  induction env generalizing other with
  | empty =>
      cases twins
      exact .empty
  | cons name parameters body scope location rest ihScope ihRest =>
      cases twins with
      | cons head tail =>
          cases head with
          | object _ _ _ nested quiet scopes =>
              obtain rfl := settled _ nested
              exact .keep _ _ _ _ (ihScope scopes) (ihRest tail)
          | function _ _ _ _ nested quiet scopes =>
              obtain rfl := settled _ nested
              exact .keep _ _ _ _ (ihScope scopes) (ihRest tail)
          | renamed _ _ _ nested renamable scopes =>
              obtain rfl := settled _ nested
              exact .rename _ _ renamable (ihScope scopes) (ihRest tail)

theorem refl (env : Env) : Env.Renamed old new env env := by
  induction env with
  | empty => exact .empty
  | cons name parameters body scope location rest ihScope ihRest =>
      exact .keep name parameters body location ihScope ihRest

/-- In any environment, a macro can be bound with a new name for a parameter. -/
theorem bind_rename {definition : Macro} {parameters : List Bytes}
    (takes : definition.parameters = some parameters)
    (renamable : Macro.Renamable old new parameters definition.body) (env : Env) :
    Env.Renamed old new (env.bind definition) (env.bind (definition.rename old new)) := by
  obtain ⟨name, _, body, scope, location⟩ := definition
  cases takes
  induction env with
  | empty => exact .rename name location renamable (.refl scope) .empty
  | cons bound others content inner place rest _ ih =>
      unfold Env.bind
      rw [show (Macro.rename old new ⟨name, some parameters, body, scope, location⟩).name = name
        from rfl]
      split
      · exact .rename name location renamable (.refl scope) (.refl rest)
      split
      · exact .rename name location renamable (.refl scope) (.refl _)
      · exact .keep bound others content place (.refl inner) ih

end Env.Renamed

namespace Expansion

/-- A parameter can be renamed.  Let two environments be the same up to a new name for one of the
different parameters, and for its uses in the body, of any of their macros that take arguments,
where the body is one that sources make and does not have the new name yet.  Let no name be compared
in the body of a macro that takes arguments, neither in the environments nor in what is expanded.
Then whatever is expanded does the same in both: it gives out the same events, and so the same text,
with or without markers, and the same warnings; and it succeeds in both, with environments that are
the same up to the new name again, or fails in both, with errors of one kind at one place. -/
theorem renamed_parameter_unseen (files : FileSet) (context : Context) (nodes : List Node)
    (old new : Bytes) (env other : Env) (renamed : Env.Renamed old new env other)
    (quiet : ¬env.Compares files) (nodesQuiet : ∀ node ∈ nodes, ¬node.Compares files false) :
    let outcome := run files context nodes env
    let twin := run files context nodes other
    twin.events = outcome.events ∧
      (∀ final, outcome.result = .ok final →
        ∃ last, twin.result = .ok last ∧ Env.Renamed old new final last) ∧
      (∀ last, twin.result = .ok last →
        ∃ final, outcome.result = .ok final ∧ Env.Renamed old new final last) ∧
      ∀ error, outcome.result = .error error →
        ∃ failure, twin.result = .error failure ∧ failure.kind = error.kind ∧
          failure.location = error.location := by
  intro outcome twin
  have same : Outcome.Matches id Error.Similar (Env.Twins files old new false) outcome twin :=
    matches_run
      (fun depth => (inStep_within files old new depth).same false context nodes nodesQuiet)
      (renamed.twins quiet)
  generalize outcome = first at same
  generalize twin = second at same
  cases same with
  | ok events final =>
      refine ⟨List.map_id _, ?_, ?_, by rintro _ ⟨⟩⟩
      · rintro _ ⟨⟩
        exact ⟨_, rfl, .of_twins final⟩
      · rintro _ ⟨⟩
        exact ⟨_, rfl, .of_twins final⟩
  | error events failed =>
      refine ⟨List.map_id _, by rintro _ ⟨⟩, by rintro _ ⟨⟩, ?_⟩
      rintro _ ⟨⟩
      exact ⟨_, rfl, failed.1.symm, failed.2.symm⟩

/-- Where `q` stands for `3`, the macro `G` gives out its parameter and `q`. -/
def pairingEnv : Env :=
  let values := Env.empty.bind ⟨bytes "q", none, [.text .nowhere (bytes "3")], .empty, .nowhere⟩
  values.bind ⟨bytes "G", some [bytes "x"],
    [.ident .nowhere (bytes "x"), .ident .nowhere (bytes "q")], values, .nowhere⟩

/-- The macro `F` passes its parameter `p` on to `G`, in a given scope. -/
def passingOn (scope : Env) : Macro :=
  ⟨bytes "F", some [bytes "p"], [.call .nowhere (bytes "G") [[.ident .nowhere (bytes "p")]]],
    scope, .nowhere⟩

theorem renamable_passingOn (scope : Env) :
    Macro.Renamable (bytes "p") (bytes "q") [bytes "p"] (passingOn scope).body where
  parameter := by decide
  distinct := by decide
  fresh := by decide
  plain := by
    simp only [passingOn, List.forall_mem_singleton]
    refine .call _ _ _ ?_
    simp only [List.forall_mem_singleton]
    exact .ident _ _
  spares := by
    simp only [passingOn, List.forall_mem_singleton]
    refine .call _ (show bytes "G" ≠ bytes "q" by decide) ?_
    simp only [List.forall_mem_singleton]
    exact .ident _ (show bytes "p" ≠ bytes "q" by decide)

/-- Where it is called, `q` stands for `5`. -/
def pairingCaller : Env :=
  pairingEnv.bind ⟨bytes "q", none, [.text .nowhere (bytes "5")], .empty, .nowhere⟩

/-- The call `F(q)`. -/
def callOfNew : List Node :=
  [.call .nowhere (bytes "F") [[.ident .nowhere (bytes "q")]]]

theorem plain_pairing : (pairingCaller.bind (passingOn pairingEnv)).Plain := by
  have value : ∀ text, Macro.Plain ⟨bytes "q", none, [.text .nowhere text], .empty, .nowhere⟩ :=
    fun text => ⟨by simp [Node.Plain.text], .empty⟩
  have values := Env.Plain.empty.bind (value (bytes "3"))
  have inner : pairingEnv.Plain := values.bind ⟨by simp [Node.Plain.ident], values⟩
  exact (inner.bind (value (bytes "5"))).bind ⟨(renamable_passingOn pairingEnv).plain, inner⟩

theorem renamed_parameter_unseen_pairing :
    (expand .empty (bytes "t") callOfNew (pairingCaller.bind (passingOn pairingEnv))).appended
        .start = bytes "53" ∧
      (expand .empty (bytes "t") callOfNew
        (pairingCaller.bind ((passingOn pairingEnv).rename (bytes "p") (bytes "q")))).appended
        .start = bytes "53" := by
  have quiet : ∀ node ∈ callOfNew, ¬node.Compares .empty false := by
    simp only [callOfNew, List.forall_mem_singleton]
    exact fun compares => compares.not_fromSource.1 (.call _ _ _ (by simp [Node.Plain.ident]))
  obtain ⟨same, -⟩ := renamed_parameter_unseen .empty ⟨[bytes "t"], none⟩ callOfNew (bytes "p")
    (bytes "q") _ _ (.bind_rename rfl (renamable_passingOn pairingEnv) pairingCaller)
    plain_pairing.not_compares quiet
  have direct : (expand .empty (bytes "t") callOfNew
      (pairingCaller.bind (passingOn pairingEnv))).appended .start = bytes "53" :=
    @view_expand_of_within _ _ _ _ (Outcome.appended .start) _ 6 _ (by decide +kernel)
  refine ⟨direct, ?_⟩
  rw [Outcome.appended_eq] at direct ⊢
  rw [← direct]
  exact congrArg (List.flatMap Event.written) same

/-- Where `p` stands for `1` and `q` for `2`, the macro `G` compares its parameter `x` with `1`. -/
def comparingEnv : Env :=
  let values :=
    (Env.empty.bind ⟨bytes "p", none, [.text .nowhere (bytes "1")], .empty, .nowhere⟩).bind
      ⟨bytes "q", none, [.text .nowhere (bytes "2")], .empty, .nowhere⟩
  values.bind ⟨bytes "G", some [bytes "x"],
    [.cond .nowhere (.compare .nowhere .equal (.ident .nowhere (bytes "x")) (.int .nowhere 1))
      [.text .nowhere (bytes "yes")] [.text .nowhere (bytes "no")]], values, .nowhere⟩

/-- A comparison in a call can see the renaming. -/
theorem comparison_sees_renaming :
    Macro.Renamable (bytes "p") (bytes "q") [bytes "p"] (passingOn comparingEnv).body ∧
      (expand .empty (bytes "t") callOfNew (comparingEnv.bind (passingOn comparingEnv))).appended
        .start = bytes "yes" ∧
      (expand .empty (bytes "t") callOfNew
        (comparingEnv.bind ((passingOn comparingEnv).rename (bytes "p") (bytes "q")))).appended
        .start = bytes "no" := by
  refine ⟨renamable_passingOn comparingEnv, ?_, ?_⟩
  · exact @view_expand_of_within _ _ _ _ (Outcome.appended .start) _ 6 _ (by decide +kernel)
  · exact @view_expand_of_within _ _ _ _ (Outcome.appended .start) _ 6 _ (by decide +kernel)

end Expansion

end ScopedMacros
