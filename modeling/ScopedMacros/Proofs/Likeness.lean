import Mathlib.Data.List.Forall2
import ScopedMacros.Expr.Value
import ScopedMacros.Proofs.Places

/-!
# The same source at another place

Nodes are alike if they are the same up to places.  The current line and the current file are alike
to nothing, since their text depends on where they stand.  Macros and environments are alike if all
they hold is, and then names have the same values in them.
-/

namespace ScopedMacros

namespace Node

/-- The same node up to places, of which no part depends on its place. -/
inductive Alike : Node → Node → Prop where
  | ident (location place : Location) (name : Bytes) :
      Alike (.ident location name) (.ident place name)
  | call (location place : Location) (name : Bytes) {arguments others : List (List Node)}
      (alike : List.Forall₂ (List.Forall₂ Alike) arguments others) :
      Alike (.call location name arguments) (.call place name others)
  | define (location place : Location) (name : Bytes) (parameters : Option (List Bytes))
      {body other : List Node} (alike : List.Forall₂ Alike body other) :
      Alike (.define location name parameters body) (.define place name parameters other)
  | undef (location place : Location) (name : Bytes) :
      Alike (.undef location name) (.undef place name)
  | inclusion (location place : Location) (path : Bytes) :
      Alike (.inclusion location path) (.inclusion place path)
  | cond (location place : Location) {test check : Test} {yes no others rest : List Node}
      (same : test.unplaced = check.unplaced) (yesAlike : List.Forall₂ Alike yes others)
      (noAlike : List.Forall₂ Alike no rest) :
      Alike (.cond location test yes no) (.cond place check others rest)
  | error (location place : Location) (message : Bytes) :
      Alike (.error location message) (.error place message)
  | warning (location place : Location) (message : Bytes) :
      Alike (.warning location message) (.warning place message)
  | space (location place : Location) (text : Bytes) :
      Alike (.space location text) (.space place text)
  | text (location place : Location) (text : Bytes) :
      Alike (.text location text) (.text place text)
  | seq (location place : Location) {nodes others : List Node}
      (alike : List.Forall₂ Alike nodes others) : Alike (.seq location nodes) (.seq place others)
  | line (location place : Location) (file : Option Bytes) (number : Int64) :
      Alike (.line location file number) (.line place file number)

/-- Lists of nodes that are alike one by one. -/
abbrev AllAlike : List Node → List Node → Prop :=
  List.Forall₂ Alike

theorem Alike.isSpace {node other : Node} (alike : Alike node other) :
    other.isSpace = node.isSpace := by
  cases alike <;> rfl

end Node

/-- The same environment up to places. -/
inductive Env.Alike : Env → Env → Prop where
  | empty : Alike .empty .empty
  | cons (name : Bytes) (parameters : Option (List Bytes)) (location place : Location)
      {body other : List Node} {scope outer rest others : Env} (bodies : Node.AllAlike body other)
      (scopes : Alike scope outer) (alike : Alike rest others) :
      Alike (.cons name parameters body scope location rest)
        (.cons name parameters other outer place others)

/-- The same macro up to places. -/
structure Macro.Alike (definition other : Macro) : Prop where
  name : definition.name = other.name
  parameters : definition.parameters = other.parameters
  body : Node.AllAlike definition.body other.body
  scope : Env.Alike definition.scope other.scope

namespace Env.Alike

variable {env other : Env} {definition twin : Macro}

theorem add (alike : definition.Alike twin) (rest : Alike env other) :
    Alike (env.add definition) (other.add twin) := by
  obtain ⟨name, parameters, body, scope⟩ := alike
  rw [Env.add, Env.add, name, parameters]
  exact .cons _ _ _ _ body scope rest

theorem lookup (alike : Alike env other) (name : Bytes) :
    Option.Rel Macro.Alike (env.lookup name) (other.lookup name) := by
  induction alike with
  | empty => exact .none
  | cons bound parameters location place bodies scopes _ _ ih =>
      unfold Env.lookup
      split
      · exact .some ⟨rfl, rfl, bodies, scopes⟩
      · exact ih

theorem exists_lookup {name : Bytes} (alike : Alike env other)
    (found : env.lookup name = some definition) :
    ∃ twin, other.lookup name = some twin ∧ definition.Alike twin := by
  have related := alike.lookup name
  rw [found] at related
  generalize other.lookup name = answer at related
  cases related with
  | some same => exact ⟨_, rfl, same⟩

theorem lookup_eq_none {name : Bytes} (alike : Alike env other) (free : env.lookup name = none) :
    other.lookup name = none := by
  have related := alike.lookup name
  rw [free] at related
  generalize other.lookup name = answer at related
  cases related with
  | none => rfl

theorem contains (alike : Alike env other) (name : Bytes) :
    env.contains name = other.contains name := by
  have found := alike.lookup name
  unfold Env.contains
  generalize env.lookup name = left at found
  generalize other.lookup name = right at found
  cases found <;> rfl

theorem bind (alike : Alike env other) (new : definition.Alike twin) :
    Alike (env.bind definition) (other.bind twin) := by
  induction alike with
  | empty => exact .add new .empty
  | cons name parameters location place bodies scopes rest _ ih =>
      unfold Env.bind
      rw [← new.name]
      split
      · exact .add new rest
      split
      · exact .add new (.cons _ _ _ _ bodies scopes rest)
      · exact .cons _ _ _ _ bodies scopes ih

theorem unbind (alike : Alike env other) (name : Bytes) :
    Alike (env.unbind name) (other.unbind name) := by
  induction alike with
  | empty => exact .empty
  | cons bound parameters location place bodies scopes rest _ ih =>
      unfold Env.unbind
      split
      · exact rest
      · exact .cons _ _ _ _ bodies scopes ih

theorem bindAll {definitions twins : List Macro} (each : List.Forall₂ Macro.Alike definitions twins)
    (alike : Alike env other) : Alike (env.bindAll definitions) (other.bindAll twins) := by
  induction each generalizing env other with
  | nil => exact alike
  | cons new _ ih => exact ih (alike.bind new)

end Env.Alike

/-! ## Values -/

namespace Macro

theorem alias?_of_alike {body other : List Node} (alike : Node.AllAlike body other) :
    Option.Rel (fun target twin => target.2 = twin.2) (alias? body) (alias? other) := by
  have solid : Node.AllAlike (body.filter (!·.isSpace)) (other.filter (!·.isSpace)) := by
    induction alike with
    | nil => exact .nil
    | cons head _ ih =>
        rw [List.filter_cons, List.filter_cons, head.isSpace]
        split
        · exact .cons head ih
        · exact ih
  unfold alias?
  generalize body.filter (!·.isSpace) = left at solid
  generalize other.filter (!·.isSpace) = right at solid
  cases solid with
  | nil => exact .none
  | cons head rest =>
      cases rest with
      | nil =>
          cases head with
          | ident location place name => exact .some rfl
          | _ => exact .none
      | cons _ _ => cases head <;> exact .none

theorem constant?_of_alike {body other : List Node} (alike : Node.AllAlike body other) :
    constant? other = constant? body := by
  induction alike with
  | nil => rfl
  | cons head _ ih => cases head <;> simp [constant?, ih]

theorem literal_of_alike {name : Bytes} {location : Location} {body other : List Node} {value : Int64}
    (place : Location) (alike : Node.AllAlike body other)
    (read : literal name location body = .ok value) : literal name place other = .ok value := by
  unfold literal at read ⊢
  rw [constant?_of_alike alike]
  split at read
  · cases read
  split at read
  · cases read
  · assumption

end Macro

theorem Env.value_of_alike {env other : Env} {followed : List Bytes} {location : Location}
    {name : Bytes} {value : Int64} (alike : Env.Alike env other) (place : Location)
    (valued : env.value followed location name = .ok value) :
    other.value followed place name = .ok value := by
  fun_induction Env.value env followed location name generalizing place value with
  | case1 => cases valued
  | case2 => cases valued
  | case3 followed location name definition found plain inner number read =>
      rename_i ih
      cases valued
      obtain ⟨twin, foundTwin, same⟩ := alike.exists_lookup found
      have targets := Macro.alias?_of_alike same.body
      rw [Env.value]
      split
      · rename_i missing
        rw [foundTwin] at missing
        cases missing
      · rename_i other' foundOther
        obtain rfl : twin = other' := Option.some.inj (foundTwin.symm.trans foundOther)
        rw [← same.parameters, if_neg plain]
        dsimp only [inner] at read
        dsimp only
        generalize Macro.alias? definition.body = target at targets read
        generalize Macro.alias? twin.body = twinTarget at targets
        cases targets with
        | none =>
            dsimp only at read ⊢
            rw [Macro.literal_of_alike place same.body read]
        | @some target twinTarget sameName =>
            obtain ⟨spot, target⟩ := target
            obtain ⟨twinSpot, twinTarget⟩ := twinTarget
            dsimp only at sameName read ⊢
            subst sameName
            split at read
            · cases read
            · rename_i fresh
              rw [dif_neg fresh, ih _ _ fresh twinSpot read]
  | case4 => cases valued

theorem Arith.eval_of_alike {env other : Env} {tree twin : Arith} {value : Int64}
    (alike : Env.Alike env other) (same : tree.unplaced = twin.unplaced)
    (evaluated : tree.eval env = .ok value) : twin.eval other = .ok value := by
  induction tree generalizing twin value with
  | int location number =>
      cases twin <;> cases same
      exact evaluated
  | ident location name =>
      cases twin <;> cases same
      exact Env.value_of_alike alike _ evaluated
  | neg location operand ih =>
      cases twin <;> simp only [unplaced, neg.injEq, true_and, reduceCtorEq] at same
      obtain ⟨number, inner, evaluated⟩ := bind_eq_ok_iff.1 evaluated
      rw [eval, ih same inner]
      exact evaluated
  | complement location operand ih =>
      cases twin <;> simp only [unplaced, complement.injEq, true_and, reduceCtorEq] at same
      obtain ⟨number, inner, evaluated⟩ := bind_eq_ok_iff.1 evaluated
      rw [eval, ih same inner]
      exact evaluated
  | binary location operation left right ihLeft ihRight =>
      cases twin <;> simp only [unplaced, binary.injEq, true_and, reduceCtorEq] at same
      obtain ⟨rfl, sameLeft, sameRight⟩ := same
      obtain ⟨first, evaluatedLeft, evaluated⟩ := bind_eq_ok_iff.1 evaluated
      obtain ⟨second, evaluatedRight, evaluated⟩ := bind_eq_ok_iff.1 evaluated
      refine bind_eq_ok_iff.2 ⟨first, ihLeft sameLeft evaluatedLeft,
        bind_eq_ok_iff.2 ⟨second, ihRight sameRight evaluatedRight, ?_⟩⟩
      cases result : operation.result? first second with
      | some value =>
          rw [result] at evaluated
          exact evaluated
      | none =>
          rw [result] at evaluated
          cases evaluated

theorem Test.eval_of_alike {env other : Env} {test twin : Test} {holds : Bool}
    (alike : Env.Alike env other) (same : test.unplaced = twin.unplaced)
    (evaluated : test.eval env = .ok holds) : twin.eval other = .ok holds := by
  induction test generalizing twin holds with
  | literal location value =>
      cases twin <;> cases same
      exact evaluated
  | defined location name =>
      cases twin <;> cases same
      rw [eval, ← alike.contains]
      exact evaluated
  | not location operand ih =>
      cases twin <;> simp only [unplaced, not.injEq, true_and, reduceCtorEq] at same
      obtain ⟨inner, evaluatedInner, evaluated⟩ := bind_eq_ok_iff.1 evaluated
      rw [eval, ih same evaluatedInner]
      exact evaluated
  | both location left right ihLeft ihRight =>
      cases twin <;> simp only [unplaced, both.injEq, true_and, reduceCtorEq] at same
      obtain ⟨sameLeft, sameRight⟩ := same
      obtain ⟨first, evaluatedLeft, evaluated⟩ := bind_eq_ok_iff.1 evaluated
      rw [eval, ihLeft sameLeft evaluatedLeft]
      cases first with
      | true => exact ihRight sameRight evaluated
      | false => exact evaluated
  | either location left right ihLeft ihRight =>
      cases twin <;> simp only [unplaced, either.injEq, true_and, reduceCtorEq] at same
      obtain ⟨sameLeft, sameRight⟩ := same
      obtain ⟨first, evaluatedLeft, evaluated⟩ := bind_eq_ok_iff.1 evaluated
      rw [eval, ihLeft sameLeft evaluatedLeft]
      cases first with
      | true => exact evaluated
      | false => exact ihRight sameRight evaluated
  | compare location relation left right =>
      cases twin <;> simp only [unplaced, compare.injEq, true_and, reduceCtorEq] at same
      obtain ⟨rfl, sameLeft, sameRight⟩ := same
      obtain ⟨first, evaluatedLeft, evaluated⟩ := bind_eq_ok_iff.1 evaluated
      obtain ⟨second, evaluatedRight, evaluated⟩ := bind_eq_ok_iff.1 evaluated
      rw [eval, Arith.eval_of_alike alike sameLeft evaluatedLeft]
      change (Arith.eval other _ >>= _) = _
      rw [Arith.eval_of_alike alike sameRight evaluatedRight]
      exact evaluated

end ScopedMacros
