import Mathlib.Data.List.Perm.Subperm
import ScopedMacros.Proofs.Literal
import ScopedMacros.Proofs.Quoting

/-!
# Names that stand for names

The value of a name is found by following names: a body that is one name leads on to that name, in
the same environment.  The names that are come upon form a trail.  It ends at a name that leads
nowhere, or else it comes back to a name that it has passed; either way each name is passed at most
once.  An error found at the end is reported once for every name on the trail.
-/

namespace ScopedMacros

/-- A name, and the place where it is used. -/
structure NameUse where
  location : Location
  name : Bytes
  deriving DecidableEq, Repr

/-- Text or space with the given content. -/
inductive Node.HasText : Node → Bytes → Prop where
  | space (location : Location) (content : Bytes) : HasText (.space location content) content
  | text (location : Location) (content : Bytes) : HasText (.text location content) content

namespace Env

/-- Whether the name is bound to a macro without parameters. -/
def bindsObject (env : Env) (name : Bytes) : Bool :=
  (env.lookup name).any (·.parameters.isNone)

/-- The first name is bound to a macro without parameters whose body is the second name, apart from
space. -/
def Follows (env : Env) (use next : NameUse) : Prop :=
  ∃ definition, env.lookup use.name = some definition ∧ definition.parameters = none ∧
    definition.body.filter (!·.isSpace) = [.ident next.location next.name]

/-- From the first name on, through the names of the list, the last one is come upon. -/
inductive Trail (env : Env) : NameUse → List NameUse → NameUse → Prop where
  | here (use : NameUse) : Trail env use [] use
  | further {use next last : NameUse} {trail : List NameUse} (follows : env.Follows use next)
      (rest : Trail env next trail last) : Trail env use (use :: trail) last

/-- From a use on, some name is come upon twice. -/
def Repeats (env : Env) (use : NameUse) : Prop :=
  ∃ trail last, env.Trail use trail last ∧ last.name ∈ trail.map NameUse.name

/-- The name is bound to a macro without parameters whose body is text, and the text without the
space around it is a literal for the value. -/
def Denotes (env : Env) (name : Bytes) (value : Int64) : Prop :=
  ∃ definition texts, env.lookup name = some definition ∧ definition.parameters = none ∧
    List.Forall₂ Node.HasText definition.body texts ∧
    Numeral.read? (Bytes.strip texts.flatten) = some value

/-- What is wrong with a name that is come upon after others. -/
inductive Blocks (env : Env) (earlier : List Bytes) (last : NameUse) : Cause → Prop where
  | undefined (free : env.lookup last.name = none) : Blocks env earlier last (.undefined last.name)
  | takesArguments {definition : Macro} (found : env.lookup last.name = some definition)
      (takes : definition.parameters.isSome = true) :
      Blocks env earlier last (.takesArguments last.name)
  | cyclic {next : NameUse} (follows : env.Follows last next) (seen : last.name ∈ earlier) :
      Blocks env earlier last (.cyclicAlias last.name)
  | notConstant {definition : Macro} (found : env.lookup last.name = some definition)
      (plain : definition.parameters = none) (ends : ∀ next, ¬env.Follows last next)
      (mixed : ∀ texts, ¬List.Forall₂ Node.HasText definition.body texts) :
      Blocks env earlier last (.notConstant last.name)
  | notInteger {definition : Macro} {texts : List Bytes}
      (found : env.lookup last.name = some definition) (plain : definition.parameters = none)
      (whole : List.Forall₂ Node.HasText definition.body texts)
      (unread : Numeral.read? (Bytes.strip texts.flatten) = none) :
      Blocks env earlier last (.notInteger last.name)

end Env

/-! ## Bodies -/

namespace Macro

variable {body : List Node}

theorem alias?_eq_some_iff {location : Location} {name : Bytes} :
    alias? body = some (location, name) ↔ body.filter (!·.isSpace) = [.ident location name] := by
  unfold alias?
  split
  · next place word solid => simp [solid]
  · next other =>
      refine iff_of_false (by simp) fun solid => ?_
      exact other location name solid

theorem constant?_eq_some_iff {text : Bytes} :
    constant? body = some text ↔
      ∃ texts, List.Forall₂ Node.HasText body texts ∧ texts.flatten = text := by
  induction body generalizing text with
  | nil => simp [constant?, eq_comm]
  | cons node rest ih =>
      have split : ∀ content : Bytes, (∀ other, node.HasText other ↔ other = content) →
          ((constant? rest).map (content ++ ·) = some text ↔
            ∃ texts, List.Forall₂ Node.HasText (node :: rest) texts ∧ texts.flatten = text) := by
        intro content only
        simp only [Option.map_eq_some_iff, ih, List.forall₂_cons_left_iff, only]
        constructor
        · rintro ⟨_, ⟨texts, whole, rfl⟩, rfl⟩
          exact ⟨content :: texts, ⟨content, texts, rfl, whole, rfl⟩, rfl⟩
        · rintro ⟨_, ⟨_, texts, rfl, whole, rfl⟩, rfl⟩
          exact ⟨texts.flatten, ⟨texts, whole, rfl⟩, rfl⟩
      cases node with
      | space location content =>
          refine split content fun other => ⟨fun has => ?_, fun same => same ▸ .space _ _⟩
          cases has
          rfl
      | text location content =>
          refine split content fun other => ⟨fun has => ?_, fun same => same ▸ .text _ _⟩
          cases has
          rfl
      | _ =>
          refine iff_of_false (by simp [constant?]) ?_
          rintro ⟨_, whole, _⟩
          cases whole with
          | cons first _ => cases first

/-- The texts of a body are given by the body. -/
theorem texts_unique {first second : List Bytes} (one : List.Forall₂ Node.HasText body first)
    (two : List.Forall₂ Node.HasText body second) : first = second := by
  induction one generalizing second with
  | nil =>
      cases two
      rfl
  | cons head _ ih =>
      cases two with
      | cons other rest =>
          rw [ih rest]
          cases head <;> cases other <;> rfl

theorem exists_text_of_mem {texts : List Bytes} {node : Node}
    (whole : List.Forall₂ Node.HasText body texts) (member : node ∈ body) :
    ∃ text, node.HasText text := by
  induction whole with
  | nil => cases member
  | cons head _ ih =>
      rcases List.mem_cons.1 member with rfl | member
      · exact ⟨_, head⟩
      · exact ih member

/-- A body of text is not a name. -/
theorem filter_ne_ident_of_texts {texts : List Bytes}
    (whole : List.Forall₂ Node.HasText body texts) (location : Location) (name : Bytes) :
    body.filter (!·.isSpace) ≠ [.ident location name] := by
  intro solid
  have member : Node.ident location name ∈ body.filter (!·.isSpace) := by simp [solid]
  obtain ⟨text, has⟩ := exists_text_of_mem whole (List.mem_filter.1 member).1
  cases has

end Macro

/-! ## Trails -/

namespace Env

variable {env : Env} {use next last : NameUse} {trail : List NameUse}

theorem bindsObject_iff {name : Bytes} :
    env.bindsObject name = true ↔
      ∃ definition, env.lookup name = some definition ∧ definition.parameters = none := by
  unfold bindsObject
  cases env.lookup name <;> simp

theorem Follows.bindsObject (follows : env.Follows use next) : env.bindsObject use.name = true := by
  obtain ⟨definition, found, plain, _⟩ := follows
  exact bindsObject_iff.2 ⟨definition, found, plain⟩

/-- Where a name leads does not depend on where it is used. -/
theorem Follows.of_name {other : NameUse} (follows : env.Follows use next)
    (same : other.name = use.name) : env.Follows other next := by
  unfold Follows
  rw [same]
  exact follows

theorem Follows.unique {other : NameUse} (one : env.Follows use next)
    (two : env.Follows use other) : next = other := by
  obtain ⟨definition, found, _, solid⟩ := one
  obtain ⟨twin, foundTwin, _, solidTwin⟩ := two
  cases found.symm.trans foundTwin
  obtain ⟨location, name⟩ := next
  obtain ⟨place, word⟩ := other
  have same := solid.symm.trans solidTwin
  injection same with same
  injection same with locations names
  dsimp only at locations names
  rw [locations, names]

theorem Denotes.not_follows {value : Int64} (denotes : env.Denotes use.name value) :
    ¬env.Follows use next := by
  rintro ⟨definition, found, _, solid⟩
  obtain ⟨twin, texts, foundTwin, _, whole, _⟩ := denotes
  cases found.symm.trans foundTwin
  exact Macro.filter_ne_ident_of_texts whole _ _ solid

theorem Denotes.unique {name : Bytes} {value other : Int64} (one : env.Denotes name value)
    (two : env.Denotes name other) : value = other := by
  obtain ⟨definition, texts, found, _, whole, read⟩ := one
  obtain ⟨twin, texts', foundTwin, _, whole', read'⟩ := two
  cases found.symm.trans foundTwin
  rw [Macro.texts_unique whole whole'] at read
  exact Option.some.inj (read.symm.trans read')

/-- Every name that is passed leads on. -/
theorem Trail.exists_follows (goes : env.Trail use trail last) :
    ∀ passed ∈ trail, ∃ next, env.Follows passed next := by
  induction goes with
  | here => simp
  | further follows _ ih => exact List.forall_mem_cons.2 ⟨⟨_, follows⟩, ih⟩

/-- A name that leads nowhere was not passed before. -/
theorem Trail.fresh_of_end (goes : env.Trail use trail last)
    (ends : ∀ next, ¬env.Follows last next) : last.name ∉ trail.map NameUse.name := by
  intro member
  obtain ⟨passed, among, same⟩ := List.mem_map.1 member
  obtain ⟨next, follows⟩ := goes.exists_follows passed among
  exact ends next (follows.of_name same.symm)

/-- There is one trail from a name: another one that goes on to the end has the first one at its
beginning. -/
theorem Trail.exists_append {longer : List NameUse} {final : NameUse}
    (goes : env.Trail use trail last) (other : env.Trail use longer final)
    (ends : ∀ next, ¬env.Follows final next) :
    ∃ more, longer ++ [final] = trail ++ last :: more := by
  induction goes generalizing longer with
  | here use =>
      cases other with
      | here => exact ⟨[], rfl⟩
      | further => exact ⟨_, rfl⟩
  | further follows _ ih =>
      cases other with
      | here => exact absurd follows (ends _)
      | further followsOther rest =>
          cases follows.unique followsOther
          obtain ⟨more, same⟩ := ih rest
          exact ⟨more, congrArg (_ :: ·) same⟩

/-- A trail that ends comes upon no name twice. -/
theorem Trail.not_repeats (goes : env.Trail use trail last)
    (distinct : (trail.map NameUse.name).Nodup) (ends : ∀ next, ¬env.Follows last next) :
    ¬env.Repeats use := by
  rintro ⟨shorter, middle, other, seen⟩
  obtain ⟨more, same⟩ := other.exists_append goes ends
  have all : ((trail ++ [last]).map NameUse.name).Nodup := by
    rw [List.map_append, List.nodup_append]
    refine ⟨distinct, by simp, ?_⟩
    rintro name passed other isLast rfl
    rw [List.map_singleton, List.mem_singleton] at isLast
    exact goes.fresh_of_end ends (isLast ▸ passed)
  rw [same, List.map_append, List.nodup_append] at all
  exact all.2.2 _ seen _ (by simp) rfl

/-- A trail that ends is the only one to its end. -/
theorem Trail.last_unique {longer : List NameUse} {final : NameUse}
    (goes : env.Trail use trail last) (other : env.Trail use longer final)
    (ends : ∀ next, ¬env.Follows last next) (otherEnds : ∀ next, ¬env.Follows final next) :
    last = final := by
  obtain ⟨more, same⟩ := goes.exists_append other otherEnds
  obtain ⟨others, sameOther⟩ := other.exists_append goes ends
  have lengths := congrArg List.length same
  have lengthsOther := congrArg List.length sameOther
  simp only [List.length_append, List.length_cons, List.length_nil] at lengths lengthsOther
  obtain rfl : more = [] := List.eq_nil_of_length_eq_zero (by omega)
  have lasts := congrArg List.getLast? same
  simpa using lasts.symm

/-- A trail without repetition is no longer than the environment. -/
theorem Trail.length_le (goes : env.Trail use trail last)
    (distinct : (trail.map NameUse.name).Nodup) : trail.length ≤ env.size := by
  have size : env.names.length = env.size := by
    clear goes distinct
    induction env with
    | empty => rfl
    | cons _ _ _ _ _ _ _ ih => simp [names, Env.size, ih]
  have bound : trail.map NameUse.name ⊆ env.names := by
    intro name member
    obtain ⟨passed, among, rfl⟩ := List.mem_map.1 member
    obtain ⟨next, definition, found, _⟩ := goes.exists_follows passed among
    exact mem_names_of_lookup found
  have le := (distinct.subperm bound).length_le
  rwa [List.length_map, size] at le

/-! ## Errors -/

/-- A name comes to nothing at a trail's end because it has been passed, or because it leads nowhere
and denotes nothing. -/
theorem Blocks.cases {earlier : List Bytes} {cause : Cause}
    (blocks : env.Blocks earlier last cause) :
    (cause = .cyclicAlias last.name ∧ last.name ∈ earlier) ∨
      ((∀ name, cause ≠ .cyclicAlias name) ∧ (∀ next, ¬env.Follows last next) ∧
        ∀ value, ¬env.Denotes last.name value) := by
  cases blocks with
  | cyclic _ seen => exact .inl ⟨rfl, seen⟩
  | undefined free =>
      refine .inr ⟨by simp, ?_, ?_⟩
      · rintro next ⟨definition, found, _⟩
        cases free.symm.trans found
      · rintro value ⟨definition, texts, found, _⟩
        cases free.symm.trans found
  | takesArguments found takes =>
      refine .inr ⟨by simp, ?_, ?_⟩
      · rintro next ⟨definition, foundAgain, plain, _⟩
        cases found.symm.trans foundAgain
        simp [plain] at takes
      · rintro value ⟨definition, texts, foundAgain, plain, _⟩
        cases found.symm.trans foundAgain
        simp [plain] at takes
  | notConstant found plain ends mixed =>
      refine .inr ⟨by simp, ends, ?_⟩
      rintro value ⟨definition, texts, foundAgain, _, whole, _⟩
      cases found.symm.trans foundAgain
      exact mixed texts whole
  | notInteger found plain whole unread =>
      refine .inr ⟨by simp, ?_, ?_⟩
      · rintro next ⟨definition, foundAgain, _, solid⟩
        cases found.symm.trans foundAgain
        exact Macro.filter_ne_ident_of_texts whole _ _ solid
      · rintro value ⟨definition, texts, foundAgain, _, again, read⟩
        cases found.symm.trans foundAgain
        rw [Macro.texts_unique again whole, unread] at read
        cases read

theorem Blocks.mono {earlier others : List Bytes} {cause : Cause}
    (blocks : env.Blocks earlier last cause) (more : ∀ name ∈ earlier, name ∈ others) :
    env.Blocks others last cause := by
  cases blocks with
  | undefined free => exact .undefined free
  | takesArguments found takes => exact .takesArguments found takes
  | cyclic follows seen => exact .cyclic follows (more _ seen)
  | notConstant found plain ends mixed => exact .notConstant found plain ends mixed
  | notInteger found plain whole unread => exact .notInteger found plain whole unread

end Env

/-- The error that a name has no value, for a reason found elsewhere. -/
def Error.around (use : NameUse) (reason : Error) : Error :=
  ⟨.noValue use.name reason.cause reason.location, use.location⟩

/-- The error at the end of a trail as it is reported: once for every name on the trail that is
bound to a macro without parameters, the first one outermost. -/
def Env.report (env : Env) (names : List NameUse) (innermost : Error) : Error :=
  (names.filter fun use => env.bindsObject use.name).foldr Error.around innermost

namespace Env

variable {env : Env}

theorem report_cons {use : NameUse} (bound : env.bindsObject use.name = true)
    (names : List NameUse) (innermost : Error) :
    env.report (use :: names) innermost = .around use (env.report names innermost) := by
  have kept : (use :: names).filter (fun use => env.bindsObject use.name) =
      use :: names.filter fun use => env.bindsObject use.name := List.filter_cons_of_pos bound
  rw [report, kept]
  rfl

theorem report_single {use : NameUse} (unbound : env.bindsObject use.name = false)
    (innermost : Error) : env.report [use] innermost = innermost := by
  have dropped : [use].filter (fun use => env.bindsObject use.name) = [] := by simp [unbound]
  rw [report, dropped]
  rfl

/-! ## Following names -/

/-- The evaluation of one name: the name denotes the value, or it blocks the way, or the next name
is evaluated after it. -/
theorem value_step (env : Env) (followed : List Bytes) (use : NameUse) :
    (∃ value, env.Denotes use.name value ∧
        env.value followed use.location use.name = .ok value) ∨
      (∃ cause, env.Blocks followed use cause ∧ env.value followed use.location use.name =
        .error (env.report [use] ⟨cause, use.location⟩)) ∨
      ∃ next, env.Follows use next ∧ use.name ∉ followed ∧
        env.value followed use.location use.name =
          (env.value (use.name :: followed) next.location next.name).mapError (.around use) := by
  cases found : env.lookup use.name with
  | none =>
      have unbound : env.bindsObject use.name = false := by simp [bindsObject, found]
      refine .inr (.inl ⟨_, .undefined found, ?_⟩)
      rw [value_of_lookup_eq_none found, report_single unbound]
  | some definition =>
      have valued := value_of_lookup found followed use.location
      cases takes : definition.parameters with
      | some parameters =>
          have unbound : env.bindsObject use.name = false := by simp [bindsObject, found, takes]
          refine .inr (.inl ⟨_, .takesArguments found (by simp [takes]), ?_⟩)
          rw [valued, report_single unbound, if_pos (by simp [takes])]
      | none =>
          have reported : ∀ reason, env.report [use] reason = .around use reason :=
            report_cons (bindsObject_iff.2 ⟨_, found, takes⟩) []
          rw [if_neg (by simp [takes])] at valued
          cases consists : Macro.alias? definition.body with
          | none =>
              rw [consists, Option.elim_none, Macro.literal] at valued
              cases constant : Macro.constant? definition.body with
              | none =>
                  rw [constant] at valued
                  refine .inr (.inl ⟨_, .notConstant found takes ?_ fun texts whole => ?_, ?_⟩)
                  · rintro ⟨place, target⟩ ⟨twin, foundTwin, _, solid⟩
                    cases found.symm.trans foundTwin
                    cases consists.symm.trans (Macro.alias?_eq_some_iff.2 solid)
                  · cases constant.symm.trans (Macro.constant?_eq_some_iff.2 ⟨texts, whole, rfl⟩)
                  · rw [valued, reported]
                    rfl
              | some text =>
                  rw [constant] at valued
                  obtain ⟨texts, whole, rfl⟩ := Macro.constant?_eq_some_iff.1 constant
                  cases read : Numeral.read? (Bytes.strip texts.flatten) with
                  | none =>
                      simp only [read] at valued
                      refine .inr (.inl ⟨_, .notInteger found takes whole read, ?_⟩)
                      rw [valued, reported]
                      rfl
                  | some value =>
                      simp only [read] at valued
                      exact .inl ⟨value, ⟨definition, texts, found, takes, whole, read⟩, valued⟩
          | some target =>
              have follows : env.Follows use ⟨target.1, target.2⟩ :=
                ⟨definition, found, takes, Macro.alias?_eq_some_iff.1 consists⟩
              rw [consists, Option.elim_some] at valued
              by_cases seen : use.name ∈ followed
              · rw [if_pos seen] at valued
                refine .inr (.inl ⟨_, .cyclic follows seen, ?_⟩)
                rw [valued, reported]
                rfl
              · rw [if_neg seen] at valued
                exact .inr (.inr ⟨_, follows, seen, valued⟩)

/-- The evaluation of a name goes along a trail without repetition, which avoids the names that were
followed before, to a name that denotes the value or blocks the way. -/
theorem exists_trail_of_value (env : Env) (followed : List Bytes) (use : NameUse) :
    ∃ trail last, env.Trail use trail last ∧ (trail.map NameUse.name).Nodup ∧
      (∀ name ∈ trail.map NameUse.name, name ∉ followed) ∧
      ((∃ value, env.Denotes last.name value ∧
          env.value followed use.location use.name = .ok value) ∨
        ∃ cause, env.Blocks (trail.map NameUse.name ++ followed) last cause ∧
          env.value followed use.location use.name =
            .error (env.report (trail ++ [last]) ⟨cause, last.location⟩)) := by
  -- The names that are not followed yet become fewer with each step of the trail.
  induction left : (Bytes.unseen env.names followed).length using Nat.strongRecOn generalizing
    followed use with
  | ind size ih =>
      rcases env.value_step followed use with denotes | blocks | ⟨next, follows, fresh, valued⟩
      · exact ⟨[], use, .here use, List.nodup_nil, by simp, .inl denotes⟩
      · exact ⟨[], use, .here use, List.nodup_nil, by simp, .inr blocks⟩
      · obtain ⟨definition, found, _⟩ := id follows
        have fewer := Bytes.length_unseen_lt (mem_names_of_lookup found) fresh
        obtain ⟨trail, last, goes, distinct, avoids, answer⟩ :=
          ih _ (left ▸ fewer) (use.name :: followed) next rfl
        refine ⟨use :: trail, last, .further follows goes, ?_, ?_, ?_⟩
        · refine List.nodup_cons.2 ⟨fun member => ?_, distinct⟩
          exact avoids _ member List.mem_cons_self
        · refine List.forall_mem_cons.2 ⟨fresh, fun name member again => ?_⟩
          exact avoids name member (List.mem_cons_of_mem _ again)
        · rw [valued]
          refine answer.imp ?_ ?_
          · rintro ⟨value, denotes, same⟩
            exact ⟨value, denotes, by rw [same]; rfl⟩
          · rintro ⟨cause, blocks, same⟩
            refine ⟨cause, blocks.mono fun name member => ?_, ?_⟩
            · simp only [List.map_cons, List.cons_append, List.mem_cons,
                List.mem_append] at member ⊢
              tauto
            · rw [same, List.cons_append, report_cons follows.bindsObject]
              rfl

end Env

/-! ## What is said about a name without a value -/

namespace Bytes

/-- No zero byte occurs, so that the text is shown whole. -/
def Legible (text : Bytes) : Prop :=
  ∀ byte ∈ text, byte ≠ 0

instance (text : Bytes) : Decidable text.Legible :=
  List.decidableBAll (· ≠ 0) text

theorem Legible.append {left right : Bytes} (first : left.Legible) (second : right.Legible) :
    Legible (left ++ right) :=
  List.forall_mem_append.2 ⟨first, second⟩

theorem Legible.shown {text : Bytes} (legible : text.Legible) : shown text = text := by
  refine List.takeWhile_eq_self_iff.2 fun byte member => ?_
  simpa using legible byte member

theorem legible_quote (text : Bytes) : text.quote.Legible := by
  rintro byte member rfl
  exact absurd (printable_quote text 0 member).1 (by decide)

theorem legible_ofNat (number : Nat) : (ofNat number).Legible := by
  rintro byte member rfl
  exact absurd (isDigit_ofNat 0 member) (by decide)

end Bytes

open Bytes in
theorem Location.legible_describe (location : Location) : Legible location.describe := by
  have file : (bytes "File ").Legible := by decide
  have line : (bytes ", line ").Legible := by decide
  have columns : (bytes ", characters ").Legible := by decide
  have dash : (bytes "-").Legible := by decide
  exact ((((((file.append (legible_quote _)).append line).append (legible_ofNat _)).append
    columns).append (legible_ofNat _)).append dash).append (legible_ofNat _)

namespace Error

/-- The whole text about an error: where it is, and what it is. -/
def text (error : Error) : Bytes :=
  error.location.describe ++ Byte.newline :: bytes "Error: " ++ error.message

/-- The text about an error is shown whole if no zero byte occurs in its message. -/
theorem describe_eq_text {error : Error} (legible : error.message.Legible) :
    error.describe = error.text := by
  have start : Bytes.Legible (Byte.newline :: bytes "Error: ") := by decide
  exact ((error.location.legible_describe.append start).append legible).shown

end Error

/-- The whole text about a name without a value, where the reason is put into words. -/
def NameUse.heading (use : NameUse) (reason : Bytes) : Bytes :=
  use.location.describe ++ Byte.newline :: bytes "Error: Identifier " ++ use.name.quote ++
    bytes " does not expand to an int:" ++ Byte.newline :: reason

namespace Error

variable {use : NameUse} {reason : Error}

theorem message_around (use : NameUse) (reason : Error) :
    (around use reason).message = bytes "Identifier " ++ use.name.quote ++
      bytes " does not expand to an int:" ++ Byte.newline :: reason.describe := rfl

theorem text_around (legible : reason.message.Legible) :
    (around use reason).text = use.heading reason.text := by
  have start : bytes "Error: Identifier " = bytes "Error: " ++ bytes "Identifier " := by decide
  rw [text, message_around, describe_eq_text legible, NameUse.heading, start]
  simp only [List.append_assoc, List.cons_append]
  rfl

theorem legible_around (legible : reason.message.Legible) :
    (around use reason).message.Legible := by
  have before : (bytes "Identifier ").Legible := by decide
  have after : (bytes " does not expand to an int:").Legible := by decide
  have newline : Bytes.Legible [Byte.newline] := by decide
  have start : Bytes.Legible (Byte.newline :: bytes "Error: ") := by decide
  have inner : reason.text.Legible :=
    (reason.location.legible_describe.append start).append legible
  rw [message_around, describe_eq_text legible]
  exact ((before.append (Bytes.legible_quote use.name)).append after).append (newline.append inner)

end Error

namespace Env

variable {env : Env}

theorem Blocks.legible {earlier : List Bytes} {last : NameUse} {cause : Cause}
    (blocks : env.Blocks earlier last cause) : cause.message.Legible := by
  have quoted := Bytes.legible_quote last.name
  have start : (bytes "Identifier ").Legible := by decide
  cases blocks with
  | undefined => exact Bytes.Legible.append (by decide) quoted
  | takesArguments => exact quoted.append (by decide)
  | cyclic => exact (start.append quoted).append (by decide)
  | notConstant => exact (start.append quoted).append (by decide)
  | notInteger => exact (start.append quoted).append (by decide)

/-- The text of a report has one heading for each name, around the text of the error found. -/
theorem text_report {innermost : Error} (legible : innermost.message.Legible)
    (names : List NameUse) :
    (env.report names innermost).text =
        (names.filter fun use => env.bindsObject use.name).foldr NameUse.heading innermost.text ∧
      (env.report names innermost).message.Legible := by
  unfold report
  induction names.filter fun use => env.bindsObject use.name with
  | nil => exact ⟨rfl, legible⟩
  | cons use rest ih =>
      refine ⟨?_, Error.legible_around ih.2⟩
      rw [List.foldr_cons, Error.text_around ih.2, ih.1]
      rfl

/-- The error about a name is one of name only if it is about that name itself, and not bound. -/
theorem Trail.kind_report {use last : NameUse} {trail : List NameUse} {earlier : List Bytes}
    {cause : Cause} (goes : env.Trail use trail last) (blocks : env.Blocks earlier last cause)
    (location : Location) :
    (env.report (trail ++ [last]) ⟨cause, location⟩).kind =
      if (env.lookup use.name).isNone then .name else .value := by
  have object : ∀ names reason, env.bindsObject use.name = true →
      (env.report (use :: names) reason).kind =
        if (env.lookup use.name).isNone then .name else .value := by
    intro names reason bound
    obtain ⟨definition, found, _⟩ := bindsObject_iff.1 bound
    rw [report_cons bound, found]
    rfl
  cases goes with
  | further follows _ => exact object _ _ follows.bindsObject
  | here =>
      cases blocks with
      | undefined free =>
          rw [List.nil_append, report_single (by simp [bindsObject, free]), free]
          rfl
      | takesArguments found takes =>
          have unbound : env.bindsObject use.name = false := by
            simpa [bindsObject, found, Option.isSome_iff_ne_none] using takes
          rw [List.nil_append, report_single unbound, found]
          rfl
      | cyclic follows _ => exact object _ _ follows.bindsObject
      | notConstant found plain => exact object _ _ (bindsObject_iff.2 ⟨_, found, plain⟩)
      | notInteger found plain => exact object _ _ (bindsObject_iff.2 ⟨_, found, plain⟩)

end Env

/-! ## Operands -/

namespace Arith

/-- The second expression is the first one, with numbers in place of some names that have them as
values. -/
inductive Replaces (env : Env) : Arith → Arith → Prop where
  | same (tree : Arith) : Replaces env tree tree
  | name {location : Location} {name : Bytes} {value : Int64}
      (valued : (Arith.ident location name).eval env = .ok value) :
      Replaces env (.ident location name) (.int location value)
  | neg {operand other : Arith} (location : Location) (inner : Replaces env operand other) :
      Replaces env (.neg location operand) (.neg location other)
  | complement {operand other : Arith} (location : Location) (inner : Replaces env operand other) :
      Replaces env (.complement location operand) (.complement location other)
  | binary {left right leftOther rightOther : Arith} (location : Location) (operation : Operation)
      (first : Replaces env left leftOther) (second : Replaces env right rightOther) :
      Replaces env (.binary location operation left right)
        (.binary location operation leftOther rightOther)

theorem eval_of_replaces {env : Env} {tree other : Arith} (replaces : Replaces env tree other) :
    other.eval env = tree.eval env := by
  induction replaces with
  | same => rfl
  | name valued => exact valued.symm
  | neg location _ ih => rw [eval, eval, ih]
  | complement location _ ih => rw [eval, eval, ih]
  | binary location operation _ _ first second => rw [eval, eval, first, second]

/-- The value of a name is found by following names, and following them ends.  A name has a value
exactly if no name is come upon twice and the last one denotes the value.  Otherwise there is an
error, of name if the first name itself is not bound and of value if it is.  Then each name is
passed at most once, up to one that blocks the way; that name has been passed already exactly if the
names go round in a circle.  The error is the one found there, within one heading for each name that
is bound to a macro without parameters, the first name outermost, and none of its text is cut off.
And in a larger expression it makes no difference to an operand whether names beside it were
followed or given as numbers. -/
theorem eval_ident_by_trail (env : Env) (use : NameUse) :
    (∀ value, (Arith.ident use.location use.name).eval env = .ok value ↔
      ¬env.Repeats use ∧ ∃ trail last, env.Trail use trail last ∧ env.Denotes last.name value) ∧
    (∀ error, (Arith.ident use.location use.name).eval env = .error error →
      error.kind = (if (env.lookup use.name).isNone then .name else .value) ∧
      ∃ trail last cause, env.Trail use trail last ∧ (trail.map NameUse.name).Nodup ∧
        trail.length ≤ env.size ∧ env.Blocks (trail.map NameUse.name) last cause ∧
        (cause = .cyclicAlias last.name ↔ env.Repeats use) ∧
        error = ((trail ++ [last]).filter fun use => env.bindsObject use.name).foldr Error.around
          ⟨cause, last.location⟩ ∧
        error.describe = error.text ∧
        error.text = ((trail ++ [last]).filter fun use => env.bindsObject use.name).foldr
          NameUse.heading (Error.text ⟨cause, last.location⟩)) ∧
    ∀ tree other, Replaces env tree other → other.eval env = tree.eval env := by
  obtain ⟨trail, last, goes, distinct, _, answer⟩ := env.exists_trail_of_value [] use
  rw [List.append_nil] at answer
  refine ⟨fun value => ⟨fun valued => ?_, ?_⟩, fun error failed => ?_,
    fun tree other => eval_of_replaces⟩
  · rcases answer with ⟨found, denotes, same⟩ | ⟨cause, _, same⟩
    · cases same.symm.trans valued
      have ends : ∀ next, ¬env.Follows last next := fun next => denotes.not_follows
      exact ⟨goes.not_repeats distinct ends, trail, last, goes, denotes⟩
    · cases same.symm.trans valued
  · rintro ⟨straight, longer, final, other, denotes⟩
    have otherEnds : ∀ next, ¬env.Follows final next := fun next => denotes.not_follows
    rcases answer with ⟨found, denotesFound, same⟩ | ⟨cause, blocks, _⟩
    · have ends : ∀ next, ¬env.Follows last next := fun next => denotesFound.not_follows
      cases goes.last_unique other ends otherEnds
      rw [denotes.unique denotesFound]
      exact same
    · rcases blocks.cases with ⟨_, seen⟩ | ⟨_, ends, nothing⟩
      · exact absurd ⟨trail, last, goes, seen⟩ straight
      · cases goes.last_unique other ends otherEnds
        exact absurd denotes (nothing value)
  · rcases answer with ⟨found, _, same⟩ | ⟨cause, blocks, same⟩
    · cases same.symm.trans failed
    · cases same.symm.trans failed
      obtain ⟨whole, legible⟩ := env.text_report
        (show (Error.mk cause last.location).message.Legible from blocks.legible) (trail ++ [last])
      refine ⟨?_, trail, last, cause, goes, distinct, goes.length_le distinct, blocks, ?_, rfl,
        Error.describe_eq_text legible, whole⟩
      · exact goes.kind_report blocks last.location
      · rcases blocks.cases with ⟨rfl, seen⟩ | ⟨other, ends, _⟩
        · exact iff_of_true rfl ⟨trail, last, goes, seen⟩
        · exact iff_of_false (other _) (goes.not_repeats distinct ends)

/-- The first of two names that stand for each other is reported again where it comes round. -/
example :
    (Arith.ident .nowhere (bytes "A")).eval
        ((Env.empty.bind ⟨bytes "A", none, [.ident .nowhere (bytes "B")], .empty, .nowhere⟩).bind
          ⟨bytes "B", none, [.ident .nowhere (bytes "A")], .empty, .nowhere⟩) =
      .error ([bytes "A", bytes "B", bytes "A"].foldr (fun name => .around ⟨.nowhere, name⟩)
        ⟨.cyclicAlias (bytes "A"), .nowhere⟩) := by
  decide +kernel

end Arith

end ScopedMacros
