import Mathlib.Logic.Relation
import ScopedMacros.Proofs.Failure
import ScopedMacros.Proofs.PlainScopes
import ScopedMacros.Proofs.Scanned
import ScopedMacros.Proofs.Scoping

/-!
# Files that include each other

The sources of an expansion form a graph, with an edge for every inclusion that stands anywhere in a
source.  The files that are being included at some moment are a path in this graph, and an inclusion
is refused as cyclic exactly if its target is on that path.
-/

namespace ScopedMacros

/-! ## The kinds of errors -/

/-- An error of a name or of a value. -/
def Error.OfValue (error : Error) : Prop :=
  error.kind = .name ∨ error.kind = .value

theorem Env.ofValue_of_value {env : Env} {followed : List Bytes} {location : Location}
    {name : Bytes} {error : Error} (failed : env.value followed location name = .error error) :
    error.OfValue := by
  cases bound : env.lookup name with
  | none =>
      rw [value_of_lookup_eq_none bound] at failed
      cases failed
      exact .inl rfl
  | some definition =>
      rw [value_of_lookup bound] at failed
      split at failed
      · cases failed
        exact .inr rfl
      · generalize Option.elim _ _ _ = inner at failed
        cases inner with
        | ok value => cases failed
        | error reason =>
            cases failed
            exact .inr rfl

theorem Arith.ofValue_of_eval {env : Env} {tree : Arith} {error : Error}
    (failed : tree.eval env = .error error) : error.OfValue := by
  induction tree with
  | int => cases failed
  | ident location name => exact Env.ofValue_of_value failed
  | neg location operand ih | complement location operand ih =>
      rcases bind_eq_error_iff.1 failed with inner | ⟨value, _, failed⟩
      · exact ih inner
      · cases failed
  | binary location operation left right ihLeft ihRight =>
      rcases bind_eq_error_iff.1 failed with inner | ⟨first, _, failed⟩
      · exact ihLeft inner
      rcases bind_eq_error_iff.1 failed with inner | ⟨second, _, failed⟩
      · exact ihRight inner
      split at failed
      · cases failed
      · cases failed
        exact .inr rfl

theorem Test.ofValue_of_eval {env : Env} {test : Test} {error : Error}
    (failed : test.eval env = .error error) : error.OfValue := by
  induction test with
  | literal => cases failed
  | defined => cases failed
  | not location operand ih =>
      rcases bind_eq_error_iff.1 failed with inner | ⟨value, _, failed⟩
      · exact ih inner
      · cases failed
  | both location left right ihLeft ihRight =>
      rcases bind_eq_error_iff.1 failed with inner | ⟨value, _, failed⟩
      · exact ihLeft inner
      cases value with
      | true => exact ihRight failed
      | false => cases failed
  | either location left right ihLeft ihRight =>
      rcases bind_eq_error_iff.1 failed with inner | ⟨value, _, failed⟩
      · exact ihLeft inner
      cases value with
      | true => cases failed
      | false => exact ihRight failed
  | compare location relation left right =>
      rcases bind_eq_error_iff.1 failed with inner | ⟨first, _, failed⟩
      · exact Arith.ofValue_of_eval inner
      rcases bind_eq_error_iff.1 failed with inner | ⟨second, _, failed⟩
      · exact Arith.ofValue_of_eval inner
      · cases failed

namespace Expansion

/-- A node that fails alone for a cycle or for a file is an inclusion, of a file that is being
included or of one that does not exist. -/
theorem inclusion_of_failsAlone {files : FileSet} {context : Context} {node : Node} {env : Env}
    {error : Error} (fails : FailsAlone files context node env error)
    (kind : error.kind = .cycle ∨ error.kind = .file) :
    ∃ location path, node = .inclusion location path ∧
      (path ∈ context.ancestry ∧ error = ⟨.cyclicInclusion path, location⟩ ∨
        files.contents? path = none ∧ error = ⟨.missingFile path, location⟩) := by
  cases fails_of_failsAlone fails with
  | cyclic known => exact ⟨_, _, rfl, .inl ⟨known, rfl⟩⟩
  | missing none => exact ⟨_, _, rfl, .inr ⟨none, rfl⟩⟩
  | unreadable _ read =>
      rw [Node.form_of_ofSource read] at kind
      rcases kind with kind | kind <;> cases kind
  | test value =>
      rcases Test.ofValue_of_eval value with same | same <;> rw [same] at kind <;>
        rcases kind with kind | kind <;> cases kind
  | notApplied | takesNoArguments | wrongArity | alreadyDefined | user =>
      rcases kind with kind | kind <;> cases kind

/-! ## The chain of inclusions -/

variable {files : FileSet} {context inner : Context} {node : Node} {env middle here : Env}
  {said : List Event} {entered : List Node}

theorem ancestry_of_enters (enters : Enters files context node env said inner entered middle) :
    inner.ancestry = opened node ++ context.ancestry := by
  cases enters <;> rfl

theorem nodup_of_enters (enters : Enters files context node env said inner entered middle)
    (distinct : context.ancestry.Nodup) : inner.ancestry.Nodup := by
  cases enters with
  | file new _ _ => exact List.nodup_cons.2 ⟨new, distinct⟩
  | use | call | argument | branch | sequence => exact distinct

/-- The files that are open at a visited node are those of the chain, on top of those that were open
at the start, and no file is open twice. -/
theorem ancestry_of_visits {nodes : List Node} {chain : List Bytes}
    (visited : Visits files context nodes env chain inner node here)
    (distinct : context.ancestry.Nodup) :
    inner.ancestry = chain ++ context.ancestry ∧ inner.ancestry.Nodup := by
  induction visited with
  | here => exact ⟨rfl, distinct⟩
  | inside _ enters _ _ ih =>
      obtain ⟨open_, once⟩ := ih
      refine ⟨?_, nodup_of_enters enters once⟩
      rw [ancestry_of_enters enters, open_, List.append_assoc]

end Expansion

/-! ## The graph of inclusions -/

namespace Node

/-- Somewhere among the nodes the file is included. -/
def Includes (nodes : List Node) (path : Bytes) : Prop :=
  ∃ location, ∃ node ∈ nodes, (Node.inclusion location path).Within node

theorem Plain.not_within {node : Node} {location : Location} {path : Bytes} (plain : node.Plain)
    (within : (Node.inclusion location path).Within node) : False := by
  induction within with
  | self => cases plain
  | argument _ _ member among _ ih =>
      cases plain with
      | call _ _ _ each => exact ih (each _ member _ among)
  | body => cases plain
  | yes => cases plain
  | no => cases plain
  | sequence => cases plain

theorem not_includes_of_plain {nodes : List Node} {path : Bytes}
    (plain : ∀ node ∈ nodes, node.Plain) : ¬ Includes nodes path := by
  rintro ⟨location, node, member, within⟩
  exact (plain node member).not_within within

end Node

namespace Expansion

/-- A source includes a file somewhere.  The given name stands for the given nodes, and any other
name for the file of that name. -/
def Edge (files : FileSet) (name : Bytes) (nodes : List Node) (source path : Bytes) : Prop :=
  if source = name then Node.Includes nodes path
  else ∃ text inner, files.contents? source = some text ∧ Node.ofSource source text = .ok inner ∧
    Node.Includes inner path

/-- Where nodes stand in the graph: the source that is being expanded includes what they do, all open
files lead to it, and the outermost source leads to all of them. -/
structure Placed (files : FileSet) (name : Bytes) (nodes : List Node) (current : Bytes)
    (context : Context) (part : List Node) (env : Env) : Prop where
  plain : env.Plain
  form : ∀ node ∈ part, node.FromSource
  outermost : name ∈ context.ancestry
  innermost : current ∈ context.ancestry
  included : ∀ path, Node.Includes part path → Edge files name nodes current path
  active : ∀ other ∈ context.ancestry, Relation.ReflTransGen (Edge files name nodes) other current
  reached : ∀ other ∈ context.ancestry, Relation.ReflTransGen (Edge files name nodes) name other

section

variable {files : FileSet} {name current : Bytes} {nodes part entered : List Node}
  {context inner : Context} {node : Node} {env middle here : Env} {said : List Event}

/-- The nodes of the outermost source. -/
theorem placed_start (form : ∀ node ∈ nodes, node.FromSource) (plain : env.Plain) :
    Placed files name nodes name ⟨[name], none⟩ nodes env := by
  have refl : ∀ other ∈ [name], other = name := fun other member => List.mem_singleton.1 member
  constructor
  case plain => exact plain
  case form => exact form
  case outermost => exact List.mem_singleton_self name
  case innermost => exact List.mem_singleton_self name
  case included =>
    intro path includes
    rw [Edge, if_pos rfl]
    exact includes
  case active =>
    intro other member
    rw [refl other member]
  case reached =>
    intro other member
    rw [refl other member]

/-- A node of a list, after those before it. -/
theorem Placed.split {earlier later : List Node}
    (placed : Placed files name nodes current context (earlier ++ node :: later) env)
    (ran : run files context earlier env = ⟨said, .ok middle⟩) :
    Placed files name nodes current context [node] middle := by
  have earlierForm : ∀ other ∈ earlier, other.FromSource :=
    fun other member => placed.form other (List.mem_append_left _ member)
  have among : node ∈ earlier ++ node :: later := by simp
  constructor
  case plain => exact plain_of_run earlierForm placed.plain ran
  case form =>
    intro other member
    rw [List.mem_singleton.1 member]
    exact placed.form node among
  case outermost => exact placed.outermost
  case innermost => exact placed.innermost
  case included =>
    rintro path ⟨location, other, member, within⟩
    rw [List.mem_singleton.1 member] at within
    exact placed.included path ⟨location, node, among, within⟩
  case active => exact placed.active
  case reached => exact placed.reached

/-- What a node enters includes nothing that the node does not, unless it is a file. -/
theorem includes_of_enters (plain : env.Plain) (form : node.FromSource)
    (enters : Enters files context node env said inner entered middle) (stays : opened node = [])
    {path : Bytes} (includes : Node.Includes entered path) : Node.Includes [node] path := by
  cases enters with
  | use bound _ => exact absurd includes (Node.not_includes_of_plain (plain.lookup bound).body)
  | call bound _ _ => exact absurd includes (Node.not_includes_of_plain (plain.lookup bound).body)
  | argument _ _ =>
      cases form with
      | plain callPlain =>
          cases callPlain with
          | call _ _ _ givenPlain =>
              exact absurd includes (Node.not_includes_of_plain (givenPlain _ (by simp)))
  | @branch _ _ _ _ _ holds _ =>
      obtain ⟨location, other, member, within⟩ := includes
      refine ⟨location, _, List.mem_singleton_self _, ?_⟩
      cases holds with
      | true => exact .yes _ _ _ member within
      | false => exact .no _ _ _ member within
  | file _ _ _ => cases stays
  | sequence =>
      obtain ⟨location, other, member, within⟩ := includes
      exact ⟨location, _, List.mem_singleton_self _, .sequence _ member within⟩

/-- An included file is where its inclusion leads to. -/
theorem Placed.file {location : Location} {path text : Bytes}
    (placed : Placed files name nodes current context [.inclusion location path] env)
    (new : path ∉ context.ancestry) (found : files.contents? path = some text)
    (read : Node.ofSource path text = .ok entered) :
    Placed files name nodes path (context.forFile path) entered env := by
  have leads : Edge files name nodes current path :=
    placed.included path ⟨location, _, List.mem_singleton_self _, .self⟩
  have different : path ≠ name := by
    rintro rfl
    exact new placed.outermost
  constructor
  case plain => exact placed.plain
  case form => exact Node.fromSource_of_ofSource read
  case outermost => exact List.mem_cons_of_mem _ placed.outermost
  case innermost => exact List.mem_cons_self
  case included =>
    intro other includes
    rw [Edge, if_neg different]
    exact ⟨text, entered, found, read, includes⟩
  case active =>
    intro other among
    rcases List.mem_cons.1 among with rfl | among
    · exact .refl
    · exact (placed.active other among).tail leads
  case reached =>
    intro other among
    rcases List.mem_cons.1 among with rfl | among
    · exact (placed.reached current placed.innermost).tail leads
    · exact placed.reached other among

theorem Placed.enters (placed : Placed files name nodes current context [node] env)
    (enters : Enters files context node env said inner entered middle) :
    ∃ next, Placed files name nodes next inner entered middle := by
  have form := placed.form node (List.mem_singleton_self node)
  obtain ⟨enteredForm, plain⟩ := plain_of_enters form placed.plain enters
  by_cases stays : opened node = []
  · have same : inner.ancestry = context.ancestry := by
      rw [ancestry_of_enters enters, stays, List.nil_append]
    refine ⟨current, plain, enteredForm, ?_, ?_, fun path includes => ?_, ?_, ?_⟩
    · exact same ▸ placed.outermost
    · exact same ▸ placed.innermost
    · exact placed.included path (includes_of_enters placed.plain form enters stays includes)
    · exact same ▸ placed.active
    · exact same ▸ placed.reached
  · cases enters with
    | file new found read => exact ⟨_, placed.file new found read⟩
    | use | call | argument | branch | sequence => exact absurd rfl stays

/-- Every visited node stands in the graph. -/
theorem placed_of_visits {chain : List Bytes}
    (placed : Placed files name nodes current context part env)
    (visited : Visits files context part env chain inner node here) :
    ∃ next, Placed files name nodes next inner [node] here := by
  induction visited with
  | here split ran =>
      subst split
      exact ⟨current, placed.split ran⟩
  | inside _ enters split ran ih =>
      obtain ⟨outer, node⟩ := ih
      obtain ⟨next, list⟩ := node.enters enters
      subst split
      exact ⟨next, list.split ran⟩

/-- If no cycle can be reached from the outermost source and all files exist that can be, then no
visited node fails for a cycle or for a file. -/
theorem kind_of_visits {chain : List Bytes} {error : Error}
    (acyclic : ∀ source, Relation.ReflTransGen (Edge files name nodes) name source →
      ¬ Relation.TransGen (Edge files name nodes) source source)
    (present : ∀ path, Relation.TransGen (Edge files name nodes) name path →
      files.contents? path ≠ none)
    (placed : Placed files name nodes current context part env)
    (visited : Visits files context part env chain inner node here)
    (alone : FailsAlone files inner node here error) : error.kind ≠ .cycle ∧ error.kind ≠ .file := by
  obtain ⟨source, placed⟩ := placed_of_visits placed visited
  have impossible : ¬ (error.kind = .cycle ∨ error.kind = .file) := by
    intro kind
    obtain ⟨location, path, rfl, reason⟩ := inclusion_of_failsAlone alone kind
    have leads : Edge files name nodes source path :=
      placed.included path ⟨location, _, List.mem_singleton_self _, .self⟩
    rcases reason with ⟨known, -⟩ | ⟨missing, -⟩
    · exact acyclic path (placed.reached path known)
        (Relation.TransGen.tail' (placed.active path known) leads)
    · exact present path
        (Relation.TransGen.tail' (placed.reached source placed.innermost) leads) missing
  exact ⟨fun kind => impossible (.inl kind), fun kind => impossible (.inr kind)⟩

end

/-- A visited inclusion of a file that is open fails alone, as cyclic. -/
theorem failsAlone_of_mem_ancestry {files : FileSet} {context : Context} {path : Bytes}
    (known : path ∈ context.ancestry) (location : Location) (env : Env) :
    FailsAlone files context (.inclusion location path) env ⟨.cyclicInclusion path, location⟩ := by
  refine ⟨[], fun expand => ?_⟩
  simp only [ofNode, includeFile, known, if_true]
  rfl

/-- Cycles are detected exactly.  If the sources that can be reached from a source by inclusions form
no cycle and all exist, then its expansion never fails for a cycle or for a file.  In any expansion, an
error for a cycle is one for a visited inclusion whose target is the outermost source or one of the
files that are being included, and every such inclusion is an error.  These files together with the
outermost source are the open ones, all different. -/
theorem expand_detects_cycles (files : FileSet) (name : Bytes) (nodes : List Node) (env : Env) :
    (∀ file text, Node.ofSource file text = .ok nodes → env.Plain →
      (∀ source, Relation.ReflTransGen (Edge files name nodes) name source →
        ¬ Relation.TransGen (Edge files name nodes) source source) →
      (∀ path, Relation.TransGen (Edge files name nodes) name path →
        files.contents? path ≠ none) →
      ∀ error, (expand files name nodes env).result = .error error →
        error.kind ≠ .cycle ∧ error.kind ≠ .file) ∧
    (∀ error, (expand files name nodes env).result = .error error ∧ error.kind = .cycle ↔
      ∃ path location chain context here, error = ⟨.cyclicInclusion path, location⟩ ∧
        Visits files ⟨[name], none⟩ nodes env chain context (.inclusion location path) here ∧
        (path = name ∨ path ∈ chain)) ∧
    ∀ chain context node here, Visits files ⟨[name], none⟩ nodes env chain context node here →
      context.ancestry = chain ++ [name] ∧ (chain ++ [name]).Nodup := by
  have isOpen : ∀ {chain context node here},
      Visits files ⟨[name], none⟩ nodes env chain context node here →
      context.ancestry = chain ++ [name] ∧ (chain ++ [name]).Nodup := by
    intro chain context node here visited
    obtain ⟨same, distinct⟩ := ancestry_of_visits visited (by simp)
    exact ⟨same, same ▸ distinct⟩
  refine ⟨?_, ?_, fun chain context node here visited => isOpen visited⟩
  · intro file text read plain acyclic present error failed
    obtain ⟨chain, context, node, here, visited, alone⟩ := run_result_eq_error_iff.1 failed
    exact kind_of_visits acyclic present (placed_start (Node.fromSource_of_ofSource read) plain)
      visited alone
  · intro error
    constructor
    · rintro ⟨failed, kind⟩
      obtain ⟨chain, context, node, here, visited, alone⟩ := run_result_eq_error_iff.1 failed
      obtain ⟨location, path, rfl, ⟨known, rfl⟩ | ⟨missing, rfl⟩⟩ :=
        inclusion_of_failsAlone alone (.inl kind)
      · rw [(isOpen visited).1, List.mem_append, List.mem_singleton] at known
        exact ⟨path, location, chain, context, here, rfl, visited, known.symm⟩
      · cases kind
    · rintro ⟨path, location, chain, context, here, rfl, visited, known⟩
      have among : path ∈ context.ancestry := by
        rw [(isOpen visited).1, List.mem_append, List.mem_singleton]
        exact known.symm
      exact ⟨run_result_eq_error_iff.2
        ⟨_, _, _, _, visited, failsAlone_of_mem_ancestry among location here⟩, rfl⟩

/-! ## A file included in several ways -/

/-- A node that is text, or the inclusion of one of the files. -/
def includesOnly (allowed : List Bytes) : Node → Bool
  | .inclusion _ path => allowed.contains path
  | .text _ _ | .space _ _ => true
  | _ => false

theorem mem_of_includesOnly {allowed : List Bytes} {nodes : List Node} {path : Bytes}
    (only : nodes.all (includesOnly allowed) = true) (includes : Node.Includes nodes path) :
    path ∈ allowed := by
  obtain ⟨location, node, member, within⟩ := includes
  have this := List.all_eq_true.1 only node member
  cases within with
  | self => exact List.contains_iff_mem.1 this
  | argument => cases this
  | body => cases this
  | yes => cases this
  | no => cases this
  | sequence => cases this

/-- Two files that both include a third one, one of them twice. -/
def diamondFiles : FileSet :=
  ⟨[(bytes "a", bytes "#include \"c\"\n#include \"c\"\n"), (bytes "b", bytes "#include \"c\"\n"),
    (bytes "c", bytes "1\n")]⟩

def diamondTop : Bytes :=
  bytes "#include \"a\"\n#include \"b\"\n"

/-- How far a source of the diamond is from the outermost one. -/
def diamondRank (path : Bytes) : Nat :=
  if path = bytes "t" then 0 else if path = bytes "c" then 2 else 1

theorem rank_lt_of_edge {nodes : List Node} (read : Node.ofSource (bytes "t") diamondTop = .ok nodes)
    {source path : Bytes} (edge : Edge diamondFiles (bytes "t") nodes source path) :
    diamondRank source < diamondRank path ∧ diamondFiles.contents? path ≠ none := by
  have targets : ∀ file text allowed nodes, Node.ofSource file text = .ok nodes →
      (Node.ofSource file text).toOption.all (·.all (includesOnly allowed)) = true →
      ∀ path, Node.Includes nodes path → path ∈ allowed := by
    intro file text allowed nodes read only path
    rw [read] at only
    exact mem_of_includesOnly only
  unfold Edge at edge
  split at edge
  · next same =>
      have member := targets _ _ [bytes "a", bytes "b"] _ read (by decide +kernel) path edge
      simp only [List.mem_cons, List.not_mem_nil, or_false] at member
      rcases member with rfl | rfl <;> subst same <;> decide +kernel
  · obtain ⟨text, inner, found, read, includes⟩ := edge
    simp only [diamondFiles, FileSet.contents?, List.lookup_cons, List.lookup_nil] at found
    split at found
    · next same =>
        cases found
        obtain rfl := eq_of_beq same
        have member := targets _ _ [bytes "c"] _ read (by decide +kernel) path includes
        rw [List.mem_singleton.1 member]
        decide +kernel
    split at found
    · next same =>
        cases found
        obtain rfl := eq_of_beq same
        have member := targets _ _ [bytes "c"] _ read (by decide +kernel) path includes
        rw [List.mem_singleton.1 member]
        decide +kernel
    split at found
    · next same =>
        cases found
        obtain rfl := eq_of_beq same
        exact absurd (targets _ _ [] _ read (by decide +kernel) path includes) (by simp)
    · cases found

theorem expand_diamond_detects_no_cycle :
    ∃ nodes, Node.ofSource (bytes "t") diamondTop = .ok nodes ∧
      ∀ error, (expand diamondFiles (bytes "t") nodes .empty).result = .error error →
        error.kind ≠ .cycle ∧ error.kind ≠ .file := by
  obtain ⟨nodes, read⟩ : ∃ nodes, Node.ofSource (bytes "t") diamondTop = .ok nodes :=
    exists_eq_ok_of_isOk (by decide +kernel)
  have acyclic : ∀ source,
      ¬ Relation.TransGen (Edge diamondFiles (bytes "t") nodes) source source := by
    intro source cycle
    have less : ∀ {path}, Relation.TransGen (Edge diamondFiles (bytes "t") nodes) source path →
        diamondRank source < diamondRank path := by
      intro path leads
      induction leads with
      | single edge => exact (rank_lt_of_edge read edge).1
      | tail _ edge ih => exact Nat.lt_trans ih (rank_lt_of_edge read edge).1
    exact Nat.lt_irrefl _ (less cycle)
  have present : ∀ path, Relation.TransGen (Edge diamondFiles (bytes "t") nodes) (bytes "t") path →
      diamondFiles.contents? path ≠ none := by
    intro path leads
    cases leads with
    | single edge => exact (rank_lt_of_edge read edge).2
    | tail _ edge => exact (rank_lt_of_edge read edge).2
  exact ⟨nodes, read, (expand_detects_cycles diamondFiles (bytes "t") nodes .empty).1 _ _ read .empty
    (fun source _ => acyclic source) present⟩

end Expansion

end ScopedMacros
