import ScopedMacros.Expr.Basic

/-!
# Nodes

The pieces of a source: text, uses of macros, and directives with what they govern.
-/

namespace ScopedMacros

inductive Node where
  /-- An identifier that is not applied. -/
  | ident (location : Location) (name : Bytes)
  /-- An identifier with arguments. -/
  | call (location : Location) (name : Bytes) (arguments : List (List Node))
  /-- The definition of a macro, which takes arguments if it has a list of parameters. -/
  | define (location : Location) (name : Bytes) (parameters : Option (List Bytes))
      (body : List Node)
  | undef (location : Location) (name : Bytes)
  | inclusion (location : Location) (path : Bytes)
  | cond (location : Location) (test : Test) (yes no : List Node)
  | error (location : Location) (message : Bytes)
  | warning (location : Location) (message : Bytes)
  | space (location : Location) (text : Bytes)
  | text (location : Location) (text : Bytes)
  | seq (location : Location) (nodes : List Node)
  /-- A line directive: what follows is the given line, of the given file if there is one. -/
  | line (location : Location) (file : Option Bytes) (number : Int64)
  | currentLine (location : Location)
  | currentFile (location : Location)

namespace Node

def location : Node → Location
  | .ident location _ | .call location _ _ | .define location _ _ _ | .undef location _
  | .inclusion location _ | .cond location _ _ _ | .error location _ | .warning location _
  | .space location _ | .text location _ | .seq location _ | .line location _ _
  | .currentLine location | .currentFile location => location

/-- The name of the form of a node in a listing of a tree. -/
def label : Node → Bytes
  | .ident _ _ | .call _ _ _ => bytes "Ident"
  | .define _ _ none _ => bytes "Def"
  | .define _ _ (some _) _ => bytes "Defun"
  | .undef _ _ => bytes "Undef"
  | .inclusion _ _ => bytes "Include"
  | .cond _ _ _ _ => bytes "Cond"
  | .error _ _ => bytes "Error"
  | .warning _ _ => bytes "Warning"
  | .space _ _ | .text _ _ => bytes "Text"
  | .seq _ _ => bytes "Seq"
  | .line _ _ _ => bytes "Line"
  | .currentLine _ => bytes "CurrentLine"
  | .currentFile _ => bytes "CurrentFile"

/-- All names of forms. -/
def labels : List Bytes :=
  ["Ident", "Def", "Defun", "Undef", "Include", "Cond", "Error", "Warning", "Text", "Seq", "Line",
    "CurrentLine", "CurrentFile"].map bytes

def isSpace : Node → Bool
  | .space _ _ => true
  | _ => false

/-- The nodes without the space at the two ends. -/
def trim (nodes : List Node) : List Node :=
  ((nodes.dropWhile isSpace).reverse.dropWhile isSpace).reverse

end Node

end ScopedMacros
