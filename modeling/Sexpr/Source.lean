import Sexpr.Parser.Failure
import Sexpr.Text.Quoted

/-! # Where a text comes from

A source is a file, shown by its quoted name, or something without a path, shown by a name in
parentheses.
-/

namespace Sexpr

inductive Source
  | file (path : Bytes)
  | special (name : String)
deriving DecidableEq

namespace Source

/-- Name to be put in front of a colon and a reason. -/
def text : Source → String
  | file path => Text.quoted path
  | special name => "(" ++ name ++ ")"

/-- Place to be put behind a reason. -/
def place (s : Source) (p : Position) : String :=
  match s with
  | file _ => "in " ++ s.text ++ p.text
  | special _ => "from " ++ s.text ++ p.text

end Source

def ParseFailure.messageIn (f : ParseFailure) (s : Source) : String :=
  f.heading ++ s.place f.position

end Sexpr
