import Sexpr.Parser.Run

/-! # Records of a parse

A parse leaves one trace record for every token it pulled and one closing record, which counts the
nodes that were added or gives the failure.
-/

namespace Sexpr

inductive Level
  | trace
  | debug
deriving DecidableEq

def Level.name : Level → String
  | trace => "TRACE"
  | debug => "DEBUG"

structure Record where
  level : Level
  text : String
deriving DecidableEq

def Token.record (t : Token) : Record :=
  ⟨.trace, "token " ++ t.kind.name ++ " " ++ t.shown⟩

/-- Closing record of a parse that began with a number of nodes; a fault leaves none. -/
def Parsed.closing (p : Parsed) (input : Bytes) (nodesBefore : Nat) : List Record :=
  match p.result with
  | .ok _ =>
    [⟨.debug, "parsed " ++ toString input.length ++ " bytes into "
      ++ toString (p.arena.size - nodesBefore) ++ " nodes"⟩]
  | .error (.failure f) => [⟨.debug, "parse failed: " ++ f.message⟩]
  | .error (.fault _) => []

def Parsed.log (p : Parsed) (input : Bytes) (nodesBefore : Nat) : List Record :=
  p.pulled.map Token.record ++ p.closing input nodesBefore

end Sexpr
