import Sexpr.Parser.Stack
import Sexpr.Token.Cursor

/-! # Reading a text into an arena

The tokens of a text are pulled one by one until the text ends or a token is refused. No token is
looked at ahead of time. Nodes allocated before a failure stay in the arena.
-/

namespace Sexpr

namespace Parser

/-- End of a run: what it came to, the arena it left, and the tokens it pulled, in order. -/
structure Run where
  result : Except (Halt Blame) Ref
  arena : Arena
  pulled : List Token

def run (maxDepth : Nat) (eof : Token) : List Token → Stack → Arena → Run
  | [], s, a => ⟨s.finish eof, a, [eof]⟩
  | t :: tokens, s, a =>
    match s.step maxDepth t a with
    | .ok s a =>
      let later := run maxDepth eof tokens s a
      { later with pulled := t :: later.pulled }
    | .error halt a => ⟨.error halt, a, [t]⟩

end Parser

structure Parsed where
  result : Except (Halt ParseFailure) Ref
  arena : Arena
  pulled : List Token

/-- Levels of lists and quotes that are read where nothing else is asked for. -/
def defaultDepth : Nat := 500

/-- Read all of a text into a list of its top-level forms. -/
def parse (input : Bytes) (a : Arena) (maxDepth : Nat := defaultDepth) : Parsed :=
  let r := Parser.run maxDepth (Token.eof input) (Token.all input) {} a
  { result := r.result.mapError (Halt.map (Blame.locate input)), arena := r.arena
    pulled := r.pulled }

end Sexpr
