import Sexpr.Parser.Run
import Sexpr.Source
import Sexpr.Stream.Delivery

/-! # Reading documents

A document is read as a whole before any of it is parsed, so an error of its stream leaves the arena
as it was. Errors tell the source of the document if it is known.
-/

namespace Sexpr

inductive ReadError
  | parse (failure : ParseFailure)
  | io (error : IoError)
deriving DecidableEq

def ReadError.message : ReadError → String
  | parse failure => failure.message
  | io error => error.message

structure LocatedError where
  error : ReadError
  source : Source
deriving DecidableEq

def LocatedError.message (e : LocatedError) : String :=
  match e.error with
  | .parse failure => failure.messageIn e.source
  | .io error => e.source.text ++ ": " ++ error.message

/-- Outcome of reading a document, with errors of a kind. -/
structure Document (ε : Type) where
  forms : Except (Halt ε) Ref
  arena : Arena

namespace Document

/-- Parse the contents of a document, if it has any to parse. -/
def ofContents (contents : Except IoError Bytes) (a : Arena) : Document ReadError :=
  match contents with
  | .ok input =>
    let parsed := parse input a
    ⟨parsed.result.mapError (Halt.map ReadError.parse), parsed.arena⟩
  | .error error => ⟨.error (.failure (.io error)), a⟩

def locate (source : Source) (d : Document ReadError) : Document LocatedError :=
  ⟨d.forms.mapError (Halt.map (⟨·, source⟩)), d.arena⟩

def readAll (deliveries : List Delivery) (a : Arena) : Document ReadError :=
  ofContents (Delivery.gather deliveries) a

def readFrom (source : Source) (deliveries : List Delivery) (a : Arena) : Document LocatedError :=
  (readAll deliveries a).locate source

def ofFile (path : Bytes) (contents : Except IoError Bytes) (a : Arena) :
    Document LocatedError :=
  (ofContents contents a).locate (.file path)

end Document

end Sexpr
