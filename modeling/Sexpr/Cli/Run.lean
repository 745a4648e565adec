import Sexpr.Arena.Dump
import Sexpr.Cli.Listing
import Sexpr.Cli.Options
import Sexpr.Document.Read
import Sexpr.Document.Write

/-! # What the program does

With the tree option the input is read as a whole, dumped and printed as asked. Otherwise its tokens
are listed. The first error ends the run, is shown behind what was printed before it, and makes the
exit code 1.
-/

namespace Sexpr.Cli

structure Outcome where
  exitCode : Nat
  stdout : Bytes
  stderr : Bytes
deriving DecidableEq

namespace Outcome

def success (stdout : Bytes) : Outcome := ⟨0, stdout, []⟩

def failure (stdout : Bytes) (message : String) : Outcome :=
  ⟨1, stdout, Utf8.encode ("Error: " ++ message ++ "\n")⟩

end Outcome

/-- Source that tree errors name. -/
def Options.source (o : Options) : Source :=
  if o.readsStandardInput then .special "stdin" else .file o.pathBytes

def showTree (a : Arena) (forms : Ref) : Except (Halt String) Bytes :=
  (a.renderForms forms).complete.mapError .fault

/-- Output of the tree mode, or the error that ended it before anything was printed. -/
def tree (o : Options) (contents : Except IoError Bytes) : Except (Halt String) Bytes :=
  let document := (Document.ofContents contents { limit := o.maxNodes }).locate o.source
  match document.forms with
  | .error halt => .error (halt.map LocatedError.message)
  | .ok forms =>
    if o.dump then
      match Arena.dumpForms forms document.arena with
      | .ok dumps a => showTree a dumps
      | .error halt _ => .error (halt.map Exhausted.message)
    else if o.print then showTree document.arena forms
    else .ok []

def listing (o : Options) (input : Bytes) : Outcome :=
  let l := Listing.ofInput ⟨o.print, o.pos⟩ input
  match l.ending with
  | .ok w => .success (Utf8.encode (String.join l.lines ++ w.summary))
  | .error (obstacle, p) =>
    .failure (Utf8.encode (String.join l.lines)) (obstacle.message o.pathBytes p)

/-- Run on an input whose contents were looked up. A fault has no outcome. -/
def run (o : Options) (contents : Except IoError Bytes) : Except Fault Outcome :=
  if o.ast then
    match tree o contents with
    | .ok stdout => .ok (.success stdout)
    | .error (.failure message) => .ok (.failure [] message)
    | .error (.fault fault) => .error fault
  else
    match contents with
    | .ok input => .ok (listing o input)
    | .error error => .ok (.failure [] error.message)

end Sexpr.Cli
