import Sexpr.Utf8

/-! # Command-line options

Options may stand before and behind the path of the input, short ones may share a hyphen, and the
value of a long one may follow an equals sign. Behind a double hyphen stands nothing but the path.
-/

namespace Sexpr.Cli

structure Options where
  /-- Read the input into a tree instead of listing its tokens. -/
  ast : Bool := false
  print : Bool := false
  /-- Print a structure dump of every form. -/
  dump : Bool := false
  /-- Show where each listed token stands. -/
  pos : Bool := false
  maxNodes : Option Nat := none
  /-- Path of the input, or a hyphen for the standard input. -/
  path : Option String := none
deriving DecidableEq

namespace Options

def short (o : Options) : List Char → Option Options
  | [] => some o
  | 'a' :: cs => short { o with ast := true } cs
  | 'd' :: cs => short { o with dump := true } cs
  | _ => none

def count? (text : String) : Option Nat :=
  let digits := match text.toList with
    | '+' :: cs => cs
    | cs => cs
  if digits.isEmpty || !digits.all (·.isDigit) then none
  else
    let n := digits.foldl (fun n c => n * 10 + (c.toNat - 0x30)) 0
    if n < 18446744073709551616 then some n else none

def limit (o : Options) (text : String) : Option Options :=
  (count? text).map fun n => { o with maxNodes := some n }

def positional (o : Options) (text : String) : Option Options :=
  if o.path.isNone then some { o with path := some text } else none

def ofArguments (o : Options) : List String → Option Options
  | [] => if o.path.isSome then some o else none
  | "--" :: paths =>
    (paths.foldlM positional o).bind fun o => if o.path.isSome then some o else none
  | "--ast" :: args => ofArguments { o with ast := true } args
  | "--print" :: args => ofArguments { o with print := true } args
  | "--dump" :: args => ofArguments { o with dump := true } args
  | "--pos" :: args => ofArguments { o with pos := true } args
  | "--max-nodes" :: text :: args => (o.limit text).bind (ofArguments · args)
  | arg :: args =>
    match arg.toList with
    | '-' :: '-' :: _ =>
      match arg.dropPrefix? "--max-nodes=" with
      | some text => (o.limit text.copy).bind (ofArguments · args)
      | none => none
    | '-' :: c :: cs => (o.short (c :: cs)).bind (ofArguments · args)
    | _ => (o.positional arg).bind (ofArguments · args)

def pathBytes (o : Options) : Bytes := Utf8.encode (o.path.getD "")

def readsStandardInput (o : Options) : Bool := o.path == some "-"

end Options

end Sexpr.Cli
