import Sexpr.Arena.Items
import Sexpr.Decimal
import Sexpr.Escape
import Sexpr.Parser.Failure

/-! # The stack of open lists and quotes

A text is the list of its top-level forms. Forms are built token by token on a stack with a frame
for every list that is not closed yet and every quote whose form is still to come. A finished form
is appended to the innermost open list. A quoted form first becomes the list `(quote form)`. Tokens
are blamed for what is allocated on their account: an atom for itself and its cell, an opening
parenthesis for the cell of its list, a quote for all that surrounds its form.
-/

namespace Sexpr

/-- What a token contributes to a form. -/
inductive Role
  | atom (node : Node)
  | opening
  | closing
  | quoting

inductive Frame
  | list (opening : Token) (items : OpenList)
  | quote (mark : Token)
deriving DecidableEq

structure Stack where
  frames : List Frame := []
  forms : OpenList := {}
deriving DecidableEq

/-- A parsing computation, which halts with a token to blame. -/
abbrev Parse := EStateM (Halt Blame) Arena

namespace Token

def refuse {α : Type} (t : Token) (cause : Cause) : Except (Halt Blame) α :=
  .error (.failure ⟨cause, t⟩)

/-- Role of a token. Atoms are converted here: integers have to fit, and strings lose their
quotation marks and escapes. -/
def role (t : Token) : Except (Halt Blame) Role :=
  match t.kind with
  | .endOfInput => t.refuse .endOfInput
  | .invalid => t.refuse .invalidToken
  | .leftParen => .ok .opening
  | .rightParen => .ok .closing
  | .quote => .ok .quoting
  | .integer =>
    match Decimal.read? t.text with
    | some value => .ok (.atom (.integer value))
    | none => t.refuse .numericOverflow
  | .string =>
    if t.text.length < 2 then .error (.fault (.shortLiteral t.text))
    else .ok (.atom (.string (Escape.decode t.text.tail.dropLast)))
  | .symbol =>
    match Utf8.decode? t.text with
    | some name => .ok (.atom (.symbol name))
    | none => t.refuse .invalidToken

/-- Blame a token if the arena has no room. -/
def charge {α : Type} (t : Token) (build : Build α) : Parse α :=
  build.adaptExcept (·.map fun _ => ⟨.outOfMemory, t⟩)

end Token

namespace Stack

/-- Put a finished form, which began with token `t`, where it belongs. -/
def place (v : Ref) (t : Token) : List Frame → OpenList → Parse Stack
  | [], forms => do
    let forms ← t.charge (forms.append v)
    return ⟨[], forms⟩
  | .list opening items :: frames, forms => do
    let items ← t.charge (items.append v)
    return ⟨.list opening items :: frames, forms⟩
  | .quote mark :: frames, forms => do
    let quote ← mark.charge (Arena.symbol "quote")
    let v ← mark.charge (Arena.couple quote v)
    place v mark frames forms

/-- Open a frame, unless as many are open as are allowed. -/
def descend (maxDepth : Nat) (s : Stack) (t : Token) (frame : Frame) : Parse Stack :=
  if s.frames.length < maxDepth then return { s with frames := frame :: s.frames }
  else throw (.failure ⟨.nestingTooDeep, t⟩)

def step (maxDepth : Nat) (s : Stack) (t : Token) : Parse Stack :=
  match t.role with
  | .error halt => throw halt
  | .ok (.atom node) => do place (← t.charge (Arena.alloc node)) t s.frames s.forms
  | .ok .opening => s.descend maxDepth t (.list t {})
  | .ok .quoting => s.descend maxDepth t (.quote t)
  | .ok .closing =>
    match s.frames with
    | .list opening items :: frames => place items.head opening frames s.forms
    | _ => throw (.failure ⟨.unexpectedToken, t⟩)

/-- The list of all forms, once no frame is open at the end of input. -/
def finish (s : Stack) (eof : Token) : Except (Halt Blame) Ref :=
  if s.frames.isEmpty then .ok s.forms.head else eof.refuse .endOfInput

end Stack

end Sexpr
