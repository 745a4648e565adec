import Sexpr.Position
import Sexpr.Text.Quoted
import Sexpr.Token.Cursor

/-! # Token listings

A listing walks the tokens of a text, counts its forms and lists, and shows each token on a line of
its own, indented by the number of lists around it. A closing parenthesis stands under its opening
one. The walk ends early at a token that cannot be listed.
-/

namespace Sexpr

structure Listing.Style where
  print : Bool := false
  positions : Bool := false
deriving DecidableEq

/-- State of the walk in front of a token. -/
structure Listing.Walk where
  /-- Text from the last token on. -/
  ahead : Bytes
  offset : Nat := 0
  position : Position := {}
  depth : Nat := 0
  toplevel : Int32 := 0
  entered : Int32 := 0
deriving DecidableEq

inductive Listing.Obstacle
  | unexpectedClosing
  | invalid (shown : String)
  | tooDeep
deriving DecidableEq

/-- Lines shown, and the end of the walk or the obstacle and where it stands. -/
structure Listing where
  lines : List String
  ending : Except (Listing.Obstacle × Position) Listing.Walk

namespace Listing

/-- Deepest indentation that can be shown. -/
def widest : Nat := 66

def Obstacle.message (o : Obstacle) (path : Bytes) (p : Position) : String :=
  let reason := match o with
    | unexpectedClosing => "unexpected closing character ')'"
    | invalid shown => "invalid token '" ++ shown ++ "'"
    | tooDeep => "lists nested too deeply"
  reason ++ " at " ++ Text.quoted path ++ p.text

def Walk.approach (w : Walk) (t : Token) : Walk :=
  { w with
    ahead := w.ahead.drop (t.offset - w.offset)
    offset := t.offset
    position := w.position.advance (w.ahead.take (t.offset - w.offset)) }

/-- Count a form that begins here, if no list is open around it. -/
def Walk.count (w : Walk) : Walk :=
  if w.depth == 0 then { w with toplevel := w.toplevel + 1 } else w

/-- Indentation of a token, and the walk behind it. A quote is not counted, its form is. -/
def Walk.enter (w : Walk) (t : Token) : Except Obstacle (Nat × Walk) :=
  match t.kind with
  | .leftParen => .ok (w.depth, { w.count with entered := w.entered + 1, depth := w.depth + 1 })
  | .rightParen =>
    if w.depth == 0 then .error .unexpectedClosing
    else .ok (w.depth - 1, { w with depth := w.depth - 1 })
  | .quote => .ok (w.depth, w)
  | .invalid => .error (.invalid t.shown)
  | _ => .ok (w.depth, w.count)

def Style.line (style : Style) (indentation : Nat) (p : Position) (t : Token) : String :=
  String.ofList (List.replicate indentation ' ')
    ++ (if style.positions then p.text ++ " " else "") ++ t.shown ++ "\n"

def ofTokens (style : Style) : Walk → List Token → Listing
  | w, [] => ⟨[], .ok w⟩
  | w, t :: tokens =>
    let here := w.approach t
    match here.enter t with
    | .error obstacle => ⟨[], .error (obstacle, here.position)⟩
    | .ok (indentation, behind) =>
      if !style.print then ofTokens style behind tokens
      else if widest < indentation then ⟨[], .error (.tooDeep, here.position)⟩
      else
        let later := ofTokens style behind tokens
        { later with lines := style.line indentation here.position t :: later.lines }

def ofInput (style : Style) (input : Bytes) : Listing :=
  ofTokens style ⟨input, 0, {}, 0, 0, 0⟩ (Token.all input)

def Walk.summary (w : Walk) : String :=
  ";; count_toplevel = " ++ toString w.toplevel ++ ", count_enter = " ++ toString w.entered ++ "\n"

end Listing

end Sexpr
