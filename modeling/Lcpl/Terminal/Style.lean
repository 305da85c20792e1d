/-!
# Styled text

Text for a terminal, with or without colour. A styled piece switches its style off again right
behind itself, and a whole output begins and ends with the plain style.

## Main definitions

* `Terminal` — whether styles are written
* `Terminal.reset`, `Terminal.style` — the plain style, and another one
* `Terminal.styled` — a styled piece of text
-/

namespace Lcpl

/-- The eight colours of a terminal. -/
inductive Colour where
  | black
  | red
  | green
  | yellow
  | blue
  | magenta
  | cyan
  | white
deriving DecidableEq, Repr

/-- The digit of a colour in a control sequence. -/
def Colour.digit : Colour → String
  | black => "0"
  | red => "1"
  | green => "2"
  | yellow => "3"
  | blue => "4"
  | magenta => "5"
  | cyan => "6"
  | white => "7"

/-- Whether styles are written. -/
inductive Terminal where
  | plain
  | coloured
deriving DecidableEq, Repr

namespace Terminal

/-- A control sequence, for a terminal that understands it. -/
def control (terminal : Terminal) (sequence : String) : String :=
  match terminal with
  | plain => ""
  | coloured => "\x1b[" ++ sequence ++ "m"

/-- Switches to the plain style. -/
def reset (terminal : Terminal) : String := terminal.control "0"

/-- Switches to a style. -/
def style (terminal : Terminal) (colour : Colour) (bold : Bool) : String :=
  terminal.reset ++ (if bold then terminal.control "1" else "") ++
    terminal.control ("3" ++ colour.digit)

/-- A piece of text in a style. -/
def styled (terminal : Terminal) (text : String) (colour : Colour) (bold : Bool) : String :=
  terminal.style colour bold ++ text ++ terminal.reset

end Terminal

end Lcpl
