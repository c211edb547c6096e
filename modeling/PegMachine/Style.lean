import PegMachine.Text.Template

namespace PegMachine.Style

def code (attributes : String) : Bytes := 0x1B :: ("[" ++ Bytes.ofString attributes ++ "m")

def reset : Bytes := code "0"
def red : Bytes := code "1;31"
def yellow : Bytes := code "1;33"
def green : Bytes := code "1;32"
def cyan : Bytes := code "1;36"
def gray : Bytes := code "90"
def orange : Bytes := code "38;5;208"
def paleGray : Bytes := code "1;38;5;245"
def purple : Bytes := code "1;38;5;99"
def pink : Bytes := code "1;38;5;127"

/-- Colours by what they highlight: the events of a trace, then parts of values and expressions. -/
structure Theme where
  push : Bytes := cyan
  pop : Bytes := yellow
  success : Bytes := green
  failure : Bytes := red
  muted : Bytes := gray
  operator : Bytes := purple
  operand : Bytes := pink
  literal : Bytes := green
  span : Bytes := orange
  comment : Bytes := paleGray

def theme : Theme := {}

/-- The text in a colour, with a reset after it. -/
def paint (color text : Bytes) : Bytes := color ++ text ++ reset

/-- Like `paint`, where the colour is a template of its own. -/
def paintTemplate (color text : Bytes) : Bytes :=
  Template.fill (color ++ "%s" ++ reset) [text]

end PegMachine.Style
