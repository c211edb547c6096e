import PegMachine.Outline
import PegMachine.Payload
import PegMachine.Span
import PegMachine.Style

namespace PegMachine

/-- Notes on a value, sorted by key, one for each key. -/
abbrev Notes := List (Bytes × Payload)

namespace Notes

/-- Sets the note `key`, replacing the one it had. -/
def set (key : Bytes) (datum : Payload) : Notes → Notes
  | [] => [(key, datum)]
  | (k, d) :: notes =>
    if k = key then (key, datum) :: notes
    else if Bytes.less key k then (key, datum) :: (k, d) :: notes
    else (k, d) :: set key datum notes

end Notes

/-- A piece of matched text, or a named node around other values. -/
inductive Value where
  | text (content : Bytes) (span : Span) (notes : Notes)
  | node (name : Bytes) (span : Span) (items : List Value) (notes : Notes)
  deriving Repr, Inhabited

namespace Value

def ofText (content : Bytes) (span : Span) : Value := .text content span []

def ofItems (name : Bytes) (span : Span) (items : List Value) : Value := .node name span items []

def span : Value → Span
  | .text _ span _ => span
  | .node _ span _ _ => span

def notes : Value → Notes
  | .text _ _ notes => notes
  | .node _ _ _ notes => notes

def kind : Value → Bytes
  | .text .. => "string"
  | .node .. => "node"

def note? (v : Value) (key : Bytes) : Option Payload := v.notes.lookup key

def annotate (key : Bytes) (datum : Payload) : Value → Value
  | .text content span notes => .text content span (notes.set key datum)
  | .node name span items notes => .node name span items (notes.set key datum)

mutual

/-- The matched text of a value, depth first. -/
def content : Value → Bytes
  | .text content _ _ => content
  | .node _ _ items _ => contents items

def contents : List Value → Bytes
  | [] => []
  | v :: vs => content v ++ contents vs

end

mutual

def render : Value → Bytes
  | .text content span _ => "\"" ++ content ++ "\" @ " ++ span.render
  | .node name span items _ =>
    name ++ "(" ++ Bytes.join ", " (renderEach items) ++ ") @ " ++ span.render

def renderEach : List Value → List Bytes
  | [] => []
  | v :: vs => render v :: renderEach vs

end

inductive Role where
  | span | literal | name | note
  deriving Repr, DecidableEq

/-- The pieces that spans and notes add to a value's line. -/
def trailer (span : Span) (notes : Notes) : List (Role × Bytes) :=
  (.span, " (" ++ span.render ++ ")") ::
    notes.map fun note => (.note, " " ++ note.1 ++ "=" ++ note.2.render)

mutual

def outline : Value → Outline Role
  | .text content span notes => .node ((.literal, Quoted.quote content) :: trailer span notes) []
  | .node name span items notes => .node ((.name, name) :: trailer span notes) (outlines items)

def outlines : List Value → List (Outline Role)
  | [] => []
  | v :: vs => outline v :: outlines vs

end

/-- Draws a value, decorating each piece according to its role. -/
def format (paint : Role → Bytes → Bytes) (v : Value) : Bytes := v.outline.render paint

/-- Draws values one below the other. -/
def formatAll (paint : Role → Bytes → Bytes) (vs : List Value) : Bytes :=
  Bytes.join Bytes.newline (vs.map (format paint))

def pretty (vs : List Value) : Bytes := formatAll (fun _ text => text) vs

def color : Role → Bytes
  | .span => Style.theme.span
  | .literal => Style.theme.literal
  | .name => Style.theme.operator
  | .note => Style.theme.comment

def highlight (vs : List Value) : Bytes := formatAll (fun role => Style.paint (color role)) vs

end Value

end PegMachine
