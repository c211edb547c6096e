import PegMachine.Expr.Basic

namespace PegMachine

structure Token where
  kind : Bytes
  value : Bytes
  span : Span
  deriving Repr, DecidableEq

/-- An input. The spans of tokens point into `source`, which may be empty. -/
inductive Input where
  | text (source : Bytes)
  | tokens (source : Bytes) (stream : List Token)
  deriving Repr

inductive Attempt where
  | fault
  | mismatch
  | success (value : Value) (next : Int)

namespace Input

def source : Input → Bytes
  | .text source => source
  | .tokens source _ => source

/-- The cursor past the last item. -/
def size : Input → Int
  | .text source => source.length
  | .tokens _ stream => stream.length

/-- The bytes from a cursor on; there are none before the text or past its end. -/
def rest? (source : Bytes) (cursor : Int) : Option Bytes :=
  if 0 ≤ cursor ∧ cursor ≤ source.length then some (source.drop cursor.toNat) else none

/-- Tries a token that has to satisfy `accepts`. Past the last token nothing matches. -/
def tryToken (stream : List Token) (cursor : Int) (accepts : Bytes → Bool) : Attempt :=
  if cursor < 0 then .fault
  else
    match stream[cursor.toNat]? with
    | none => .mismatch
    | some token =>
      if accepts token.kind then .success (Value.ofText token.value token.span) (cursor + 1)
      else .mismatch

/-- Tries a literal: it is the next text, or the kind of the next token. -/
def tryLiteral (input : Input) (cursor : Int) (literal : Bytes) : Attempt :=
  match input with
  | .text source =>
    match rest? source cursor with
    | none => .fault
    | some rest =>
      if literal.isPrefixOf rest then
        .success (Value.ofText literal ⟨cursor, cursor + literal.length⟩) (cursor + literal.length)
      else .mismatch
  | .tokens _ stream => tryToken stream cursor (· == literal)

/-- Tries a pattern: on the next text, or on the whole kind of the next token. -/
def tryPattern (input : Input) (cursor : Int) (p : Pattern) : Attempt :=
  match input with
  | .text source =>
    match rest? source cursor with
    | none => .fault
    | some rest =>
      match p.matchStart rest with
      | none => .mismatch
      | some n => .success (Value.ofText (rest.take n) ⟨cursor, cursor + n⟩) (cursor + n)
  | .tokens _ stream => tryToken stream cursor p.matchWhole

/-- The byte offset of a cursor. Past the last token it is where that one stops. -/
def offset? (input : Input) (cursor : Int) : Option Int :=
  match input with
  | .text _ => some cursor
  | .tokens _ stream =>
    if cursor < 0 then none
    else
      match stream[cursor.toNat]? with
      | some token => some token.span.start
      | none =>
        match stream.getLast? with
        | some token => some token.span.stop
        | none => some 0

def span? (input : Input) (start stop : Int) : Option Span :=
  match input with
  | .text _ => some ⟨start, stop⟩
  | .tokens _ stream =>
    if stop ≤ start then (input.offset? start).map fun offset => ⟨offset, offset⟩
    else if start < 0 then none
    else
      match stream[start.toNat]?, stream[(stop - 1).toNat]? with
      | some first, some last => some ⟨first.span.start, last.span.stop⟩
      | _, _ => none

end Input

end PegMachine
