import PegMachine.Text.Utf8

namespace PegMachine.Regex

inductive Fault where
  | charRange | escape | namedCapture | groupOption | nestedRepeat | repeatCount | utf8
  | missingBracket | missingParen | missingArgument | trailingBackslash | unexpectedParen
  | nesting | size
  deriving Repr, DecidableEq

def Fault.message : Fault → Bytes
  | .charRange => "invalid character class range"
  | .escape => "invalid escape sequence"
  | .namedCapture => "invalid named capture"
  | .groupOption => "invalid or unsupported Perl syntax"
  | .nestedRepeat => "invalid nested repetition operator"
  | .repeatCount => "invalid repeat count"
  | .utf8 => "invalid UTF-8"
  | .missingBracket => "missing closing ]"
  | .missingParen => "missing closing )"
  | .missingArgument => "missing argument to repetition operator"
  | .trailingBackslash => "trailing backslash at end of expression"
  | .unexpectedParen => "unexpected )"
  | .nesting => "expression nests too deeply"
  | .size => "expression too large"

/-- A fault and the piece of text it was found in. -/
structure ReadError where
  fault : Fault
  fragment : Bytes
  deriving Repr, DecidableEq

def ReadError.message (e : ReadError) : Bytes :=
  "error parsing regexp: " ++ e.fault.message ++ ": `" ++ e.fragment ++ "`"

def fail {α : Type} (fault : Fault) (fragment : Bytes) : Except ReadError α :=
  .error ⟨fault, fragment⟩

/-- The part of a text that was read, given what is left of it. -/
def consumed (text rest : Bytes) : Bytes := text.take (text.length - rest.length)

/-- The next character; at the end of the text it is the replacement character. -/
def nextRune (text : Bytes) : Except ReadError (Nat × Bytes) :=
  match text with
  | [] => .ok (Utf8.replacement, [])
  | b :: rest =>
    if Utf8.isIllFormed b rest then fail .utf8 text
    else .ok ((Utf8.decodeAt b rest).1, text.drop (Utf8.decodeAt b rest).2)

/-- Refuses a text that is not UTF-8; its first `skip` bytes are known to be. -/
def checkUtf8 : Nat → Bytes → Except ReadError Unit
  | _, [] => .ok ()
  | skip + 1, _ :: rest => checkUtf8 skip rest
  | 0, b :: rest =>
    if Utf8.isIllFormed b rest then fail .utf8 (b :: rest)
    else checkUtf8 ((Utf8.decodeAt b rest).2 - 1) rest

/-- Splits a text around the first place where `mark` stands. -/
def splitAt? (mark : Bytes) : Bytes → Option (Bytes × Bytes)
  | [] => none
  | b :: rest =>
    if mark.isPrefixOf (b :: rest) then some ([], (b :: rest).drop mark.length)
    else (splitAt? mark rest).map fun (before, after) => (b :: before, after)

end PegMachine.Regex
