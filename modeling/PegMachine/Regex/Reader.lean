import PegMachine.Regex.Escape
import PegMachine.Regex.Group
import PegMachine.Regex.OnePass

namespace PegMachine.Regex

def count? (text : Bytes) : Option (Nat × Bytes) :=
  let digits := text.takeWhile Ascii.isDigit
  if digits.isEmpty || (digits.length ≥ 2 && digits.head? == some Ascii.zero) then none
  else some (digits.foldl (fun n b => n * 10 + Ascii.digitValue b) 0, text.drop digits.length)

/-- The bounds that a pair of braces gives, if it gives any; `text` starts with the brace. -/
def bounds? (text : Bytes) : Option (Nat × Option Nat × Bytes) :=
  match count? (text.drop 1) with
  | none => none
  | some (least, Ascii.closeBrace :: rest) => some (least, some least, rest)
  | some (least, Ascii.comma :: Ascii.closeBrace :: rest) => some (least, none, rest)
  | some (least, Ascii.comma :: rest) =>
    match count? rest with
    | some (most, Ascii.closeBrace :: rest) => some (least, some most, rest)
    | _ => none
  | _ => none

/-- Reads the flags after `(?`; `start` is the parenthesis. The answer tells whether a group
opens. -/
def flagLetters (start : Bytes) (flags : Flags) (off any : Bool) :
    Bytes → Except ReadError (Flags × Bool × Bytes)
  | [] => fail .groupOption start
  | b :: rest =>
    if b = Ascii.code 'i' then flagLetters start { flags with fold := !off } off true rest
    else if b = Ascii.code 'm' then flagLetters start { flags with lines := !off } off true rest
    else if b = Ascii.code 's' then flagLetters start { flags with dotAll := !off } off true rest
    else if b = Ascii.code 'U' then flagLetters start { flags with lazy := !off } off true rest
    else if b = Ascii.hyphen ∧ !off then flagLetters start flags true false rest
    else if (b = Ascii.colon ∨ b = Ascii.code ')') ∧ (!off ∨ any) then
      .ok (flags, b == Ascii.colon, rest)
    else do
      let (_, rest) ← nextRune (b :: rest)
      fail .groupOption (consumed start rest)

/-- Carries out a step of reading an expression whose text is `whole`. -/
def advanceBy (whole : Bytes) (step : Build Unit) (r : Reading) : Except ReadError Reading :=
  match step.run r with
  | .ok (_, r) => .ok r
  | .error fault => fail fault whole

def isGroupName (name : Bytes) : Bool := !name.isEmpty && name.all Ascii.isWord

/-- Opens a named group; `start` is the parenthesis and `text` what follows `<`. -/
def namedGroup (whole : Bytes) (r : Reading) (start text : Bytes) :
    Except ReadError (Reading × Bytes) :=
  match splitAt? [Ascii.greater] text with
  | none => do
    checkUtf8 0 start
    fail .namedCapture start
  | some (name, rest) => do
    checkUtf8 0 name
    if isGroupName name then .ok (← advanceBy whole (Build.openGroup true) r, rest)
    else fail .namedCapture (consumed start rest)

/-- Reads flags that stand alone or open a group; `text` starts with the parenthesis. -/
def flagGroup (whole : Bytes) (r : Reading) (text : Bytes) : Except ReadError (Reading × Bytes) := do
  let (flags, opens, rest) ← flagLetters text r.flags false false (text.drop 2)
  let r ← if opens then advanceBy whole (Build.openGroup false) r else .ok r
  .ok ({ r with flags := flags }, rest)

def parenthesis (whole : Bytes) (r : Reading) (text : Bytes) :
    Except ReadError (Reading × Bytes) :=
  match text with
  | _ :: Ascii.question :: Ascii.upperP :: Ascii.less :: b :: rest =>
    namedGroup whole r text (b :: rest)
  | _ :: Ascii.question :: Ascii.less :: b :: rest => namedGroup whole r text (b :: rest)
  | _ :: Ascii.question :: _ => flagGroup whole r text
  | _ => do .ok (← advanceBy whole (Build.openGroup true) r, text.drop 1)

def closeGroup (whole : Bytes) (r : Reading) : Except ReadError Reading := do
  let r ← advanceBy whole Build.endGroup r
  match r.enclosing, r.current.pieces with
  | outer :: enclosing, item :: _ =>
    let piece := if r.current.captures then Tree.inside none .capture item else item
    let flags := r.current.restore
    advanceBy whole (Build.push piece)
      { r with flags := flags, current := outer, enclosing := enclosing }
  | _, _ => fail .unexpectedParen whole

/-- Repeats the piece read last. `before` is the text from the operator on, `after` the text after
it; the question mark that may follow is part of the operator and turns its preference around. -/
def repeatLast (whole : Bytes) (r : Reading) (kind : Bool → Wrap) (before after : Bytes) :
    Except ReadError (Reading × Bytes) := do
  let turned := after.head? == some Ascii.question
  let after := if turned then after.drop 1 else after
  if let some previous := r.lastRepeat then
    fail .nestedRepeat (consumed previous after)
  else
    match r.current.pieces with
    | [] => fail .missingArgument (consumed before after)
    | item :: pieces =>
      let kind := kind (r.flags.lazy != turned)
      let r ← advanceBy whole (Build.repeatPiece kind item pieces) r
      if kind.isMultiple && !(r.current.pieces.head?.all (Tree.countsWithin Tree.maxCount)) then
        fail .repeatCount (consumed before after)
      else .ok ({ r with lastRepeat := some before }, after)

/-- Reads plain characters; `fuel` bounds their number. -/
def plainRunes (whole : Bytes) (r : Reading) : Nat → Bytes → Except ReadError Reading
  | _, [] => .ok r
  | 0, _ :: _ => .ok r
  | fuel + 1, b :: rest => do
    let (c, rest) ← nextRune (b :: rest)
    plainRunes whole (← advanceBy whole (Build.pushLiteral c) r) fuel rest

def letterAnchor? (letter : UInt8) : Option Anchor :=
  if letter = Ascii.code 'A' then some .textStart
  else if letter = Ascii.code 'z' then some .textEnd
  else if letter = Ascii.code 'b' then some .wordEdge
  else if letter = Ascii.code 'B' then some .notWordEdge
  else none

def leafThen (whole : Bytes) (r : Reading) (content : Leaf) (rest : Bytes) :
    Except ReadError (Reading × Bytes) := do
  .ok (← advanceBy whole (Build.pushLeaf content) r, rest)

def literalThen (whole : Bytes) (r : Reading) (c : Nat) (rest : Bytes) :
    Except ReadError (Reading × Bytes) := do
  .ok (← advanceBy whole (Build.pushLiteral c) r, rest)

def escape (whole : Bytes) (r : Reading) (text : Bytes) : Except ReadError (Reading × Bytes) := do
  match ← classEscape? r.flags text with
  | some (cls, rest) => leafThen whole r (.members cls) rest
  | none =>
    let (c, rest) ← escapedRune text (text.drop 1)
    literalThen whole r c rest

/-- Reads what a backslash starts. Between `\Q` and `\E` all characters are plain. -/
def backslash (whole : Bytes) (r : Reading) (text : Bytes) :
    Except ReadError (Reading × Bytes) :=
  match text.drop 1 with
  | [] => escape whole r text
  | letter :: rest =>
    match letterAnchor? letter with
    | some anchor => leafThen whole r (.look anchor) rest
    | none =>
      if letter = Ascii.code 'C' then fail .escape (text.take 2)
      else if letter = Ascii.code 'Q' then do
        let (quoted, rest) := (splitAt? "\\E" rest).getD (rest, [])
        .ok (← plainRunes whole r quoted.length quoted, rest)
      else escape whole r text

/-- Reads what an opening brace starts: bounds, or else the brace itself. -/
def brace (whole : Bytes) (r : Reading) (text : Bytes) : Except ReadError (Reading × Bytes) :=
  match bounds? text with
  | none => literalThen whole { r with lastRepeat := none } '{'.toNat (text.drop 1)
  | some (least, most, rest) =>
    if least > Tree.maxCount || most.any (· > Tree.maxCount) || most.any (· < least) then
      fail .repeatCount (consumed text rest)
    else repeatLast whole r (.count least most) text rest

/-- Reads the next item of an expression whose text is `whole`. -/
def item (whole : Bytes) (r : Reading) (text : Bytes) : Except ReadError (Reading × Bytes) :=
  let plain := { r with lastRepeat := none }
  match text with
  | [] => .ok (r, [])
  | b :: rest =>
    if b = Ascii.code '(' then parenthesis whole plain text
    else if b = Ascii.code '|' then do .ok (← advanceBy whole Build.endBranch plain, rest)
    else if b = Ascii.code ')' then do .ok (← closeGroup whole plain, rest)
    else if b = Ascii.caret then
      leafThen whole plain (.look (if r.flags.lines then .lineStart else .textStart)) rest
    else if b = Ascii.code '$' then
      leafThen whole plain (.look (if r.flags.lines then .lineEnd else .textEnd)) rest
    else if b = Ascii.dot then
      leafThen whole plain (if r.flags.dotAll then .anything else .notNewline) rest
    else if b = Ascii.openBracket then do
      let (cls, rest) ← bracketClass r.flags text
      leafThen whole plain (.members cls) rest
    else if b = Ascii.star then repeatLast whole r .star text rest
    else if b = Ascii.plus then repeatLast whole r .plus text rest
    else if b = Ascii.question then repeatLast whole r .option text rest
    else if b = Ascii.openBrace then brace whole r text
    else if b = Ascii.backslash then backslash whole plain text
    else do
      let (c, rest) ← nextRune text
      literalThen whole plain c rest

/-- Reads items until the text ends. Each takes at least one byte, so `fuel` is the length. -/
def items (whole : Bytes) : Nat → Reading → Bytes → Except ReadError Reading
  | _, r, [] => .ok r
  | 0, r, _ :: _ => .ok r
  | fuel + 1, r, b :: rest => do
    let (r, rest) ← item whole r (b :: rest)
    items whole fuel r rest

def readTree (text : Bytes) : Except ReadError Tree := do
  let r ← items text text.length {} text
  let r ← advanceBy text Build.endGroup r
  match r.enclosing, r.current.pieces with
  | [], t :: _ => .ok t
  | _, _ => fail .missingParen text

def read (text : Bytes) : Except ReadError Regex := do .ok (← readTree text).compile

end PegMachine.Regex
