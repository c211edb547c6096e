import PegMachine.Notation.Reader

namespace PegMachine

/-- A kind of token and what it matches. A skipped one is consumed and makes no token. -/
structure TokenDef where
  kind : Bytes
  expr : Expr
  skip : Bool := false

namespace TokenDef

def ofLiteral (kind text : Bytes) : TokenDef := ⟨kind, .literal text, false⟩

/-- A token that is the longest match of a regular expression. -/
def ofPattern (kind source : Bytes) : TokenDef := ⟨kind, .pattern (Pattern.ofSource source), false⟩

/-- A token that a rule of another grammar matches. -/
def ofGrammar (kind : Bytes) (grammar : Option Nat) (main : Bytes) : TokenDef :=
  ⟨kind, .embed grammar main, false⟩

def alternative (d : TokenDef) : Expr := if d.skip then .hide [d.expr] else .wrap d.kind [d.expr]

end TokenDef

namespace Tokenizer

/-- The grammar of the definitions, of which the first that matches wins. -/
def grammar (defs : List TokenDef) : Grammar :=
  Grammar.ofRules [("main", Expr.zeroOrMore [.choice (defs.map TokenDef.alternative)])]

/-- The tokens that values stand for; there are none when a span lies outside of the source. -/
def tokens? (source : Bytes) : List Value → Option (List Token)
  | [] => some []
  | .text .. :: vs => tokens? source vs
  | .node name span _ _ :: vs =>
    match span.text? source, tokens? source vs with
    | some text, some tokens => some (⟨name, text, span⟩ :: tokens)
    | _, _ => none

/-- Splits a source into tokens, where `id` is the grammar of the definitions. -/
def tokenize (fuel : Nat) (family : Family) (host : Machine.Host) (id : Nat) (source : Bytes) :
    Option (Answer (List Token)) :=
  (evaluate fuel family host {} id (.text source)).map fun
    | .value vs =>
      match tokens? source vs with
      | some tokens => .value tokens
      | none => .fault
    | .error e => .error e
    | .fault => .fault

end Tokenizer

end PegMachine
