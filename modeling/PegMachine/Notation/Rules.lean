import PegMachine.Grammar.Basic

namespace PegMachine.Notation

/-- Punctuation with the spacing after it; it leaves nothing in the output. -/
def mark (text : String) : Expr := .hide [.literal text, .rule "Spacing"]

/-- A named piece of text with the spacing after it. -/
def token (name : String) (e : Expr) : Expr := .sequence [.wrap name [e], .rule "Spacing"]

def pattern (source : String) : Expr := .pattern (Pattern.ofSource source)

def throw (message : String) : Expr := .action (.throw (.text message))

def rules : List (Bytes × Expr) :=
  [("main", .sequence
      [.rule "Spacing", Expr.oneOrMore [.rule "Definition"],
        .choice [Expr.not [pattern "(?s)."], throw "expected a rule definition"]]),
    ("Definition", .wrap "Definition" [.rule "Identifier", .rule "LEFTARROW", .rule "Expression"]),
    ("Expression", .wrap "Choice"
      [.rule "Sequence", Expr.zeroOrMore [.rule "SLASH", .rule "Sequence"]]),
    ("Sequence", .wrap "Sequence" [Expr.zeroOrMore [.rule "Prefix"]]),
    ("Prefix", .choice
      [.wrap "Not" [mark "!", .rule "Suffix"], .wrap "Hide" [mark "~", .rule "Suffix"],
        .rule "Suffix"]),
    ("Suffix", .wrap "Suffix"
      [.rule "Primary", Expr.optional [.choice [token "Op" (pattern "[?*+]"), .rule "Bounds"]]]),
    ("Bounds", .wrap "Bounds"
      [mark "\x7b", Expr.optional [token "Min" (pattern "[0-9]+")],
        Expr.optional [token "Comma" (.literal ",")],
        Expr.optional [token "Max" (pattern "[0-9]+")],
        .choice [mark "\x7d", throw "missing closing brace"]]),
    ("Primary", .choice
      [.rule "Label", .sequence [.rule "Identifier", Expr.not [.rule "LEFTARROW"]],
        .sequence [.rule "OPEN", .rule "Expression", .rule "CLOSE"],
        .rule "Literal", .rule "Class", .rule "Regex", token "Any" (.literal ".")]),
    ("Label", .wrap "Label"
      [.rule "Identifier", mark ":", .rule "OPEN", .rule "Expression", .rule "CLOSE"]),
    ("Identifier", token "Identifier" (pattern "[A-Za-z_][A-Za-z0-9_]*")),
    ("Literal", .choice
      [token "Literal" (pattern "'(?:[^'\\\\]|\\\\.)*'|\"(?:[^\"\\\\]|\\\\.)*\""),
        .sequence [pattern "['\"]", throw "unterminated string literal"]]),
    ("Class", .choice
      [token "Class" (pattern "\\[(?:[^\\]\\\\]|\\\\.)*\\]"),
        .sequence [.literal "[", throw "unterminated character class"]]),
    ("Regex", .choice
      [token "Regex" (pattern "`[^`]*`"),
        .sequence [.literal "`", throw "unterminated regular expression"]]),
    ("LEFTARROW", mark "<-"),
    ("SLASH", mark "/"),
    ("OPEN", mark "("),
    ("CLOSE", .choice [mark ")", throw "missing closing parenthesis"]),
    ("Spacing", .hide
      [Expr.zeroOrMore [.choice [pattern "\\s+", pattern "#[^\\n]*"]]])]

def grammar : Grammar := Grammar.ofRules rules

end PegMachine.Notation
