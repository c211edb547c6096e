import PegMachine.Regex.CharClass

namespace PegMachine.Unicode

/-- An entry of a table: the characters `first`, `first + step`, ... up to `last`, and the image of
the first one in tables that hold a mapping. -/
structure Entry where
  first : Nat
  last : Nat
  step : Nat
  image : Nat
  deriving Repr, DecidableEq

def hexDigit (c : Char) : Nat :=
  if c.isDigit then c.toNat - 48 else c.toNat - 87

def hexNumber (cs : List Char) : Nat := cs.foldl (fun n c => n * 16 + hexDigit c) 0

/-- The pieces of `cs` between the characters that satisfy `sep`. -/
def pieces (sep : Char → Bool) (cs : List Char) : List (List Char) :=
  let (word, words) := cs.foldr
    (fun c (word, words) => if sep c then ([], word :: words) else (c :: word, words)) ([], [])
  word :: words

/-- The entry that a word in hexadecimal stands for: `a-b` is a range, `a-b/2` every second
character of one, and `:t` gives the image of the first character, which the others follow in
step. -/
def Entry.ofWord (word : List Char) : Entry :=
  let (source, image) := match pieces (· == ':') word with
    | [source, image] => (source, hexNumber image)
    | _ => (word, 0)
  let (range, step) := match pieces (· == '/') source with
    | [range, step] => (range, hexNumber step)
    | _ => (source, 1)
  match pieces (· == '-') range with
  | [first, last] => ⟨hexNumber first, hexNumber last, step, image⟩
  | _ => ⟨hexNumber range, hexNumber range, step, image⟩

def Entry.members (e : Entry) : List Nat :=
  (List.range ((e.last - e.first) / e.step + 1)).map fun i => e.first + i * e.step

def Entry.pairs (e : Entry) : List (Nat × Nat) :=
  e.members.map fun c => (c, e.image + (c - e.first))

def Entry.ranges (e : Entry) : List (Nat × Nat) :=
  if e.step = 1 then [(e.first, e.last)] else e.members.map fun c => (c, c)

def words (table : String) : List (List Char) :=
  (pieces Char.isWhitespace table.toList).filter (!·.isEmpty)

def mapping (table : String) : List (Nat × Nat) :=
  (words table).flatMap fun word => (Entry.ofWord word).pairs

/-- The classes of a table in which each name, a word that starts with a capital letter, comes
before the entries of its class. -/
def namedClasses (table : String) : List (String × CharClass) :=
  (words table).foldr
    (fun word (named, pending) => match word with
      | c :: _ =>
        if c.isUpper then ((String.ofList word, CharClass.ofRanges pending) :: named, [])
        else (named, (Entry.ofWord word).ranges ++ pending)
      | [] => (named, pending))
    (([], []) : List (String × CharClass) × List (Nat × Nat)) |>.1

end PegMachine.Unicode
