import PegMachine.Unicode.Case

namespace PegMachine.LowerCase

def ofText (text : Bytes) : Bytes :=
  ((Utf8.runes text).map Unicode.toLower).flatMap Utf8.encode

/-- The outcome for one block: what was written, how many bytes of the block it took, and whether
there was no room for a character. -/
structure Block where
  written : Bytes := []
  taken : Nat := 0
  full : Bool := false
  deriving Repr, DecidableEq

/-- Lower-cases a block, after `skip` bytes that belong to a character before, into at most `room`
bytes. A character that does not fit counts as taken, and a replacement character takes only one
byte whatever its width. -/
def blockFrom : Nat → Nat → Bytes → Block
  | _, _, [] => {}
  | skip + 1, room, _ :: rest => blockFrom skip room rest
  | 0, room, b :: rest =>
    let (c, width) := Utf8.decodeAt b rest
    let image := Utf8.encode (Unicode.toLower c)
    let taken := if c = Utf8.replacement then 1 else width
    if room < image.length then { taken := taken, full := true }
    else
      let more := blockFrom (width - 1) (room - image.length) rest
      { more with written := image ++ more.written, taken := taken + more.taken }

/-- The bytes of a block, and of the room there is at first. -/
def blockSize : Nat := 128

def grown (room : Nat) : Nat :=
  if room ≤ 32 then 64 else if room ≤ 256 then room * 2 else room + room / 2

/-- Lower-cases `rest` after what is written already, into `room` bytes in total. The room grows
only when not a single character fits. Every round but the last takes a byte at least. -/
def appendBlocks : Nat → Nat → Bytes → Bytes → Bytes
  | 0, _, written, _ => written
  | fuel + 1, room, written, rest =>
    let block := blockFrom 0 (room - written.length) (rest.take blockSize)
    let written := written ++ block.written
    let rest := rest.drop block.taken
    if block.full then
      appendBlocks fuel (if block.written.isEmpty then grown room else room) written rest
    else if rest.isEmpty then written
    else appendBlocks fuel room written rest

/-- Lower-cases `rest` after a part of the text that stays the same. The first block that changes
settles the room for all that follows. -/
def foldFrom : Nat → Bytes → Bytes → Bytes
  | 0, same, _ => same
  | fuel + 1, same, rest =>
    let block := blockFrom 0 blockSize (rest.take blockSize)
    let changed := block.full || block.written != rest.take block.taken
    let written := same ++ block.written
    let rest := rest.drop block.taken
    if !block.full && rest.isEmpty then written
    else if changed then
      let room := if written.length ≤ blockSize then blockSize else written.length + rest.length
      appendBlocks (rest.length + 2) room written rest
    else foldFrom fuel written rest

/-- Lower case as names are compared by. For a text of at most one block without characters that
grow and without replacement characters it is the plain one. -/
def fold (text : Bytes) : Bytes := foldFrom (text.length + 1) [] text

end PegMachine.LowerCase
