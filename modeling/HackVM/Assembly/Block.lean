import HackVM.Assembly.Instruction
import HackVM.Datum.Printer
import HackVM.Diagnostic
import HackVM.Text.Lines

/-!
# Blocks and Listings

The code for one source line, and the two listings of a whole program.

A block belongs to a line of the source and holds its code, or the cause for
which there is none. The text listing is assembly: each block is preceded by
its source line as a comment, if that is wanted, and a block without code shows
its cause as a comment, so a program with bad lines still assembles. The record
listing holds the same content for other programs to read, as JSON.

## Main definitions

* `Block`: The code for one source line.
* `Block.listing`: The lines of a block in the text listing.
* `renderText`: The text listing.
* `renderJson`: The record listing.
-/

namespace HackVM

/-- The code for one source line, or the cause for which it has none. -/
structure Block where
  location : Location
  /-- The line as it was written. -/
  source : String
  body : Except CommandError (List Instruction)

namespace Block

/-- The block has no code. -/
def isError (block : Block) : Bool :=
  match block.body with
  | .ok _ => false
  | .error _ => true

/-- The code of a block, none if there is a cause instead. -/
def instructions (block : Block) : List Instruction :=
  match block.body with
  | .ok code => code
  | .error _ => []

/-- The comment that stands in place of code that is missing. -/
def errorComments (block : Block) : List Instruction :=
  match block.body with
  | .ok _ => []
  | .error cause => [.comment ("ERROR " ++ block.location.render ++ ": " ++ cause.message)]

/-- The lines of a block, with its source in front if `echo` is set. -/
def listing (echo : Bool) (block : Block) : List Instruction :=
  (if echo then [.comment block.source] else []) ++ block.errorComments ++ block.instructions

/-- The cause in words, or nothing. -/
def errorDatum (block : Block) : Datum :=
  match block.body with
  | .ok _ => .null
  | .error cause => .text cause.message

/-- A block as a record. -/
def toDatum (block : Block) : Datum :=
  .record
    [("location", .record
      [("unit", .text block.location.unit), ("line", .natural block.location.line)]),
     ("source", .text block.source),
     ("asm", .list (block.instructions.map fun i => .text i.render)),
     ("error", block.errorDatum)]

end Block

/-- The text listing of blocks, one instruction a line. -/
def renderText (echo : Bool) (blocks : List Block) : String :=
  Text.unlines ((blocks.flatMap (Block.listing echo)).map Instruction.render)

/-- The record listing of blocks. -/
def renderJson (blocks : List Block) : String :=
  (Datum.list (blocks.map Block.toDatum)).pretty

end HackVM
