import HackVM.Proofs.Blocks
import HackVM.Proofs.RoundTrip
import HackVM.Proofs.Trace

/-!
# Blocks in an Image

Where the blocks of a program are in the image it was assembled to.

The address of a block is the number of words in the blocks before it. Blocks
without code, those of labels and of refused lines, share the address of the
block behind them. A label that a user declares stands at the front of its
block, so it is the address of that block, and an image holds only one label of
a name.

## Main definitions

* `blockAddress`: The address of a block.
* `Image.layout`: What the stack machine sees of an image.
* `Placed`: An image of blocks and the entries they come from.

## Theorems

* `Placed.holds_block`: Every block is at its address.
* `Placed.toNat_address_of_declares?`: A declared name is the address of its block.
* `placed_of_assemble`: A compiled and assembled program is placed.
-/

namespace HackVM

/-- The address of a block: the number of words in the blocks before it. -/
def blockAddress (blocks : List Block) (i : Nat) : Nat :=
  codeSize ((blocks.take i).flatMap Block.instructions)

theorem blockAddress_succ {blocks : List Block} {i : Nat} {block : Block}
    (h : blocks[i]? = some block) :
    blockAddress blocks (i + 1) = blockAddress blocks i + codeSize block.instructions := by
  unfold blockAddress
  rw [List.take_add_one, h, List.flatMap_append, codeSize_append]
  simp

theorem blockAddress_length (blocks : List Block) :
    blockAddress blocks blocks.length = codeSize (blocks.flatMap Block.instructions) := by
  unfold blockAddress
  rw [List.take_length]

/-- What the stack machine sees of an image. -/
def Image.layout (image : Image) (blocks : List Block) : StackMachine.Layout :=
  { static := image.address, address := blockAddress blocks }

/-- The image is that of the blocks, and the blocks come from the entries. -/
structure Placed (image : Image) (options : Options) (entries : List Entry)
    (blocks : List Block) : Prop where
  known : image.KnowsMachine
  produces : List.Forall₂ (Produces options) entries blocks
  held : image.Holds 0 (blocks.flatMap Block.instructions)
  size : image.code.size = blockAddress blocks blocks.length

namespace Placed

variable {image : Image} {options : Options} {entries : List Entry} {blocks : List Block}

/-- The block of an entry. -/
theorem exists_block (h : Placed image options entries blocks) {i : Nat} {entry : Entry}
    (hentry : entries[i]? = some entry) :
    ∃ block, blocks[i]? = some block ∧ Produces options entry block := by
  exact exists_getElem?_of_forall₂ h.produces hentry

/-- Every block is at its address. -/
theorem holds_block (h : Placed image options entries blocks) {i : Nat} {block : Block}
    (hblock : blocks[i]? = some block) :
    image.Holds (blockAddress blocks i) block.instructions := by
  rcases List.getElem?_eq_some_iff.mp hblock with ⟨hi, hget⟩
  have hsplit : blocks = blocks.take i ++ block :: blocks.drop (i + 1) := by
    rw [← hget, List.cons_getElem_drop_succ, List.take_append_drop]
  have hheld := h.held
  rw [hsplit, List.flatMap_append, List.flatMap_cons] at hheld
  have hrest := (Image.holds_append.mp (Image.holds_append.mp hheld).2).1
  rwa [Nat.zero_add] at hrest

/-- A declared name is the address of its block. -/
theorem toNat_address_of_declares? (h : Placed image options entries blocks) {i : Nat}
    {entry : Entry} {name : String} (hentry : entries[i]? = some entry)
    (hname : entry.declares? options = some name) :
    (image.address name).toNat = blockAddress blocks i := by
  rcases h.exists_block hentry with ⟨block, hblock, hproduces⟩
  have hheld := h.holds_block hblock
  cases entry with
  | start unit => cases hname
  | line l =>
      rcases hproduces.line_cases with ⟨cause, hresult, -⟩ | ⟨command, code, ctx, ctx', hresult,
        hcode, -, hfunction, hlowers⟩
      · simp [Entry.declares?, Line.declares?, hresult] at hname
      · simp only [Entry.declares?, Line.declares?, hresult] at hname
        rw [hcode] at hheld
        cases command with
        | label other =>
            cases hname
            cases hlowers
            rw [Line.resolveLabel_eq_symbol options hfunction] at hheld
            exact Image.toNat_address_of_holds hheld
        | function other locals =>
            cases hname
            cases hlowers
            exact Image.toNat_address_of_holds hheld
        -- No other command declares a name.
        | _ => cases hname

end Placed

/-- A compiled and assembled program is placed. -/
theorem placed_of_assemble {options : Options} {units : List (String × String)}
    {compilation : Compilation} {image : Image}
    (hunits : ∀ unit ∈ units, isName unit.1 = true)
    (hcompile : compileProgram options units = .ok compilation)
    (hassemble : assemble compilation.text = .ok image) :
    Placed image options (programEntries options units) compilation.blocks.toList := by
  have hprintable := printable_of_compileProgram hunits hcompile
  rcases (trace_of_compileProgram hcompile).1 with ⟨names, htrace⟩
  have hrealizes := realizes_of_assemble hassemble
  rw [statements_text hunits hcompile, Compilation.instructions] at hrealizes
  have hlegible := legible_blockCode hprintable
  rcases Image.code_of_realizes hrealizes hlegible with ⟨hcode, hsome⟩
  refine ⟨Image.knowsMachine_of_realizes hrealizes, htrace.produces,
    Image.holds_of_realizes hrealizes hlegible, ?_⟩
  rw [blockAddress_length, ← length_filterMap_word? hsome, ← hcode, Array.length_toList]

end HackVM
