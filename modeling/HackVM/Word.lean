import HackVM.Text.Numeral

/-!
# Machine Words

The 16-bit word that everything on the machine is made of: memory cells,
registers, addresses, and the indices and counts written in commands.

A word has two readings. As an address or an index it is the natural number
`toNat`, and as data it is the two's complement integer `toInt`; arithmetic is
the same for both. Source text always writes the unsigned reading.

## Main definitions

* `Word`: Sixteen bits.
* `Word.ofNat?`, `Word.ofInt?`: The word with a given reading, if there is one.
* `Word.ofNumeral?`: The word that a numeral names.
* `Word.numeral`: The numeral of a word.

## Theorems

* `Word.ofNumeral?_numeral`: A written word reads back as itself.
-/

namespace HackVM

/-- Sixteen bits, read as an address or as a signed number. -/
abbrev Word := BitVec 16

namespace Word

/-- The word whose unsigned reading is `n`. -/
def ofNat? (n : Nat) : Option Word :=
  if n < 65536 then some (BitVec.ofNat 16 n) else none

/-- The word whose signed reading is `n`. -/
def ofInt? (n : Int) : Option Word :=
  if -32768 ≤ n ∧ n ≤ 32767 then some (BitVec.ofInt 16 n) else none

/-- The word that a numeral names, if sixteen bits hold it. -/
def ofNumeral? (cs : List Char) : Option Word :=
  (Text.readNumeral? 65535 cs).map (BitVec.ofNat 16)

/-- The shortest numeral of the unsigned reading. -/
def numeral (w : Word) : String :=
  w.toNat.repr

/-- A written word reads back as itself. -/
theorem ofNumeral?_numeral (w : Word) : ofNumeral? (numeral w).toList = some w := by
  have hle : w.toNat ≤ 65535 := by omega
  simp only [ofNumeral?, numeral, Text.readNumeral?, Text.isNumeral_repr, Text.numeralValue_repr,
    hle, decide_true, Bool.and_self, if_true, Option.map_some, BitVec.ofNat_toNat,
    BitVec.setWidth_eq]

end Word

end HackVM
