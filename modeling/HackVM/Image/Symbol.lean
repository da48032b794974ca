import HackVM.Word
import Std.Data.TreeMap

/-!
# Symbols

The names that stand for addresses in assembly text.

A table starts with the names the machine gives to its own cells: the stack and
segment pointers, sixteen registers that are the first cells of memory, and the
two devices. Labels and variables are added to it, and a name once bound keeps
its address.

## Main definitions

* `SymbolTable`: Names with their addresses.
* `SymbolTable.find?`, `SymbolTable.bind`: Asking and adding.
* `predefinedSymbols`: The names of the machine.
* `SymbolTable.predefined`: The table that every program starts with.

## Theorems

* `SymbolTable.find?_bind`: A bound name has its address, others keep theirs.
-/

namespace HackVM

/-- Names with the addresses they stand for. -/
structure SymbolTable where
  entries : Std.TreeMap String Word

namespace SymbolTable

/-- The table without names. -/
def empty : SymbolTable :=
  { entries := ∅ }

/-- The address of a name. -/
def find? (table : SymbolTable) (name : String) : Option Word :=
  table.entries[name]?

/-- Let a name stand for an address. -/
def bind (table : SymbolTable) (name : String) (address : Word) : SymbolTable :=
  { entries := table.entries.insert name address }

/-- The names and their addresses, in the order of the names. -/
def toList (table : SymbolTable) : List (String × Word) :=
  table.entries.toList

/-- A bound name has its address, and every other name keeps its own. -/
theorem find?_bind (table : SymbolTable) (name other : String) (address : Word) :
    (table.bind name address).find? other =
      if name = other then some address else table.find? other := by
  simp only [find?, bind, Std.TreeMap.getElem?_insert, Std.LawfulEqOrd.compare_eq_iff_eq]

end SymbolTable

/-- The names of the machine: pointers, devices and registers. -/
def predefinedSymbols : List (String × Word) :=
  [("SP", 0), ("LCL", 1), ("ARG", 2), ("THIS", 3), ("THAT", 4), ("SCREEN", 16384),
    ("KBD", 24576), ("R0", 0), ("R1", 1), ("R2", 2), ("R3", 3), ("R4", 4), ("R5", 5), ("R6", 6),
    ("R7", 7), ("R8", 8), ("R9", 9), ("R10", 10), ("R11", 11), ("R12", 12), ("R13", 13),
    ("R14", 14), ("R15", 15)]

/-- The table that every program starts with. -/
def SymbolTable.predefined : SymbolTable :=
  predefinedSymbols.foldl (fun table entry => table.bind entry.1 entry.2) .empty

/-- The name belongs to the machine. -/
def isPredefined (name : String) : Bool :=
  predefinedSymbols.any fun entry => entry.1 == name

end HackVM
