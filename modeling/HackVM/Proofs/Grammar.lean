import HackVM.Proofs.Lexical

/-!
# The Grammar of Commands

Which lines are commands, and what is wrong with the others.

The grammar says how each command is written and says nothing of errors. Beside
it stands the list of faults, in the order in which they are looked for: a line
has a fault only if nothing in front of it in the list is wrong, so that every
line with several mistakes has one fault. Both are stated for lists of tokens,
and in terms of what numbers and names are, not of how they are read.

That every list of tokens follows the grammar or has a fault is a fact about the
two descriptions alone. Reading is compared with each of them in one direction:
what follows the grammar is read, and what has a fault is refused for it. The
other directions come from there being no third case.

## Main definitions

* `Command.segmentWords`, `Command.operationWords`: The words for segments and
  operations.
* `Command.Takes`: The keywords, with their number of operands.
* `Command.Shaped`: How commands are written.
* `Command.limit?`: The limit of an index or count.
* `Command.Spelled`: The grammar of commands.
* `Command.Fault`: What is wrong with a line.

## Theorems

* `Command.segment_ofKeyword?_iff`, `Command.operation_ofKeyword?_iff`: Reading
  knows these words.
* `Command.spelled_or_fault`: A line follows the grammar or has a fault.
* `Command.ofWords_of_spelled`: What follows the grammar is read.
* `Command.ofWords_of_fault`: What has a fault is refused for it.
* `parse_iff_grammar`: Reading accepts the grammar and reports the faults.
-/

namespace HackVM

namespace Command

/-- The words for segments. -/
def segmentWords : List (String × Segment) :=
  [("constant", .constant), ("static", .static), ("local", .locals), ("argument", .arguments),
    ("this", .this), ("that", .that), ("temp", .temp), ("pointer", .pointer)]

/-- The words for operations. -/
def operationWords : List (String × Operation) :=
  [("add", .add), ("sub", .sub), ("neg", .neg), ("eq", .eq), ("gt", .gt), ("lt", .lt),
    ("and", .and), ("or", .or), ("not", .not)]

/-- The keywords, each with the number of operands behind it. -/
inductive Takes : String → Nat → Prop
  | push : Takes "push" 2
  | pop : Takes "pop" 2
  | label : Takes "label" 1
  | goto : Takes "goto" 1
  | ifGoto : Takes "if-goto" 1
  | function : Takes "function" 2
  | call : Takes "call" 2
  | ret : Takes "return" 0
  | arithmetic {word : String} {op : Operation} : (word, op) ∈ operationWords → Takes word 0

/-- How commands are written, limits aside. A constant is no place for a pop. -/
inductive Shaped : List String → Command → Prop
  | push {word text : String} {segment : Segment} {index : Word} :
      (word, segment) ∈ segmentWords → IsNumber text index →
      Shaped ["push", word, text] (.push segment index)
  | pop {word text : String} {segment : Segment} {index : Word} :
      (word, segment) ∈ segmentWords → segment ≠ .constant → IsNumber text index →
      Shaped ["pop", word, text] (.pop segment index)
  | label {name : String} : IsSymbolName name → Shaped ["label", name] (.label name)
  | goto {name : String} : IsSymbolName name → Shaped ["goto", name] (.goto name)
  | ifGoto {name : String} : IsSymbolName name → Shaped ["if-goto", name] (.ifGoto name)
  | function {name text : String} {locals : Word} : IsSymbolName name → IsNumber text locals →
      Shaped ["function", name, text] (.function name locals)
  | call {name text : String} {args : Word} : IsSymbolName name → IsNumber text args →
      Shaped ["call", name, text] (.call name args)
  | ret : Shaped ["return"] .ret
  | arithmetic {word : String} {op : Operation} : (word, op) ∈ operationWords →
      Shaped [word] (.arithmetic op)

/-- The limit of a command, if it has one: what is limited, its value, and the
    greatest value it may have. -/
def limit? : Command → Option (String × Word × Word)
  | .push .constant index | .pop .constant index => some ("constant", index, 32767)
  | .push .temp index | .pop .temp index => some ("temp", index, 7)
  | .push .pointer index | .pop .pointer index => some ("pointer", index, 1)
  | .call _ args => some ("call", args, 32762)
  | _ => none

/-- The grammar of commands: tokens of the right shape, within the limit. -/
structure Spelled (tokens : List String) (command : Command) : Prop where
  shape : Shaped tokens command
  range : ∀ what value max, command.limit? = some (what, value, max) → value.toNat ≤ max.toNat

/-- What is wrong with tokens, if nothing is wrong that is looked for earlier. -/
inductive Fault : List String → CommandError → Prop
  | blank : Fault [] (.unknownCommand "")
  | keyword {keyword : String} {operands : List String} : (∀ count, ¬Takes keyword count) →
      Fault (keyword :: operands) (.unknownCommand keyword)
  | count {keyword : String} {operands : List String} {count : Nat} : Takes keyword count →
      operands.length ≠ count →
      Fault (keyword :: operands) (.wrongOperandCount keyword count operands.length)
  | segment {keyword word text : String} : keyword = "push" ∨ keyword = "pop" →
      (∀ segment, (word, segment) ∉ segmentWords) →
      Fault [keyword, word, text] (.unsupportedSegment keyword word)
  | place {keyword name : String} : keyword = "label" ∨ keyword = "goto" ∨ keyword = "if-goto" →
      ¬IsSymbolName name → Fault [keyword, name] (.invalidName name)
  | name {keyword name text : String} : keyword = "function" ∨ keyword = "call" →
      ¬IsSymbolName name → Fault [keyword, name, text] (.invalidName name)
  | index {keyword word text : String} {segment : Segment} : keyword = "push" ∨ keyword = "pop" →
      (word, segment) ∈ segmentWords → (∀ value, ¬IsNumber text value) →
      Fault [keyword, word, text] (.invalidIndex text)
  | number {keyword name text : String} : keyword = "function" ∨ keyword = "call" →
      IsSymbolName name → (∀ value, ¬IsNumber text value) →
      Fault [keyword, name, text] (.invalidIndex text)
  | store {text : String} {index : Word} : IsNumber text index →
      Fault ["pop", "constant", text] .popConstant
  | range {tokens : List String} {command : Command} {what : String} {value max : Word} :
      Shaped tokens command → command.limit? = some (what, value, max) →
      max.toNat < value.toNat → Fault tokens (.indexOutOfRange what value max)

section Words

variable {word : String}

/-- A segment has one word, the one it is written with. -/
theorem mem_segmentWords_iff {segment : Segment} :
    (word, segment) ∈ segmentWords ↔ word = segment.keyword := by
  cases segment <;> simp [segmentWords, Segment.keyword]

/-- An operation has one word, the one it is written with. -/
theorem mem_operationWords_iff {op : Operation} :
    (word, op) ∈ operationWords ↔ word = op.keyword := by
  cases op <;> simp [operationWords, Operation.keyword]

/-- Reading finds the segment that a word stands for. -/
theorem segment_ofKeyword?_iff {segment : Segment} :
    Segment.ofKeyword? word = some segment ↔ (word, segment) ∈ segmentWords := by
  constructor
  · intro h
    unfold Segment.ofKeyword? at h
    split at h <;> cases h <;> decide
  · intro h
    rw [mem_segmentWords_iff.mp h]
    exact segment.ofKeyword?_keyword

/-- Reading finds the operation that a word stands for. -/
theorem operation_ofKeyword?_iff {op : Operation} :
    Operation.ofKeyword? word = some op ↔ (word, op) ∈ operationWords := by
  constructor
  · intro h
    unfold Operation.ofKeyword? at h
    split at h <;> cases h <;> decide
  · intro h
    rw [mem_operationWords_iff.mp h]
    exact op.ofKeyword?_keyword

end Words

section Cover

/-- The words behind `push` and `pop` are a segment and an index, or at fault. -/
theorem segment_operands_cover {keyword : String} (hkeyword : keyword = "push" ∨ keyword = "pop")
    (word text : String) :
    (∃ segment index, (word, segment) ∈ segmentWords ∧ IsNumber text index) ∨
      ∃ cause, Fault [keyword, word, text] cause := by
  by_cases hsegment : ∃ segment, (word, segment) ∈ segmentWords
  · rcases hsegment with ⟨segment, hword⟩
    by_cases hindex : ∃ index, IsNumber text index
    · rcases hindex with ⟨index, hindex⟩
      exact Or.inl ⟨segment, index, hword, hindex⟩
    · exact Or.inr ⟨_, .index hkeyword hword (not_exists.mp hindex)⟩
  · exact Or.inr ⟨_, .segment hkeyword (not_exists.mp hsegment)⟩

/-- The words behind `function` and `call` are a name and a number, or at fault. -/
theorem name_operands_cover {keyword : String} (hkeyword : keyword = "function" ∨ keyword = "call")
    (name text : String) :
    (∃ count, IsSymbolName name ∧ IsNumber text count) ∨
      ∃ cause, Fault [keyword, name, text] cause := by
  by_cases hname : IsSymbolName name
  · by_cases hcount : ∃ count, IsNumber text count
    · rcases hcount with ⟨count, hcount⟩
      exact Or.inl ⟨count, hname, hcount⟩
    · exact Or.inr ⟨_, .number hkeyword hname (not_exists.mp hcount)⟩
  · exact Or.inr ⟨_, .name hkeyword hname⟩

/-- The right number of operands behind a keyword makes a command, or a fault. -/
theorem shaped_or_fault_of_takes {keyword : String} {operands : List String}
    (h : Takes keyword operands.length) :
    (∃ command, Shaped (keyword :: operands) command) ∨
      ∃ cause, Fault (keyword :: operands) cause := by
  -- The number of operands tells which keywords are left.
  rcases operands with _ | ⟨first, _ | ⟨second, _ | ⟨third, rest⟩⟩⟩
  · cases h with
    | ret => exact Or.inl ⟨_, .ret⟩
    | arithmetic hword => exact Or.inl ⟨_, .arithmetic hword⟩
  · by_cases hname : IsSymbolName first
    · cases h with
      | label => exact Or.inl ⟨_, .label hname⟩
      | goto => exact Or.inl ⟨_, .goto hname⟩
      | ifGoto => exact Or.inl ⟨_, .ifGoto hname⟩
    · cases h with
      | label | goto | ifGoto => exact Or.inr ⟨_, .place (by decide) hname⟩
  · cases h with
    | push =>
        rcases @segment_operands_cover "push" (by decide) first second with
          ⟨segment, index, hword, hindex⟩ | hfault
        · exact Or.inl ⟨_, .push hword hindex⟩
        · exact Or.inr hfault
    | pop =>
        rcases @segment_operands_cover "pop" (by decide) first second with
          ⟨segment, index, hword, hindex⟩ | hfault
        · -- The store is looked at last, when segment and index are known.
          by_cases hplace : segment = .constant
          · rw [mem_segmentWords_iff.mp hword, hplace]
            exact Or.inr ⟨_, .store hindex⟩
          · exact Or.inl ⟨_, .pop hword hplace hindex⟩
        · exact Or.inr hfault
    | function =>
        rcases @name_operands_cover "function" (by decide) first second with
          ⟨count, hname, hcount⟩ | hfault
        · exact Or.inl ⟨_, .function hname hcount⟩
        · exact Or.inr hfault
    | call =>
        rcases @name_operands_cover "call" (by decide) first second with
          ⟨count, hname, hcount⟩ | hfault
        · exact Or.inl ⟨_, .call hname hcount⟩
        · exact Or.inr hfault
  · cases h

/-- Tokens follow the grammar or have a fault. -/
theorem spelled_or_fault (tokens : List String) :
    (∃ command, Spelled tokens command) ∨ ∃ cause, Fault tokens cause := by
  cases tokens with
  | nil => exact Or.inr ⟨_, .blank⟩
  | cons keyword operands =>
      by_cases hkeyword : ∃ count, Takes keyword count
      · rcases hkeyword with ⟨count, hkeyword⟩
        by_cases hcount : operands.length = count
        · subst hcount
          rcases shaped_or_fault_of_takes hkeyword with ⟨command, hshape⟩ | hfault
          · by_cases hrange : ∀ what value max,
                command.limit? = some (what, value, max) → value.toNat ≤ max.toNat
            · exact Or.inl ⟨command, hshape, hrange⟩
            · simp only [not_forall, Nat.not_le] at hrange
              rcases hrange with ⟨what, value, max, hlimit, hbeyond⟩
              exact Or.inr ⟨_, .range hshape hlimit hbeyond⟩
          · exact Or.inr hfault
        · exact Or.inr ⟨_, .count hkeyword hcount⟩
      · exact Or.inr ⟨_, .keyword (not_exists.mp hkeyword)⟩

end Cover

section Operands

variable {keyword text name word : String} {operands : List String} {value : Word}

theorem readIndex_of_isNumber (h : IsNumber text value) : readIndex text = .ok value := by
  rw [readIndex, ofNumeral?_eq_some_iff.mpr h]

theorem readIndex_of_not_isNumber (h : ∀ value, ¬IsNumber text value) :
    readIndex text = .error (.invalidIndex text) := by
  have hnone : Word.ofNumeral? text.toList = none := by
    rw [Option.eq_none_iff_forall_ne_some]
    intro value hvalue
    exact h value (ofNumeral?_eq_some_iff.mp hvalue)
  rw [readIndex, hnone]

theorem readName_of_isSymbolName (h : IsSymbolName name) : readName name = .ok name := by
  rw [readName, if_pos (isName_iff.mpr h)]

theorem readName_of_not_isSymbolName (h : ¬IsSymbolName name) :
    readName name = .error (.invalidName name) := by
  rw [readName, if_neg fun hname => h (isName_iff.mp hname)]

theorem readSegmentIndex_of_unknown (h : ∀ segment, (word, segment) ∉ segmentWords) :
    readSegmentIndex keyword [word, text] = .error (.unsupportedSegment keyword word) := by
  have hnone : Segment.ofKeyword? word = none := by
    rw [Option.eq_none_iff_forall_ne_some]
    intro segment hsegment
    exact h segment (segment_ofKeyword?_iff.mp hsegment)
  rw [readSegmentIndex, hnone]

theorem readSegmentIndex_of_mem {segment : Segment} (h : (word, segment) ∈ segmentWords) :
    readSegmentIndex keyword [word, text] = (readIndex text).map (segment, ·) := by
  rw [readSegmentIndex, segment_ofKeyword?_iff.mpr h]

theorem readSegmentIndex_of_length (h : operands.length ≠ 2) :
    readSegmentIndex keyword operands =
      .error (.wrongOperandCount keyword 2 operands.length) := by
  unfold readSegmentIndex
  split
  · exact absurd rfl h
  · rfl

theorem readPlace_of_length (h : operands.length ≠ 1) :
    readPlace keyword operands = .error (.wrongOperandCount keyword 1 operands.length) := by
  unfold readPlace
  split
  · exact absurd rfl h
  · rfl

theorem readNameCount_of_length (h : operands.length ≠ 2) :
    readNameCount keyword operands =
      .error (.wrongOperandCount keyword 2 operands.length) := by
  unfold readNameCount
  split
  · exact absurd rfl h
  · rfl

theorem readNothing_of_length (h : operands.length ≠ 0) :
    readNothing keyword operands = .error (.wrongOperandCount keyword 0 operands.length) := by
  unfold readNothing
  split
  · exact absurd rfl h
  · rfl

theorem readNameCount_of_isSymbolName (h : IsSymbolName name) :
    readNameCount keyword [name, text] = (readIndex text).map (name, ·) := by
  rw [readNameCount, readName_of_isSymbolName h]

theorem readNameCount_of_not_isSymbolName (h : ¬IsSymbolName name) :
    readNameCount keyword [name, text] = .error (.invalidName name) := by
  rw [readNameCount, readName_of_not_isSymbolName h]

end Operands

section Keywords

variable {keyword : String} {operands : List String}

theorem ofKeyword_operation {op : Operation} (h : (keyword, op) ∈ operationWords) :
    ofKeyword keyword operands = (readNothing keyword operands).map fun _ => .arithmetic op := by
  rw [mem_operationWords_iff.mp h]
  cases op <;> rfl

theorem ofKeyword_pop_of_error {cause : CommandError}
    (h : readSegmentIndex "pop" operands = .error cause) :
    ofKeyword "pop" operands = .error cause := by
  show (readSegmentIndex "pop" operands).bind storeInto = _
  rw [h]
  rfl

/-- A keyword that no command has is refused. -/
theorem ofKeyword_of_not_takes (h : ∀ count, ¬Takes keyword count) :
    ofKeyword keyword operands = .error (.unknownCommand keyword) := by
  have hnone : Operation.ofKeyword? keyword = none := by
    rw [Option.eq_none_iff_forall_ne_some]
    intro op hop
    exact h 0 (.arithmetic (operation_ofKeyword?_iff.mp hop))
  unfold ofKeyword
  split
  · exact absurd .push (h 2)
  · exact absurd .pop (h 2)
  · exact absurd .label (h 1)
  · exact absurd .goto (h 1)
  · exact absurd .ifGoto (h 1)
  · exact absurd .function (h 2)
  · exact absurd .call (h 2)
  · exact absurd .ret (h 0)
  · rw [hnone]

/-- A keyword with another number of operands is refused before they are read. -/
theorem ofKeyword_of_length {count : Nat} (hkeyword : Takes keyword count)
    (h : operands.length ≠ count) :
    ofKeyword keyword operands =
      .error (.wrongOperandCount keyword count operands.length) := by
  cases hkeyword with
  | push => exact map_eq_error_iff.mpr (readSegmentIndex_of_length h)
  | pop => exact ofKeyword_pop_of_error (readSegmentIndex_of_length h)
  | label | goto | ifGoto => exact map_eq_error_iff.mpr (readPlace_of_length h)
  | function | call => exact map_eq_error_iff.mpr (readNameCount_of_length h)
  | ret => exact map_eq_error_iff.mpr (readNothing_of_length h)
  | arithmetic hword =>
      rw [ofKeyword_operation hword]
      exact map_eq_error_iff.mpr (readNothing_of_length h)

end Keywords

section Reading

variable {tokens : List String} {command : Command}

theorem checkBounds_of_limit? {what : String} {value max : Word}
    (h : command.limit? = some (what, value, max)) :
    command.checkBounds = checkIndex what value max := by
  cases command with
  | push segment index | pop segment index =>
      cases segment with
      | constant | temp | pointer =>
          cases h
          rfl
      | _ => cases h
  | call name args =>
      cases h
      rfl
  | _ => cases h

theorem checkBounds_of_no_limit (h : command.limit? = none) : command.checkBounds = .ok () := by
  cases command with
  | push segment index | pop segment index =>
      cases segment with
      | constant | temp | pointer => cases h
      | _ => rfl
  | call name args => cases h
  | _ => rfl

/-- Tokens of the right shape are read, and what is left are the bounds. -/
theorem ofWords_of_shaped (h : Shaped tokens command) :
    ofWords tokens = command.checkBounds.map fun _ => command := by
  have hread : ∀ {keyword operands}, ofKeyword keyword operands = .ok command →
      ofWords (keyword :: operands) = command.checkBounds.map fun _ => command := by
    intro keyword operands hkeyword
    rw [ofWords, hkeyword]
    rfl
  cases h with
  | push hword hindex =>
      rename_i word text segment index
      refine hread (map_eq_ok_iff.mpr ⟨(segment, index), ?_, rfl⟩)
      rw [readSegmentIndex_of_mem hword, readIndex_of_isNumber hindex]
      rfl
  | pop hword hplace hindex =>
      rename_i word text segment index
      refine hread (bind_eq_ok_iff.mpr ⟨(segment, index), ?_, ?_⟩)
      · rw [readSegmentIndex_of_mem hword, readIndex_of_isNumber hindex]
        rfl
      · cases segment with
        | constant => exact absurd rfl hplace
        | _ => rfl
  | label hname | goto hname | ifGoto hname =>
      exact hread (map_eq_ok_iff.mpr ⟨_, readName_of_isSymbolName hname, rfl⟩)
  | function hname hcount | call hname hcount =>
      rename_i name text count
      refine hread (map_eq_ok_iff.mpr ⟨(name, count), ?_, rfl⟩)
      rw [readNameCount_of_isSymbolName hname, readIndex_of_isNumber hcount]
      rfl
  | ret => exact hread rfl
  | arithmetic hword => exact hread (ofKeyword_operation hword)

/-- What follows the grammar is read. -/
theorem ofWords_of_spelled (h : Spelled tokens command) : ofWords tokens = .ok command := by
  rw [ofWords_of_shaped h.shape]
  cases hlimit : command.limit? with
  | none =>
      rw [checkBounds_of_no_limit hlimit]
      rfl
  | some limit =>
      rcases limit with ⟨what, value, max⟩
      rw [checkBounds_of_limit? hlimit, checkIndex_eq_ok_iff.mpr (h.range what value max hlimit)]
      rfl

/-- What has a fault is refused for it. -/
theorem ofWords_of_fault {cause : CommandError} (h : Fault tokens cause) :
    ofWords tokens = .error cause := by
  have hrefused : ∀ {keyword operands}, ofKeyword keyword operands = .error cause →
      ofWords (keyword :: operands) = .error cause := by
    intro keyword operands hkeyword
    rw [ofWords, hkeyword]
    rfl
  cases h with
  | blank => rfl
  | keyword hkeyword => exact hrefused (ofKeyword_of_not_takes hkeyword)
  | count hkeyword hcount => exact hrefused (ofKeyword_of_length hkeyword hcount)
  | segment hkeyword hsegment =>
      rcases hkeyword with rfl | rfl
      · exact hrefused (map_eq_error_iff.mpr (readSegmentIndex_of_unknown hsegment))
      · exact hrefused (ofKeyword_pop_of_error (readSegmentIndex_of_unknown hsegment))
  | place hkeyword hname =>
      rcases hkeyword with rfl | rfl | rfl <;>
        exact hrefused (map_eq_error_iff.mpr (readName_of_not_isSymbolName hname))
  | name hkeyword hname =>
      rcases hkeyword with rfl | rfl <;>
        exact hrefused (map_eq_error_iff.mpr (readNameCount_of_not_isSymbolName hname))
  | index hkeyword hword hindex =>
      rcases hkeyword with rfl | rfl
      · refine hrefused (map_eq_error_iff.mpr ?_)
        rw [readSegmentIndex_of_mem hword, readIndex_of_not_isNumber hindex]
        rfl
      · refine hrefused (ofKeyword_pop_of_error ?_)
        rw [readSegmentIndex_of_mem hword, readIndex_of_not_isNumber hindex]
        rfl
  | number hkeyword hname hcount =>
      rcases hkeyword with rfl | rfl <;>
      · refine hrefused (map_eq_error_iff.mpr ?_)
        rw [readNameCount_of_isSymbolName hname, readIndex_of_not_isNumber hcount]
        rfl
  | store hindex =>
      -- The index is read before the place is looked at, and it is a number.
      refine hrefused ?_
      have hword : ("constant", Segment.constant) ∈ segmentWords := by decide
      show (readSegmentIndex "pop" ["constant", _]).bind storeInto = _
      rw [readSegmentIndex_of_mem hword, readIndex_of_isNumber hindex]
      rfl
  | range hshape hlimit hbeyond =>
      rw [ofWords_of_shaped hshape, checkBounds_of_limit? hlimit, checkIndex,
        if_neg (Nat.not_le_of_lt hbeyond)]
      rfl

end Reading

end Command

/-- Reading accepts the grammar of commands and reports the first fault of
    anything else. A line has one list of tokens, the runs between white space. It
    is read as a command exactly if the tokens spell that command, and it is
    refused for a cause exactly if that is their fault. -/
theorem parse_iff_grammar (line : String) :
    ∃ tokens, (∀ other, Text.Tokens line.toList other ↔ other = tokens) ∧
      (∀ command, Command.parse line = .ok command ↔ Command.Spelled tokens command) ∧
      ∀ cause, Command.parse line = .error cause ↔ Command.Fault tokens cause := by
  refine ⟨_, fun other => Text.tokens_iff, ?_, ?_⟩
  · intro command
    refine ⟨fun hparse => ?_, Command.ofWords_of_spelled⟩
    -- A fault would have been reported, and other tokens spell other commands.
    rcases Command.spelled_or_fault ((Text.words line.toList).map String.ofList) with
      ⟨other, hspelled⟩ | ⟨cause, hfault⟩
    · cases (Command.ofWords_of_spelled hspelled).symm.trans hparse
      exact hspelled
    · cases (Command.ofWords_of_fault hfault).symm.trans hparse
  · intro cause
    refine ⟨fun hparse => ?_, Command.ofWords_of_fault⟩
    rcases Command.spelled_or_fault ((Text.words line.toList).map String.ofList) with
      ⟨other, hspelled⟩ | ⟨cause', hfault⟩
    · cases (Command.ofWords_of_spelled hspelled).symm.trans hparse
    · cases (Command.ofWords_of_fault hfault).symm.trans hparse
      exact hfault

/-- Blanks and zeros in front make no difference, and of two faults the index is
    the first. -/
theorem parse_iff_grammar_looseLine :
    Command.parse "\tpush  local 007 " = .ok (.push .locals 7) ∧
      Command.parse "pop constant x" = .error (.invalidIndex "x") := by
  constructor
  · rcases parse_iff_grammar "\tpush  local 007 " with ⟨tokens, htokens, hread, -⟩
    have heq : ["push", "local", "007"] = tokens :=
      (htokens _).mp (Text.tokens_iff.mpr (by decide +kernel))
    have hnumber : IsNumber "007" 7 := ⟨by decide, by simp, by decide⟩
    refine (hread _).mpr ⟨heq ▸ .push (by decide) hnumber, ?_⟩
    intro what value max hlimit
    cases hlimit
  · rcases parse_iff_grammar "pop constant x" with ⟨tokens, htokens, -, hrefused⟩
    have heq : ["pop", "constant", "x"] = tokens :=
      (htokens _).mp (Text.tokens_iff.mpr (by decide +kernel))
    have hword : ("constant", Segment.constant) ∈ Command.segmentWords := by decide
    refine (hrefused _).mpr (heq ▸ .index (Or.inr rfl) hword ?_)
    rintro value ⟨-, hdigits, -⟩
    exact absurd (hdigits 'x' (by decide)) (by decide)

end HackVM
