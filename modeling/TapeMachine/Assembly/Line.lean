import TapeMachine.Assembly.Literal

/-!
# Lines of source

A line is a number of labels, then possibly a statement, then possibly a comment.

* `stripComment` drops the comment; a semicolon inside quotes starts none, which `Scan` keeps track
  of;
* `splitLabels` takes the labels off the front;
* `parseStatement` reads an instruction or a directive with its operands;
* `Line.parse` puts them together.  It does not know the other lines, so labels stay names.
-/

namespace TapeMachine

namespace Assembly

/-! ### Comments -/

/-- Where a scan of a line stands with respect to quotes. -/
inductive Scan
  /-- Outside any literal. -/
  | outside
  /-- Inside a literal that ends at the next `quote`. -/
  | inside (quote : Char)
  /-- Behind a backslash inside such a literal. -/
  | escaped (quote : Char)
  deriving DecidableEq, Repr

/-- Where the scan stands after a character. -/
def Scan.next : Scan → Char → Scan
  | outside, c => if c = '\x22' ∨ c = '\x27' then inside c else outside
  | inside q, c => if c = '\x5c' then escaped q else if c = q then outside else inside q
  | escaped q, _ => inside q

/-- Where the scan stands after a text. -/
def Scan.after (s : Scan) (cs : List Char) : Scan := cs.foldl Scan.next s

/-- Drop everything from the first semicolon outside quotes on. -/
def dropComment : Scan → List Char → List Char
  | _, [] => []
  | s, c :: cs => if s = .outside ∧ c = ';' then [] else c :: dropComment (s.next c) cs

/-- A line without its comment. -/
def stripComment (line : List Char) : List Char := dropComment .outside line

/-! ### Labels -/

/-- Whether a character can start an identifier. -/
def isIdentifierStart (c : Char) : Bool := c.isAlpha || c = '_'

/-- Whether a character can stand in an identifier. -/
def isIdentifierPart (c : Char) : Bool := c.isAlphanum || c = '_' || c = '.'

/-- Whether a text is an identifier: an ASCII letter or underscore, then ASCII letters, digits,
underscores and dots. -/
def isIdentifier : List Char → Bool
  | [] => false
  | c :: cs => isIdentifierStart c && cs.all isIdentifierPart

/-- The text before the first colon and the text behind it. -/
def splitColon : List Char → Option (List Char × List Char)
  | [] => none
  | c :: cs =>
    if c = ':' then some ([], cs) else (splitColon cs).map fun (name, rest) => (c :: name, rest)

theorem length_splitColon {cs name rest : List Char} (h : splitColon cs = some (name, rest)) :
    rest.length < cs.length := by
  induction cs generalizing name with
  | nil => simp [splitColon] at h
  | cons c cs ih =>
    simp only [splitColon] at h
    split at h
    · simp only [Option.some.injEq, Prod.mk.injEq] at h
      simp [← h.2]
    · simp only [Option.map_eq_some_iff, Prod.exists, Prod.mk.injEq] at h
      obtain ⟨n, r, hs, -, rfl⟩ := h
      have := ih hs
      simp only [List.length_cons]
      omega

/-- Take the labels off the front of a line: identifiers, each with a colon directly behind it and
blanks between one label and the next. -/
def splitLabels (cs : List Char) : List String × List Char :=
  match h : splitColon cs with
  | none => ([], cs)
  | some (name, rest) =>
    have : (Text.trimStart rest).length < cs.length :=
      Nat.lt_of_le_of_lt (List.dropWhile_suffix _).length_le (length_splitColon h)
    if isIdentifier name then
      let (names, body) := splitLabels (Text.trimStart rest)
      (String.ofList name :: names, body)
    else ([], cs)
  termination_by cs.length

/-! ### Statements -/

/-- The operand of an instruction or an item of a list of words. -/
inductive Operand
  /-- The address of a label. -/
  | label (name : String)
  /-- A value. -/
  | value (v : Word)
  deriving DecidableEq, Repr

/-- The operand a text spells. -/
def Operand.parse (cs : List Char) : Except Problem Operand :=
  if isIdentifier cs then .ok (.label (String.ofList cs)) else (parseValue cs).map .value

/-- What a line can ask for. -/
inductive Statement
  /-- An instruction without an immediate. -/
  | plain (op : Opcode)
  /-- An instruction and its immediate. -/
  | immediate (op : Opcode) (x : Operand)
  /-- Go on at an address. -/
  | origin (address : Nat)
  /-- Data words. -/
  | words (xs : List Operand)
  /-- Data bytes. -/
  | bytes (data : List UInt8)
  /-- The bytes of a text. -/
  | string (text : String)
  deriving DecidableEq, Repr

/-- The pieces of a text between commas. -/
def splitCommas : List Char → List (List Char)
  | [] => [[]]
  | c :: cs =>
    if c = ',' then [] :: splitCommas cs
    else
      match splitCommas cs with
      | piece :: pieces => (c :: piece) :: pieces
      | [] => [[c]]

/-- The items of a comma-separated list, none of which may be empty. -/
def parseItems (cs : List Char) : Except Problem (List (List Char)) :=
  let items := (splitCommas cs).map Text.trim
  if items.any List.isEmpty then .error .emptyItem else .ok items

/-- The byte of a value from -128 to 255. -/
def parseByte (cs : List Char) : Except Problem UInt8 := do
  let v ← parseValue cs
  if -128 ≤ v.toInt ∧ v.toInt ≤ 255 then return UInt8.ofInt v.toInt else .error (.notAByte v)

/-- The instruction a line names. -/
def parseInstruction (name operand : List Char) : Except Problem Statement :=
  match Opcode.ofMnemonic? name with
  | none => .error (.unknownMnemonic (String.ofList name))
  | some op =>
    if op.hasImmediate then
      if operand.isEmpty then .error (.missingOperand op)
      else (Operand.parse operand).map (.immediate op)
    else if operand.isEmpty then .ok (.plain op)
    else .error (.unwantedOperand op)

/-- The directive a line names, without the dot in front of the name. -/
def parseDirective (name operand : List Char) : Except Problem Statement :=
  let name := String.ofList (name.map Char.toLower)
  if name = "org" then do
    let v ← parseValue operand
    if v < 0 then .error .negativeOrigin else return .origin v.toInt.toNat
  else if name = "word" then do
    let items ← parseItems operand
    return .words (← items.mapM Operand.parse)
  else if name = "byte" then do
    let items ← parseItems operand
    return .bytes (← items.mapM parseByte)
  else if name = "string" then do
    return .string (String.ofList (← parseString operand))
  else .error (.unknownDirective name)

/-- The statement on a line, after its labels: a name, and behind white space its operand. -/
def parseStatement (cs : List Char) : Except Problem Statement :=
  let name := cs.takeWhile (!Text.isBlank ·)
  let operand := Text.trim (cs.dropWhile (!Text.isBlank ·))
  match name with
  | '.' :: directive => parseDirective directive operand
  | _ => parseInstruction name operand

/-- A line of source. -/
structure Line where
  /-- The labels in front. -/
  labels : List String
  /-- The statement, if there is one, or what is wrong with it. -/
  body : Except Problem (Option Statement)

/-- Read a line. -/
def Line.parse (cs : List Char) : Line :=
  let (labels, rest) := splitLabels (Text.trim (stripComment cs))
  { labels, body := if rest.isEmpty then .ok none else (parseStatement rest).map some }

end Assembly

end TapeMachine
