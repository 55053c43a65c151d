/-!
# Command-line arguments

The words of a command line are options and operands in any order. An option is written `--name`,
and some have a letter too; letters without values may share one dash. The value of an option is
the rest of its word, behind `=` or directly behind the letter, or else the next word, which then
must not look like an option. After `--` every word is an operand.

The words are read in order, and reading stops at the first that makes no sense. What they mean
together is for each command to decide, in the same order: so the first fault counts.
-/

namespace TileAsm.Command

/-- An option of a command, known to it by a key. -/
structure OptionForm (κ : Type) where
  /-- What the option is to the command. -/
  key : κ
  /-- The name behind two dashes. -/
  name : String
  /-- The letter behind one dash. -/
  letter? : Option Char := none
  /-- Whether the option has a value. -/
  takesValue : Bool := false

/-- What a word of a command line says, or two words. -/
inductive Argument (κ : Type) where
  /-- An option without a value. -/
  | flag (key : κ)
  /-- An option with its value. -/
  | setting (key : κ) (value : String)
  /-- A word that is no option. -/
  | operand (word : String)
  /-- Something that makes no sense. -/
  | invalid
  deriving DecidableEq, Repr, Inhabited

namespace Argument

variable {κ : Type}

/-- What is known after reading one word. -/
inductive Reading (κ : Type) where
  /-- The word is complete. -/
  | complete (arguments : List (Argument κ))
  /-- The word ends in an option whose value is the next word. -/
  | wantsValue (arguments : List (Argument κ)) (key : κ)

/-- Reads a word behind two dashes. -/
def readLong (forms : List (OptionForm κ)) (word : List Char) : Reading κ :=
  let name := String.ofList (word.takeWhile (· != '='))
  match forms.find? (·.name == name), word.dropWhile (· != '=') with
  | none, _ => .complete [.invalid]
  | some form, [] => if form.takesValue then .wantsValue [] form.key else .complete [.flag form.key]
  | some form, _ :: value =>
    if form.takesValue then .complete [.setting form.key (String.ofList value)]
    else .complete [.invalid]

/-- Reads the letters behind one dash, after those in `found`. -/
def readLetters (forms : List (OptionForm κ)) (found : List (Argument κ)) : List Char → Reading κ
  | [] => .complete found
  | c :: rest =>
    match forms.find? (·.letter? == some c) with
    | none => .complete (found ++ [.invalid])
    | some form =>
      if form.takesValue then
        match rest with
        | [] => .wantsValue found form.key
        | '=' :: value => .complete (found ++ [.setting form.key (String.ofList value)])
        | value => .complete (found ++ [.setting form.key (String.ofList value)])
      else readLetters forms (found ++ [.flag form.key]) rest

/-- Reads one word. A single dash is an operand. -/
def readWord (forms : List (OptionForm κ)) (word : String) : Reading κ :=
  match word.toList with
  | '-' :: '-' :: long => readLong forms long
  | '-' :: c :: letters => readLetters forms [] (c :: letters)
  | _ => .complete [.operand word]

/-- Whether a word can be the value of the option before it. -/
def isValue (word : String) : Bool :=
  match word.toList with
  | '-' :: _ :: _ => false
  | _ => true

/-- Reads the words of a command line. -/
def ofWords (forms : List (OptionForm κ)) : List String → List (Argument κ)
  | [] => []
  | word :: rest =>
    if word = "--" then rest.map .operand
    else match readWord forms word with
      | .complete arguments => arguments ++ ofWords forms rest
      | .wantsValue arguments key =>
        match rest with
        | [] => arguments ++ [.invalid]
        | value :: rest =>
          if isValue value then arguments ++ .setting key value :: ofWords forms rest
          else arguments ++ [.invalid]

end Argument

/-- Reads a size: decimal digits, with a plus sign or without, below 2^64. -/
def size? (text : String) : Option Nat :=
  let digits := match text.toList with
    | '+' :: digits => digits
    | digits => digits
  if digits.isEmpty || !digits.all Char.isDigit then none
  else
    let n := digits.foldl (fun n c ↦ n * 10 + (c.toNat - '0'.toNat)) 0
    if n < UInt64.size then some n else none

end TileAsm.Command
