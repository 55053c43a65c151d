import TileAsm.Name
import TileAsm.Operand.Literal

/-!
# References to registers and labels

An operand names a register or a label and is **unbound** when it is read. Binding gives it the
byte or the address to encode; binding it again replaces that value. Which names are bound to what
is decided for the whole program at once, so a reference keeps its name.

* `RegisterRef` is a register with one of three modes. An indirect register is encoded with the
  high bit of its byte set.
* `LabelRef` is the target of a jump.
* `Source` is what a value is taken from: a literal byte or a register.
-/

namespace TileAsm

/-! ### Registers -/

/-- How an operand uses the register it names. -/
inductive RegisterMode where
  /-- The register itself, written `rname`. -/
  | direct
  /-- The register whose number the named one holds, written `*rname`. -/
  | indirect
  /-- The number of the register, written `&rname`. -/
  | addressOf
  deriving DecidableEq, Repr, Inhabited

/-- The mark in front of the name. -/
def RegisterMode.mark : RegisterMode → String
  | .direct => ""
  | .indirect => "*"
  | .addressOf => "&"

/-- The byte that stands for the register with a given number. -/
def RegisterMode.encode : RegisterMode → UInt8 → UInt8
  | .indirect, number => number ||| 0x80
  | .direct, number => number
  | .addressOf, number => number

/-- A register operand. -/
structure RegisterRef where
  /-- The name, without a mark. -/
  name : String
  /-- How the register is used. -/
  mode : RegisterMode
  /-- The byte to encode, once it is known. -/
  value : Option UInt8 := none
  deriving DecidableEq, Repr, Inhabited

namespace RegisterRef

/-- Reads a direct or an indirect register. -/
def parse (text : List Char) : Except ParseError RegisterRef :=
  let (name, mode) : List Char × RegisterMode := match text with
    | '*' :: name => (name, .indirect)
    | name => (name, .direct)
  if Name.isRegister name then .ok { name := String.ofList name, mode }
  else .error (.notRegister (String.ofList text))

/-- The operand as it is written. -/
def written (r : RegisterRef) : String := r.mode.mark ++ r.name

/-- Gives the operand the byte of the register with the given number. -/
def bindTo (r : RegisterRef) (number : UInt8) : RegisterRef :=
  { r with value := some (r.mode.encode number) }

/-- Binds the operand if it names the given register. -/
def bind (r : RegisterRef) (name : String) (number : UInt8) : RegisterRef :=
  if r.name = name then r.bindTo number else r

/-- Whether the operand has its byte. -/
def isResolved (r : RegisterRef) : Bool := r.value.isSome

/-- The byte of the operand, which has to be bound. -/
def resolved (r : RegisterRef) : Except AsmError UInt8 :=
  match r.value with
  | some b => .ok b
  | none => .error (.unresolved r.written)

end RegisterRef

/-! ### Labels -/

/-- A label operand. -/
structure LabelRef where
  /-- The name of the label. -/
  label : String
  /-- The address to encode, once it is known. -/
  value : Option UInt16 := none
  deriving DecidableEq, Repr, Inhabited

namespace LabelRef

/-- Reads a label. -/
def parse (text : List Char) : Except ParseError LabelRef :=
  if Name.isLabel text then .ok { label := String.ofList text }
  else .error (.notLabel (String.ofList text))

/-- Gives the operand its address. -/
def bindTo (l : LabelRef) (offset : UInt16) : LabelRef := { l with value := some offset }

/-- Binds the operand if it names the given label. -/
def bind (l : LabelRef) (label : String) (offset : UInt16) : LabelRef :=
  if l.label = label then l.bindTo offset else l

/-- Whether the operand has its address. -/
def isResolved (l : LabelRef) : Bool := l.value.isSome

/-- The address of the operand, which has to be bound. -/
def resolved (l : LabelRef) : Except AsmError UInt16 :=
  match l.value with
  | some a => .ok a
  | none => .error (.unresolved l.label)

end LabelRef

/-! ### Sources -/

/-- The first operand of an instruction that moves a value. -/
inductive Source where
  /-- The byte itself. -/
  | literal (value : UInt8)
  /-- A register. -/
  | register (ref : RegisterRef)
  deriving DecidableEq, Repr, Inhabited

namespace Source

/-- Reads an immediate value: a number, or the number of a register. What starts with `&` and
does not go on with a register is no number. -/
def parseImmediate (text : List Char) : Except ParseError Source :=
  match text with
  | '&' :: name =>
    if Name.isRegister name then .ok (.register { name := String.ofList name, mode := .addressOf })
    else .error (.notNumber (String.ofList text))
  | _ => (Literal.parse text).map .literal

/-- The register that the source names, if it names one. -/
def register? : Source → Option RegisterRef
  | .literal _ => none
  | .register r => some r

/-- Applies a function to the register of a source; a literal stays as it is. -/
def mapRegister (f : RegisterRef → RegisterRef) : Source → Source
  | .literal b => .literal b
  | .register r => .register (f r)

/-- The byte of a source. A literal always has one. -/
def resolved : Source → Except AsmError UInt8
  | .literal b => .ok b
  | .register r => r.resolved

end Source

end TileAsm
