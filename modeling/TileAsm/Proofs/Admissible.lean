import TileAsm.Proofs.Rereading
import TileAsm.Proofs.StringOperands

/-!
# The instructions that sources can hold

`Instruction.Admissible` lists the instructions that a source can hold, one constructor for each
form of them. It is put in terms of the data alone: names are made of ranges of characters, operands
have one of the modes that their place allows and no value, strings are printable. Nothing in it
refers to a reader.

The list is exact. That nothing else gets through is shown here: `Instruction.WellFormed.admissible`
collects what the readers of the single operands check. That nothing is missing is shown by writing
admissible instructions down.
-/

namespace TileAsm

open Text

/-! ### Names -/

namespace Name

/-- A name that is spelled as it has to be: a letter that tells what is named, and one or more ASCII
letters, digits and underscores. -/
def IsSpelled (first : Char) (name : String) : Prop :=
  ∃ word : List Char, word ≠ [] ∧
    (∀ c ∈ word, ('A' ≤ c ∧ c ≤ 'Z') ∨ ('a' ≤ c ∧ c ≤ 'z') ∨ ('0' ≤ c ∧ c ≤ '9') ∨ c = '_') ∧
    name.toList = first :: word

/-- The word characters, as ranges of characters. -/
theorem isWordChar_iff {c : Char} :
    isWordChar c = true ↔
      ('A' ≤ c ∧ c ≤ 'Z') ∨ ('a' ≤ c ∧ c ≤ 'z') ∨ ('0' ≤ c ∧ c ≤ '9') ∨ c = '_' := by
  have hupper : c.isUpper = true ↔ 'A' ≤ c ∧ c ≤ 'Z' := decide_eq_true_iff
  have hlower : c.isLower = true ↔ 'a' ≤ c ∧ c ≤ 'z' := by
    refine Bool.and_eq_true_iff.trans ?_
    exact and_congr decide_eq_true_iff decide_eq_true_iff
  have hdigit : c.isDigit = true ↔ '0' ≤ c ∧ c ≤ '9' := by
    refine Bool.and_eq_true_iff.trans ?_
    exact and_congr decide_eq_true_iff decide_eq_true_iff
  show (((c.isUpper || c.isLower) || c.isDigit) || c == '_') = true ↔ _
  rw [Bool.or_eq_true, Bool.or_eq_true, Bool.or_eq_true, hupper, hlower, hdigit, beq_iff_eq,
    or_assoc, or_assoc]

/-- The names that are spelled as they have to be are those that the readers take. -/
theorem isSpelled_iff {first : Char} {name : String} :
    IsSpelled first name ↔ isName first name.toList = true := by
  simp only [IsSpelled, isName_iff, isWordChar_iff]

/-- A name that is spelled as it has to be can be cut out of a line. -/
theorem IsSpelled.isToken {first : Char} {name : String} (h : IsSpelled first name)
    (hfirst : isTokenChar first = true) : IsToken name.toList :=
  isToken_of_isName hfirst (isSpelled_iff.1 h)

end Name

/-! ### Instructions -/

/-- A register operand at a place that takes the given modes. -/
structure RegisterRef.IsOperand (modes : List RegisterMode) (r : RegisterRef) : Prop where
  /-- The name is that of a register. -/
  name : Name.IsSpelled 'r' r.name
  /-- The register is used in one of the modes. -/
  mode : r.mode ∈ modes
  /-- The register is not known yet. -/
  value : r.value = none

/-- The instructions that a source can hold. -/
inductive Instruction.Admissible : Instruction → Prop
  /-- A label. -/
  | label {name : String} {doc : List String} (hname : Name.IsSpelled 'l' name) :
    Admissible (.label name doc)
  /-- An instruction without operands. -/
  | bare {op : Opcode} (hop : op.shape = .bare) : Admissible (.bare op)
  /-- Arithmetic with a direct register. -/
  | register {op : Opcode} {r : RegisterRef} (hop : op.shape = .register)
    (hr : r.IsOperand [.direct]) : Admissible (.register op r)
  /-- A jump to a label whose address is not known yet. -/
  | address {op : Opcode} {label : String} (hop : op.shape = .address)
    (hlabel : Name.IsSpelled 'l' label) : Admissible (.address op { label })
  /-- A number to be stored. -/
  | storeLiteral {b : UInt8} {dest : RegisterRef} (hdest : dest.IsOperand [.direct, .indirect]) :
    Admissible (.pair .stor (.literal b) dest)
  /-- The number of a register to be stored. -/
  | storeNumber {r dest : RegisterRef} (hr : r.IsOperand [.addressOf])
    (hdest : dest.IsOperand [.direct, .indirect]) : Admissible (.pair .stor (.register r) dest)
  /-- Any other instruction on two registers. -/
  | pair {op : Opcode} {r dest : RegisterRef} (hop : op.shape = .pair) (hstor : op ≠ .stor)
    (hr : r.IsOperand [.direct, .indirect]) (hdest : dest.IsOperand [.direct, .indirect]) :
    Admissible (.pair op (.register r) dest)
  /-- One of the 64 tiles. -/
  | tile {id : UInt8} {rows : TileRows} (hid : id.toNat ≤ 63) : Admissible (.tile id rows)
  /-- A text of printable characters, with a terminator. -/
  | text {r : RegisterRef} {chars : List UInt8} (hr : r.IsOperand [.direct, .indirect])
    (hchars : chars.all isStringByte = true) (hlength : (chars ++ [0]).length ≤ 128) :
    Admissible (.text r (chars ++ [0]))
  /-- One or more such texts, with one more terminator behind them. -/
  | selector {r : RegisterRef} {options : List (List UInt8)}
    (hr : r.IsOperand [.direct, .indirect]) (hne : options ≠ [])
    (hchars : ∀ o ∈ options, o.all isStringByte = true)
    (hlength : (options.map (· ++ [0])).flatten.length + 1 ≤ 128) :
    Admissible (.selector r (options.map (· ++ [0])))

/-! ### What gets through is admissible -/

/-- A register without `&` may stand wherever a value is taken from or stored. -/
theorem RegisterRef.WellFormed.isOperand {r : RegisterRef} (h : r.WellFormed)
    (hmode : r.mode ≠ .addressOf) (hvalue : r.value = none) :
    r.IsOperand [.direct, .indirect] := by
  refine ⟨Name.isSpelled_iff.2 h, ?_, hvalue⟩
  cases hr : r.mode with
  | addressOf => exact absurd hr hmode
  | _ => simp

/-- **What the readers let through is admissible.** Each constructor of `WellFormed` meets the one
of its own form, except for pairs: what a pair may take from depends on whether it stores. -/
theorem Instruction.WellFormed.admissible {i : Instruction} (h : i.WellFormed)
    (hunbound : i.Unbound) : i.Admissible := by
  obtain ⟨hregisters, htarget⟩ := hunbound
  cases h with
  | label hname => exact .label (Name.isSpelled_iff.2 hname)
  | bare hop => exact .bare hop
  | @register op r hop hr hmode =>
    exact .register hop ⟨Name.isSpelled_iff.2 hr, by simp [hmode],
      hregisters r (List.mem_singleton_self r)⟩
  | @address op t hop hname =>
    obtain ⟨label, value⟩ := t
    obtain rfl : value = none := htarget _ rfl
    exact .address hop (Name.isSpelled_iff.2 hname)
  | @pair op source dest hop hsource hdest hmode =>
    have hvalue : dest.value = none := hregisters dest (by simp [Instruction.registers])
    have hdest := hdest.isOperand hmode hvalue
    cases source with
    | literal b =>
      obtain rfl : op = .stor := hsource
      exact .storeLiteral hdest
    | register r =>
      obtain ⟨hr, hstor⟩ := hsource
      have hvalue : r.value = none := hregisters r (List.mem_cons_self ..)
      by_cases hop' : op = .stor
      · rw [hop']
        exact .storeNumber ⟨Name.isSpelled_iff.2 hr, by simp [hstor.2 hop'], hvalue⟩ hdest
      · exact .pair hop hop' (hr.isOperand (fun hmode ↦ hop' (hstor.1 hmode)) hvalue) hdest
  | tile hid => exact .tile hid
  | @text r bytes hr hmode hbytes hlength =>
    obtain ⟨chars, rfl, hchars⟩ := hbytes
    exact .text (hr.isOperand hmode (hregisters r (List.mem_singleton_self r))) hchars hlength
  | @selector r options hr hmode hne hoptions hlength =>
    have hterminated := IsTerminated.map_dropLast_append fun o ho ↦ (hoptions o ho).isTerminated
    rw [← hterminated] at hoptions hlength ⊢
    have hr := hr.isOperand hmode (hregisters r (List.mem_singleton_self r))
    refine .selector hr (by simpa using hne) (fun o ho ↦ ?_) hlength
    exact (hoptions _ (List.mem_map_of_mem ho)).all_isStringByte

end TileAsm
