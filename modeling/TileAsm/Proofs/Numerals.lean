import Mathlib.Data.List.Induction
import Mathlib.Data.Nat.Digits.Defs
import TileAsm.Decoded.Printer
import TileAsm.Operand.Reference
import TileAsm.Proofs.Tokens

/-!
# Numbers and registers read back as they are printed

Bytes are printed in hexadecimal, tile numbers in decimal, and registers under names made of their
numbers. Each of the three texts is a token, and its reader gives back what was printed.

For numbers this is one induction on the digits, for any base (`exists_digits_toDigits`): the digits
of `n` denote `n`, and the zeros that fill up a hexadecimal number do not count. So no two numbers
are printed alike (`hexDigits_inj`). Reading computes with bytes and drops what does not fit into
one, so what is read back is `n` modulo 256.

For registers it is `RegisterRef.parse_written`, for every direct or indirect register; the
register that a byte stands for is `RegisterRef.ofByte`, and `registerText` prints nothing else.
-/

namespace TileAsm

open Text

/-! ### Numbers -/

namespace Literal

/-- A digit is read back. -/
theorem digit?_digitChar {base d : Nat} (hbase : base ≤ 16) (hd : d < base) :
    digit? base d.digitChar = some d := by
  have hdigits : ∀ base ≤ 16, ∀ d < base, digit? base d.digitChar = some d := by decide
  exact hdigits base hbase d hd

theorem byteOfDigits_append (base : Nat) (digits : List Nat) (d : Nat) :
    byteOfDigits base (digits ++ [d]) =
      byteOfDigits base digits * UInt8.ofNat base + UInt8.ofNat d := by
  simp [byteOfDigits]

/-- Reading denotes the number that is written, modulo 256. -/
theorem byteOfDigits_eq_ofNat (base : Nat) (digits : List Nat) :
    byteOfDigits base digits = UInt8.ofNat (Nat.ofDigits base digits.reverse) := by
  induction digits using List.reverseRecOn with
  | nil => rfl
  | append_singleton digits d ih =>
    rw [byteOfDigits_append, ih, List.reverse_concat, Nat.ofDigits_cons, UInt8.ofNat_add,
      UInt8.ofNat_mul, UInt8.add_comm, UInt8.mul_comm]

/-- The digits of a number denote it. -/
theorem exists_digits_toDigits {base : Nat} (hone : 1 < base) (hbase : base ≤ 16) (n : Nat) :
    ∃ digits, (Nat.toDigits base n).mapM (digit? base) = some digits ∧
      Nat.ofDigits base digits.reverse = n := by
  induction n using Nat.strongRecOn with
  | ind n ih =>
    by_cases hn : n < base
    · refine ⟨[n], ?_, Nat.ofDigits_singleton⟩
      rw [Nat.toDigits_of_lt_base hn, List.mapM_cons, digit?_digitChar hbase hn]
      rfl
    · -- all digits but the last are those of the quotient
      have hlt : n / base < n := Nat.div_lt_self (by omega) hone
      have hmod : n % base < base := Nat.mod_lt n (by omega)
      obtain ⟨digits, hdigits, hvalue⟩ := ih (n / base) hlt
      refine ⟨digits ++ [n % base], ?_, ?_⟩
      · rw [Nat.toDigits_of_base_le hone (by omega), List.mapM_append, hdigits, List.mapM_cons,
          digit?_digitChar hbase hmod]
        rfl
      · rw [List.reverse_concat, Nat.ofDigits_cons, hvalue, Nat.mod_add_div]

/-- So do the digits that a hexadecimal number is filled up to. -/
theorem exists_digits_hexDigits (width n : Nat) :
    ∃ digits, (hexDigits width n).mapM (digit? 16) = some digits ∧
      Nat.ofDigits 16 digits.reverse = n := by
  obtain ⟨digits, hdigits, hvalue⟩ := exists_digits_toDigits (by decide) (Nat.le_refl 16) n
  have hzeros : ∀ k, (List.replicate k '0').mapM (digit? 16) = some (List.replicate k 0) := by
    intro k
    induction k with
    | zero => rfl
    | succ k ih =>
      rw [List.replicate_succ, List.mapM_cons, ih]
      rfl
  refine ⟨List.replicate (width - (Nat.toDigits 16 n).length) 0 ++ digits, ?_, ?_⟩
  · rw [hexDigits, List.leftpad, List.mapM_append, hzeros, hdigits]
    rfl
  · rw [List.reverse_append, List.reverse_replicate, Nat.ofDigits_append_replicate_zero, hvalue]

/-- No two numbers are printed alike. -/
theorem hexDigits_inj {width m n : Nat} (h : hexDigits width m = hexDigits width n) : m = n := by
  obtain ⟨digits, hdigits, hm⟩ := exists_digits_hexDigits width m
  obtain ⟨digits', hdigits', hn⟩ := exists_digits_hexDigits width n
  rw [h] at hdigits
  obtain rfl : digits = digits' := Option.some.inj (hdigits.symm.trans hdigits')
  exact hm.symm.trans hn

/-- A number is read if its base has been told and all of its characters are digits of it. -/
theorem parse_eq_ok_of_digits {text digits : List Char} {base : Nat} {values : List Nat}
    (hradix : radix text = (base, digits)) (hne : digits ≠ [])
    (hvalues : digits.mapM (digit? base) = some values) :
    parse text = .ok (byteOfDigits base values) := by
  have hempty : digits.isEmpty = false := by simpa using hne
  have hbyte : byte? text = some (byteOfDigits base values) := by
    rw [byte?, hradix]
    simp [hempty, hvalues]
  rw [parse, hbyte]

theorem hexDigits_ne_nil (width n : Nat) : hexDigits width n ≠ [] := by
  simp [hexDigits, List.leftpad, Nat.toDigits_ne_nil]

theorem toList_hex (width n : Nat) : (hex width n).toList = '0' :: 'x' :: hexDigits width n := by
  simp [hex]

theorem toList_hexByte (b : UInt8) : (hexByte b).toList = '0' :: 'x' :: hexDigits 2 b.toNat :=
  toList_hex 2 b.toNat

/-- A byte in hexadecimal reads back. -/
theorem parse_hexByte (b : UInt8) : parse (hexByte b).toList = .ok b := by
  obtain ⟨values, hvalues, hvalue⟩ := exists_digits_hexDigits 2 b.toNat
  have hradix : radix ('0' :: 'x' :: hexDigits 2 b.toNat) = (16, hexDigits 2 b.toNat) := rfl
  rw [toList_hexByte, parse_eq_ok_of_digits hradix (hexDigits_ne_nil 2 b.toNat) hvalues,
    byteOfDigits_eq_ofNat, hvalue, UInt8.ofNat_toNat]

/-- No two bytes are printed alike. -/
theorem hexByte_inj {b c : UInt8} (h : hexByte b = hexByte c) : b = c := by
  have hparse := parse_hexByte b
  rw [h, parse_hexByte] at hparse
  exact (Except.ok.inj hparse).symm

/-- A number of decimal digits only is not mistaken for one of another base. -/
theorem radix_of_isDigit {text : List Char} (h : ∀ c ∈ text, c.isDigit = true) :
    radix text = (10, text) := by
  unfold radix
  split
  · exact absurd (h 'b' (by simp)) (by decide)
  · exact absurd (h 'x' (by simp)) (by decide)
  · rfl

theorem isDigit_of_mem_toString {n : Nat} {c : Char} (h : c ∈ (toString n).toList) :
    c.isDigit = true := by
  rw [Nat.toString_eq_repr, Nat.toList_repr] at h
  exact Nat.isDigit_of_mem_toDigits (by decide) (by decide) h

/-- A number in decimal reads back modulo 256. -/
theorem parse_toString (n : Nat) : parse (toString n).toList = .ok (UInt8.ofNat n) := by
  obtain ⟨values, hvalues, hvalue⟩ := exists_digits_toDigits (by decide) (by decide : 10 ≤ 16) n
  have hradix := radix_of_isDigit fun c hc ↦ isDigit_of_mem_toString (n := n) hc
  rw [Nat.toString_eq_repr, Nat.toList_repr] at hradix ⊢
  rw [parse_eq_ok_of_digits hradix Nat.toDigits_ne_nil hvalues, byteOfDigits_eq_ofNat, hvalue]

end Literal

/-! ### Numbers are tokens -/

namespace Text

theorem isTokenChar_of_isAlphanum {c : Char} (h : c.isAlphanum = true) : isTokenChar c = true := by
  simp [isTokenChar, Name.isWordChar, h]

/-- Digits are ASCII letters and digits, for any base. -/
theorem isAlphanum_of_mem_toDigits {base : Nat} (hone : 1 < base) (hbase : base ≤ 16) {n : Nat}
    {c : Char} (h : c ∈ Nat.toDigits base n) : c.isAlphanum = true := by
  have hdigits : ∀ d < 16, (Nat.digitChar d).isAlphanum = true := by decide
  induction n using Nat.strongRecOn with
  | ind n ih =>
    by_cases hn : n < base
    · rw [Nat.toDigits_of_lt_base hn, List.mem_singleton] at h
      exact h ▸ hdigits n (by omega)
    · rw [Nat.toDigits_of_base_le hone (by omega), List.mem_append, List.mem_singleton] at h
      have hmod : n % base < base := Nat.mod_lt n (by omega)
      rcases h with h | rfl
      · exact ih (n / base) (Nat.div_lt_self (by omega) hone) h
      · exact hdigits (n % base) (by omega)

theorem isAlphanum_of_mem_toString {n : Nat} {c : Char} (h : c ∈ (toString n).toList) :
    c.isAlphanum = true := by
  rw [Nat.toString_eq_repr, Nat.toList_repr] at h
  exact isAlphanum_of_mem_toDigits (by decide) (by decide) h

theorem isToken_toString (n : Nat) : IsToken (toString n).toList := by
  refine ⟨?_, fun c hc ↦ isTokenChar_of_isAlphanum (isAlphanum_of_mem_toString hc)⟩
  rw [Nat.toString_eq_repr, Nat.toList_repr]
  exact Nat.toDigits_ne_nil

theorem isAlphanum_of_mem_hexDigits {width n : Nat} {c : Char} (h : c ∈ hexDigits width n) :
    c.isAlphanum = true := by
  rw [hexDigits, List.leftpad, List.mem_append, List.mem_replicate] at h
  rcases h with ⟨-, rfl⟩ | h
  · decide
  · exact isAlphanum_of_mem_toDigits (by decide) (Nat.le_refl 16) h

/-- A number in hexadecimal is one word, its `0x` included. -/
theorem isToken_hex (width n : Nat) : IsToken (hex width n).toList := by
  rw [Literal.toList_hex]
  refine ⟨by simp, fun c hc ↦ isTokenChar_of_isAlphanum ?_⟩
  rw [List.mem_cons, List.mem_cons] at hc
  rcases hc with rfl | rfl | hc
  · decide
  · decide
  · exact isAlphanum_of_mem_hexDigits hc

theorem isToken_hexByte (b : UInt8) : IsToken (hexByte b).toList := isToken_hex 2 b.toNat

end Text

/-! ### Registers -/

namespace RegisterRef

/-- **A register is read back as it is written**, direct or indirect. -/
theorem parse_written {r : RegisterRef} (hname : Name.isRegister r.name.toList = true)
    (hmode : r.mode ≠ .addressOf) (hvalue : r.value = none) :
    parse r.written.toList = .ok r := by
  obtain ⟨name, mode, value⟩ := r
  cases hvalue
  -- the name starts with its `r`, so it is not mistaken for a mark
  obtain ⟨rest, -, -, hrest⟩ := Name.isName_iff.1 hname
  dsimp only at hname
  cases mode with
  | direct =>
    have hwritten : written ⟨name, .direct, none⟩ = name := by simp [written, RegisterMode.mark]
    have hparse : parse ('r' :: rest) =
        if Name.isRegister ('r' :: rest) then .ok ⟨String.ofList ('r' :: rest), .direct, none⟩
        else .error (.notRegister (String.ofList ('r' :: rest))) := rfl
    rw [hwritten, hrest, hparse, ← hrest, if_pos hname, String.ofList_toList]
  | indirect => simp [parse, written, RegisterMode.mark, hname]
  | addressOf => exact absurd rfl hmode

/-- The name under which the register with a given number is printed. -/
def numberedName (n : Nat) : String := "r" ++ toString n

/-- The register that a byte stands for, as it is printed: a high bit marks an indirect one. -/
def ofByte (b : UInt8) : RegisterRef where
  name := numberedName (b.toNat % 128)
  mode := if b < 0x80 then .direct else .indirect

/-- Registers with different numbers have different names. -/
theorem numberedName_inj {m n : Nat} (h : numberedName m = numberedName n) : m = n := by
  have hlist : (toString m).toList = (toString n).toList := by
    simpa [numberedName] using congrArg String.toList h
  rw [Nat.toString_eq_repr, Nat.toString_eq_repr, Nat.toList_repr, Nat.toList_repr] at hlist
  rw [← Nat.ofDigitChars_ten_toDigits (n := m), hlist, Nat.ofDigitChars_ten_toDigits]

theorem isRegister_numberedName (n : Nat) : Name.isRegister (numberedName n).toList = true := by
  have hword : ∀ c ∈ (toString n).toList, Name.isWordChar c = true := fun c hc ↦ by
    simp [Name.isWordChar, isAlphanum_of_mem_toString hc]
  have hlist : (numberedName n).toList = 'r' :: (toString n).toList := by simp [numberedName]
  rw [hlist]
  exact Name.isName_iff.2 ⟨_, isToken_toString n |>.1, hword, rfl⟩

/-- What is printed for a byte is the register that it stands for. -/
theorem registerText_eq_written (b : UInt8) : registerText b = (ofByte b).written := by
  have hlt := b.toNat_lt
  rw [registerText, ofByte, written, numberedName]
  by_cases hb : b < 0x80
  · have : b.toNat < 128 := hb
    rw [if_pos hb, if_pos hb, Nat.mod_eq_of_lt this]
    rfl
  · have : 128 ≤ b.toNat := Nat.le_of_not_lt hb
    have hmod : b.toNat % 128 = b.toNat - 0x80 := by omega
    rw [if_neg hb, if_neg hb, hmod]
    rfl

/-- A register reads back as the one that its byte stands for. -/
theorem parse_registerText (b : UInt8) : parse (registerText b).toList = .ok (ofByte b) := by
  rw [registerText_eq_written]
  refine parse_written (isRegister_numberedName _) ?_ rfl
  rw [ofByte]
  split <;> simp

/-- Different bytes stand for different registers, or for different uses of one. -/
theorem ofByte_inj {b c : UInt8} (h : ofByte b = ofByte c) : b = c := by
  have hname : b.toNat % 128 = c.toNat % 128 := numberedName_inj (congrArg name h)
  have hmode : b < 0x80 ↔ c < 0x80 := by
    have hiff : ∀ b : UInt8, (ofByte b).mode = .direct ↔ b < 0x80 := fun b ↦ by simp [ofByte]
    rw [← hiff b, ← hiff c, h]
  have hhigh : (0x80 : UInt8).toNat = 128 := rfl
  rw [UInt8.lt_iff_toNat_lt, UInt8.lt_iff_toNat_lt, hhigh] at hmode
  have hb := b.toNat_lt
  have hc := c.toNat_lt
  exact UInt8.toNat_inj.1 (by omega)

/-- No two registers are printed alike. -/
theorem registerText_inj {b c : UInt8} (h : registerText b = registerText c) : b = c := by
  have hparse := parse_registerText b
  rw [h, parse_registerText] at hparse
  exact ofByte_inj (Except.ok.inj hparse).symm

end RegisterRef

theorem Text.isToken_registerText (b : UInt8) : IsToken (registerText b).toList := by
  have hr : IsToken ['r'] := isToken_of_all (by decide)
  have hstar : IsToken ['*'] := isToken_of_all (by decide)
  rw [registerText]
  split
  · simpa using hr.append (isToken_toString b.toNat)
  · simpa using hstar.append (hr.append (isToken_toString (b.toNat - 0x80)))

end TileAsm
