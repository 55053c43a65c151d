import TileAsm.Proofs.Numerals

/-!
# The grammar of numbers

A number is written with binary digits behind `0b`, with hexadecimal digits behind `0x`, or with
decimal digits. The relations below say which number a text denotes, without a reader and without a
bound:

* `Literal.IsDigit` for one digit, in capitals or not,
* `Literal.Digits` for a row of digits, which is read from the left,
* `Literal.Denotes` for a number.

The reader looks for a mark of the base in front, takes what follows for digits, and computes with
bytes while it goes along them. None of this shows in the end. The base that it finds is the only
one in which the text can be a number (`denotes_iff`), a row of digits is read as the number that it
denotes (`Digits.exists_values`, `digits_of_mapM`), and reducing modulo 256 at each digit is
reducing the whole number (`byteOfDigits_eq_ofNat`). So **the reader accepts exactly the numbers and
gives their values modulo 256** (`parse_iff_denotes`), however long they are.
-/

namespace TileAsm.Literal

open Text

/-- A digit of a base and its value. Letters may be capitals. -/
inductive IsDigit (base : Nat) : Char → Nat → Prop
  | small {d : Nat} (h : d < base) : IsDigit base d.digitChar d
  | capital {d : Nat} (h : d < base) : IsDigit base d.digitChar.toUpper d

/-- One or more digits and the number that they denote. -/
inductive Digits (base : Nat) : List Char → Nat → Prop
  | single {c : Char} {d : Nat} (h : IsDigit base c d) : Digits base [c] d
  | snoc {s : List Char} {n : Nat} {c : Char} {d : Nat} (hs : Digits base s n)
    (h : IsDigit base c d) : Digits base (s ++ [c]) (n * base + d)

/-- A text and the number that it denotes. No decimal number starts with `0b` or `0x`, since
neither letter is a decimal digit. -/
inductive Denotes : List Char → Nat → Prop
  | binary {s : List Char} {n : Nat} (h : Digits 2 s n) : Denotes ('0' :: 'b' :: s) n
  | hexadecimal {s : List Char} {n : Nat} (h : Digits 16 s n) : Denotes ('0' :: 'x' :: s) n
  | decimal {s : List Char} {n : Nat} (h : Digits 10 s n) : Denotes s n

variable {base n : Nat} {s : List Char}

/-! ### Digits -/

/-- A character that is read as a digit is one, small or capital. -/
theorem isDigit_of_digit? {c : Char} {d : Nat} (h : digit? base c = some d) : IsDigit base c d := by
  have hsmall : ∀ d < 16, 10 ≤ d → d.digitChar.toNat = d + 87 := by decide
  have hcapital : ∀ d < 16, 10 ≤ d → d.digitChar.toUpper.toNat = d + 55 := by decide
  obtain ⟨hvalue, hlt⟩ := Option.filter_eq_some_iff.1 h
  have hlt : d < base := of_decide_eq_true hlt
  split at hvalue
  · rename_i hdigit
    obtain ⟨hlow, hhigh⟩ : 48 ≤ c.toNat ∧ c.toNat ≤ 57 := Char.isDigit_iff_toNat.1 hdigit
    have hd : c.toNat - 48 = d := Option.some.inj hvalue
    have hc : d.digitChar = c := Char.toNat_inj.1 <| by
      rw [Nat.toNat_digitChar_of_lt_ten (by omega)]
      omega
    exact hc ▸ .small hlt
  · split at hvalue
    · rename_i hrange
      obtain ⟨hlow, hhigh⟩ : 97 ≤ c.toNat ∧ c.toNat ≤ 102 := hrange
      have hd : c.toNat - 97 + 10 = d := Option.some.inj hvalue
      have hc : d.digitChar = c := Char.toNat_inj.1 <| by
        rw [hsmall d (by omega) (by omega)]
        omega
      exact hc ▸ .small hlt
    · split at hvalue
      · rename_i hrange
        obtain ⟨hlow, hhigh⟩ : 65 ≤ c.toNat ∧ c.toNat ≤ 70 := hrange
        have hd : c.toNat - 65 + 10 = d := Option.some.inj hvalue
        have hc : d.digitChar.toUpper = c := Char.toNat_inj.1 <| by
          rw [hcapital d (by omega) (by omega)]
          omega
        exact hc ▸ .capital hlt
      · exact absurd hvalue (by simp)

theorem IsDigit.digit?_eq (hbase : base ≤ 16) {c : Char} {d : Nat} (h : IsDigit base c d) :
    digit? base c = some d := by
  have hcapital : ∀ base ≤ 16, ∀ d < base, digit? base d.digitChar.toUpper = some d := by decide
  rcases h with hd | hd
  · exact digit?_digitChar hbase hd
  · exact hcapital base hbase d hd

theorem IsDigit.isAlphanum (hbase : base ≤ 16) {c : Char} {d : Nat} (h : IsDigit base c d) :
    c.isAlphanum = true := by
  have hdigits : ∀ d < 16,
      d.digitChar.isAlphanum = true ∧ d.digitChar.toUpper.isAlphanum = true := by
    decide
  rcases h with hd | hd
  · exact (hdigits d (by omega)).1
  · exact (hdigits d (by omega)).2

theorem Digits.ne_nil (h : Digits base s n) : s ≠ [] := by
  rcases h with hc | ⟨hs, hc⟩ <;> simp

theorem Digits.exists_isDigit (h : Digits base s n) {c : Char} (hc : c ∈ s) :
    ∃ d, IsDigit base c d := by
  induction h with
  | single hd => exact ⟨_, List.mem_singleton.1 hc ▸ hd⟩
  | snoc hs hd ih =>
    rcases List.mem_append.1 hc with hc | hc
    · exact ih hc
    · exact ⟨_, List.mem_singleton.1 hc ▸ hd⟩

/-- **A row of digits denotes what its values say**, the most significant one first. -/
theorem Digits.exists_values (hbase : base ≤ 16) (h : Digits base s n) :
    ∃ values, s.mapM (digit? base) = some values ∧ Nat.ofDigits base values.reverse = n := by
  induction h with
  | @single c d hd =>
    refine ⟨[d], ?_, Nat.ofDigits_singleton⟩
    rw [List.mapM_cons, hd.digit?_eq hbase]
    rfl
  | @snoc s n c d hs hd ih =>
    obtain ⟨values, hvalues, hvalue⟩ := ih
    refine ⟨values ++ [d], ?_, ?_⟩
    · rw [List.mapM_append, hvalues, List.mapM_cons, hd.digit?_eq hbase]
      rfl
    · rw [List.reverse_concat, Nat.ofDigits_cons, hvalue, Nat.mul_comm, Nat.add_comm]

/-- And what can be read digit by digit is a row of digits. The induction takes the last digit off,
as the grammar puts it on. -/
theorem digits_of_mapM {values : List Nat} (hne : s ≠ [])
    (h : s.mapM (digit? base) = some values) :
    Digits base s (Nat.ofDigits base values.reverse) := by
  induction s using List.reverseRecOn generalizing values with
  | nil => exact absurd rfl hne
  | append_singleton s c ih =>
    rw [List.mapM_append] at h
    obtain ⟨front, hfront, h⟩ := Option.bind_eq_some_iff.1 h
    obtain ⟨last, hlast, h⟩ := Option.bind_eq_some_iff.1 h
    obtain rfl := Option.some.inj h
    rw [List.mapM_cons] at hlast
    obtain ⟨d, hd, hlast⟩ := Option.bind_eq_some_iff.1 hlast
    obtain rfl : [d] = last := Option.some.inj hlast
    have hc := isDigit_of_digit? hd
    rcases eq_or_ne s [] with rfl | hs
    · obtain rfl := Option.some.inj hfront
      show Digits base [c] (Nat.ofDigits base [d])
      rw [Nat.ofDigits_singleton]
      exact .single hc
    · rw [List.reverse_concat, Nat.ofDigits_cons, Nat.add_comm, Nat.mul_comm]
      exact .snoc (ih hs hfront) hc

/-- A row of digits denotes one number. -/
theorem Digits.unique (hbase : base ≤ 16) {m : Nat} (hm : Digits base s m) (hn : Digits base s n) :
    m = n := by
  obtain ⟨values, hvalues, rfl⟩ := hm.exists_values hbase
  obtain ⟨values', hvalues', rfl⟩ := hn.exists_values hbase
  rw [Option.some.inj (hvalues.symm.trans hvalues')]

/-- Each digit is taken in with bytes, which comes to the same as reducing the number once. -/
theorem Digits.parse_eq (hbase : base ≤ 16) (h : Digits base s n) {text : List Char}
    (hradix : radix text = (base, s)) : parse text = .ok (UInt8.ofNat n) := by
  obtain ⟨values, hvalues, rfl⟩ := h.exists_values hbase
  rw [parse_eq_ok_of_digits hradix h.ne_nil hvalues, byteOfDigits_eq_ofNat]

/-! ### Numbers -/

theorem Digits.radix_eq (h : Digits 10 s n) : radix s = (10, s) := by
  have hdigits : ∀ d < 10, d.digitChar.isDigit = true ∧ d.digitChar.toUpper.isDigit = true := by
    decide
  refine radix_of_isDigit fun c hc ↦ ?_
  obtain ⟨d, hd | hd⟩ := h.exists_isDigit hc
  · exact (hdigits d hd).1
  · exact (hdigits d hd).2

/-- **A number has the base that the reader finds**, and its digits are what follows the mark. -/
theorem denotes_iff : Denotes s n ↔ Digits (radix s).1 (radix s).2 n := by
  constructor
  · rintro (h | h | h)
    · exact h
    · exact h
    · rwa [h.radix_eq]
  · intro h
    unfold radix at h
    split at h
    · exact .binary h
    · exact .hexadecimal h
    · exact .decimal h

theorem radix_le (s : List Char) : (radix s).1 ≤ 16 := by
  unfold radix
  split <;> simp

/-- **A number is read as its value modulo 256.** -/
theorem Denotes.parse_eq (h : Denotes s n) : parse s = .ok (UInt8.ofNat n) :=
  (denotes_iff.1 h).parse_eq (radix_le s) rfl

/-- A text denotes at most one number. -/
theorem Denotes.unique {m : Nat} (hm : Denotes s m) (hn : Denotes s n) : m = n :=
  (denotes_iff.1 hm).unique (radix_le s) (denotes_iff.1 hn)

/-- Nothing but a number is accepted. -/
theorem exists_denotes_of_parse {v : UInt8} (h : parse s = .ok v) : ∃ n, Denotes s n := by
  rw [parse] at h
  split at h
  · rename_i hbyte
    unfold byte? at hbyte
    dsimp only at hbyte
    split at hbyte
    · exact absurd hbyte (by simp)
    · rename_i hempty
      obtain ⟨values, hvalues, -⟩ := Option.map_eq_some_iff.1 hbyte
      exact ⟨_, denotes_iff.2 (digits_of_mapM (by simpa using hempty) hvalues)⟩
  · exact absurd h (by simp)

/-- What denotes no number is refused, with the text in the error. -/
theorem parse_eq_error_iff {e : ParseError} :
    parse s = .error e ↔ (∀ n, ¬ Denotes s n) ∧ e = .notNumber (String.ofList s) := by
  constructor
  · intro h
    refine ⟨fun n hn ↦ absurd (h.symm.trans hn.parse_eq) (by simp), ?_⟩
    rw [parse] at h
    split at h
    · exact absurd h (by simp)
    · exact (Except.error.inj h).symm
  · rintro ⟨hnone, rfl⟩
    rw [parse]
    split
    · rename_i v hbyte
      obtain ⟨n, hn⟩ := exists_denotes_of_parse (show parse s = .ok v by rw [parse, hbyte])
      exact absurd hn (hnone n)
    · rfl

theorem Denotes.isToken (h : Denotes s n) : IsToken s := by
  have htoken : ∀ {base : Nat} {s : List Char}, base ≤ 16 → Digits base s n →
      ∀ c ∈ s, isTokenChar c = true := by
    intro base s hbase h c hc
    obtain ⟨d, hd⟩ := h.exists_isDigit hc
    exact isTokenChar_of_isAlphanum (hd.isAlphanum hbase)
  have hzero : isTokenChar '0' = true := by decide
  have hletters : isTokenChar 'b' = true ∧ isTokenChar 'x' = true := by decide
  rcases h with h | h | h
  · exact ⟨by simp, List.forall_mem_cons.2 ⟨hzero, List.forall_mem_cons.2
      ⟨hletters.1, htoken (by decide) h⟩⟩⟩
  · exact ⟨by simp, List.forall_mem_cons.2 ⟨hzero, List.forall_mem_cons.2
      ⟨hletters.2, htoken (by decide) h⟩⟩⟩
  · exact ⟨h.ne_nil, htoken (by decide) h⟩

/-- **The reader accepts exactly the numbers.** It gives a byte exactly if the text denotes a
number, and then only one; the byte is this number, of whatever size, modulo 256. Any other text is
rejected as it stands. -/
theorem parse_iff_denotes (text : List Char) :
    (∀ v, parse text = .ok v ↔
      ∃ n, (∀ m, Denotes text m ↔ m = n) ∧ v.toNat = n % 256) ∧
    ∀ e, parse text = .error e ↔
      (∀ n, ¬ Denotes text n) ∧ e = .notNumber (String.ofList text) := by
  refine ⟨fun v ↦ ⟨fun h ↦ ?_, ?_⟩, fun e ↦ parse_eq_error_iff⟩
  · obtain ⟨n, hn⟩ := exists_denotes_of_parse h
    obtain rfl : v = UInt8.ofNat n := Except.ok.inj (h.symm.trans hn.parse_eq)
    exact ⟨n, fun m ↦ ⟨fun hm ↦ hm.unique hn, fun heq ↦ heq ▸ hn⟩, UInt8.toNat_ofNat'⟩
  · rintro ⟨n, hn, hv⟩
    have hbyte : v = UInt8.ofNat n := UInt8.toNat_inj.1 (hv.trans UInt8.toNat_ofNat'.symm)
    rw [((hn n).2 rfl).parse_eq, hbyte]

-- a mark of a base without digits behind it is no number, nor is it read as a decimal one
example : parse "0x1fF".toList = .ok 255 ∧ parse "0b".toList = .error (.notNumber "0b") ∧
    parse "0b12".toList = .error (.notNumber "0b12") := by
  decide

end TileAsm.Literal
