import Mathlib.Order.Bounds.Basic
import TileAsm.Labels
import TileAsm.Proofs.Basic
import TileAsm.Proofs.Binding

/-!
# What laying out labels gives

`layoutFrom` threads a table and an offset through a program. Read from its result it comes apart
into two independent statements, neither of which mentions the loop:

* **where it stops**: at the first instruction that ends beyond the address space. The size that it
  reports is the least of the sizes of prefixes that are too large (`layout_eq_error_iff`), and a
  program that fits is never refused (`layout_eq_ok_iff`);
* **what it records**: for each name the offset of its last declaration (`getElem?_of_layout`).
  `lastOffset?` says what that offset is, as a recursion on the program alone; it is an unbounded
  number, and the address of a program that fits is that number (`toNat_of_lastOffset?`).
-/

namespace TileAsm

/-! ### Declarations -/

/-- Whether an instruction is a declaration of the given label. -/
def Instruction.declares (name : String) : Instruction → Bool
  | .label n _ => n == name
  | _ => false

/-- A label is declared by an instruction of its own. -/
theorem Instruction.declares_iff {name : String} {i : Instruction} :
    i.declares name = true ↔ ∃ doc, i = .label name doc := by
  cases i <;> simp [declares]

namespace Program

/-- A program **declares** a label if it has an instruction that does. -/
def Declares (p : Program) (name : String) : Prop := ∃ doc, Instruction.label name doc ∈ p

theorem declares_cons {i : Instruction} {p : Program} {name : String} :
    Declares (i :: p) name ↔ i.declares name = true ∨ p.Declares name := by
  rw [Instruction.declares_iff]
  simp only [Declares, List.mem_cons, exists_or, eq_comm]

/-- The offset of the last declaration of a label, counted from the start of the program. -/
def lastOffset? (name : String) : Program → Option Nat
  | [] => none
  | i :: rest =>
    ((lastOffset? name rest).map (i.size + ·)).or (if i.declares name then some 0 else none)

/-- Exactly the labels that are declared have an offset. -/
theorem lastOffset?_eq_none_iff {name : String} {p : Program} :
    p.lastOffset? name = none ↔ ¬ p.Declares name := by
  induction p with
  | nil => simp [lastOffset?, Declares]
  | cons i p ih =>
    rw [lastOffset?, declares_cons, Option.or_eq_none_iff, Option.map_eq_none_iff, ih]
    cases i.declares name <;> simp

theorem exists_lastOffset?_of_declares {name : String} {p : Program} (h : p.Declares name) :
    ∃ k, p.lastOffset? name = some k :=
  Option.ne_none_iff_exists'.1 fun hnone ↦ lastOffset?_eq_none_iff.1 hnone h

/-- The last declaration is the one that no other follows. -/
theorem lastOffset?_eq_some_iff {name : String} {p : Program} {k : Nat} :
    p.lastOffset? name = some k ↔
      ∃ before doc after, p = before ++ .label name doc :: after ∧ ¬ Declares after name ∧
        size before = k := by
  induction p generalizing k with
  | nil => simp [lastOffset?]
  | cons i p ih =>
    rw [lastOffset?]
    constructor
    · intro h
      rcases Option.or_eq_some_iff.1 h with h | ⟨hnone, h⟩
      · obtain ⟨m, hm, rfl⟩ := Option.map_eq_some_iff.1 h
        obtain ⟨before, doc, after, rfl, hafter, rfl⟩ := ih.1 hm
        exact ⟨i :: before, doc, after, rfl, hafter, rfl⟩
      · cases hi : i.declares name with
        | false => simp [hi] at h
        | true =>
          obtain ⟨doc, rfl⟩ := Instruction.declares_iff.1 hi
          rw [hi, if_pos rfl, Option.some.injEq] at h
          refine ⟨[], doc, p, rfl, ?_, h⟩
          exact lastOffset?_eq_none_iff.1 (Option.map_eq_none_iff.1 hnone)
    · rintro ⟨before, doc, after, heq, hafter, rfl⟩
      cases before with
      | nil =>
        cases heq
        simp [lastOffset?_eq_none_iff.2 hafter, Instruction.declares]
      | cons j before =>
        cases heq
        rw [ih.2 ⟨before, doc, after, rfl, hafter, rfl⟩]
        rfl

/-! ### Sizes of prefixes -/

/-- Offsets grow along a program. -/
theorem size_take_le_size_take (p : Program) {k m : Nat} (h : k ≤ m) :
    size (p.take k) ≤ size (p.take m) := by
  have hsplit : p.take m = p.take k ++ (p.take m).drop k := by
    conv => lhs; rw [← List.take_append_drop k (p.take m)]
    rw [List.take_take, Nat.min_eq_left h]
  rw [hsplit, size_append]
  omega

theorem size_take_le (p : Program) (k : Nat) : size (p.take k) ≤ p.size := by
  rcases Nat.le_total k p.length with h | h
  · calc size (p.take k) ≤ size (p.take p.length) := p.size_take_le_size_take h
      _ = p.size := by rw [List.take_length]
  · rw [List.take_of_length_le h]

/-! ### Where the layout stops -/

/-- The loop stops at the first instruction that ends beyond the last offset. -/
theorem layoutFrom_eq_error {offset : Nat} {table : LabelTable} {p : Program} {e : AsmError}
    (hoffset : offset ≤ maxOffset) (h : layoutFrom offset table p = .error e) :
    ∃ before i after, p = before ++ i :: after ∧ offset + size before ≤ maxOffset ∧
      maxOffset < offset + size (before ++ [i]) ∧
      e = .programTooLarge (offset + size (before ++ [i])) := by
  induction p generalizing offset table with
  | nil => cases h
  | cons i p ih =>
    simp only [layoutFrom] at h
    split at h
    · rename_i hlt
      cases h
      exact ⟨[], i, p, rfl, hoffset, hlt, rfl⟩
    · rename_i hle
      obtain ⟨before, j, after, rfl, hbefore, hlt, rfl⟩ := ih (Nat.le_of_not_lt hle) h
      refine ⟨i :: before, j, after, rfl, ?_, ?_, ?_⟩
      · rwa [size_cons, ← Nat.add_assoc]
      · rwa [List.cons_append, size_cons, ← Nat.add_assoc]
      · rw [List.cons_append, size_cons, ← Nat.add_assoc]

/-- A layout gets to the end exactly if the end is in reach. -/
theorem layoutFrom_eq_ok_iff {offset : Nat} {table : LabelTable} {p : Program}
    (hoffset : offset ≤ maxOffset) :
    (∃ table', layoutFrom offset table p = .ok table') ↔ offset + p.size ≤ maxOffset := by
  induction p generalizing offset table with
  | nil => simp [layoutFrom, hoffset]
  | cons i p ih =>
    simp only [layoutFrom, size_cons]
    split
    · rename_i hlt
      simp only [reduceCtorEq, exists_false, false_iff]
      omega
    · rename_i hle
      rw [ih (by omega), Nat.add_assoc]

/-- **A program can be laid out exactly if it fits.** No offset inside it is beyond its end, so the
end alone decides. -/
theorem layout_eq_ok_iff {p : Program} : (∃ table, p.layout = .ok table) ↔ p.size ≤ maxOffset := by
  rw [layout, layoutFrom_eq_ok_iff (Nat.zero_le maxOffset), Nat.zero_add]

/-- The sizes of the prefixes of a program that reach beyond the address space. -/
def overflows (p : Program) : Set Nat := {s | maxOffset < s ∧ ∃ k, s = size (p.take k)}

/-- The layout fails with the least size of a prefix that is too large. -/
theorem isLeast_overflows_of_layout {p : Program} {e : AsmError} (h : p.layout = .error e) :
    ∃ s, IsLeast p.overflows s ∧ e = .programTooLarge s := by
  obtain ⟨before, i, after, rfl, hbefore, hlt, rfl⟩ := layoutFrom_eq_error (Nat.zero_le _) h
  rw [Nat.zero_add] at hbefore hlt ⊢
  have htake : (before ++ i :: after).take (before.length + 1) = before ++ [i] := by
    rw [← List.singleton_append, ← List.append_assoc, List.take_left' (by simp)]
  refine ⟨size (before ++ [i]), ⟨⟨hlt, before.length + 1, by rw [htake]⟩, ?_⟩, rfl⟩
  rintro s ⟨hs, k, rfl⟩
  -- a prefix that is too large reaches past `before`, so it holds `i` as well
  have hk : before.length < k := by
    by_contra hle
    have hmono := size_take_le_size_take (before ++ i :: after) (Nat.le_of_not_lt hle)
    rw [List.take_left] at hmono
    omega
  rw [← htake]
  exact size_take_le_size_take _ hk

/-- **A program that does not fit is refused with the first offset that is out of reach.** -/
theorem layout_eq_error_iff {p : Program} {e : AsmError} :
    p.layout = .error e ↔ ∃ s, IsLeast p.overflows s ∧ e = .programTooLarge s := by
  refine ⟨isLeast_overflows_of_layout, ?_⟩
  rintro ⟨s, hs, rfl⟩
  cases h : p.layout with
  | ok table =>
    have hle := layout_eq_ok_iff.1 ⟨table, h⟩
    obtain ⟨hlt, k, rfl⟩ := hs.1
    have := p.size_take_le k
    omega
  | error e =>
    obtain ⟨s', hs', rfl⟩ := isLeast_overflows_of_layout h
    rw [hs.unique hs']

/-! ### What the layout records -/

/-- A declaration replaces what the table said about its name, and nothing else. -/
theorem getElem?_record (table : LabelTable) (offset : Nat) (i : Instruction) (name : String) :
    (table.record offset i)[name]? =
      (if i.declares name then some (UInt16.ofNat offset) else none).or table[name]? := by
  cases i with
  | label n doc =>
    by_cases hn : n = name
    · simp [LabelTable.record, Instruction.declares, hn]
    · have hne : compare n name ≠ .eq := fun h ↦ hn (Std.LawfulEqCmp.eq_of_compare h)
      simp [LabelTable.record, Instruction.declares, Std.TreeMap.getElem?_insert, hn, hne]
  | _ => simp [LabelTable.record, Instruction.declares]

/-- A table of a layout has the offsets of the last declarations, and what it had before for the
names that are not declared. -/
theorem getElem?_of_layoutFrom {offset : Nat} {table table' : LabelTable} {p : Program}
    (h : layoutFrom offset table p = .ok table') (name : String) :
    table'[name]? =
      ((p.lastOffset? name).map fun k ↦ UInt16.ofNat (offset + k)).or table[name]? := by
  induction p generalizing offset table with
  | nil =>
    cases h
    simp [lastOffset?]
  | cons i p ih =>
    simp only [layoutFrom] at h
    split at h
    · cases h
    · rw [ih h, getElem?_record, lastOffset?, ← Option.or_assoc]
      congr 1
      -- a later declaration is looked at first, so the one of `i` counts only without it
      cases lastOffset? name p with
      | some k => simp [Nat.add_assoc]
      | none => cases i.declares name <;> simp

/-- **The table of a layout says where each label was declared last.** -/
theorem getElem?_of_layout {p : Program} {table : LabelTable} (h : p.layout = .ok table)
    (name : String) : table[name]? = (p.lastOffset? name).map UInt16.ofNat := by
  rw [getElem?_of_layoutFrom h]
  simp

/-- A label stands at most at the end of its program. -/
theorem le_size_of_lastOffset? {p : Program} {name : String} {k : Nat}
    (h : p.lastOffset? name = some k) : k ≤ p.size := by
  obtain ⟨before, doc, after, rfl, -, rfl⟩ := lastOffset?_eq_some_iff.1 h
  rw [size_append]
  omega

/-- An offset in a program that fits is not changed by storing it in 16 bits. -/
theorem toNat_of_lastOffset? {p : Program} {name : String} {k : Nat} (hsize : p.size ≤ maxOffset)
    (h : p.lastOffset? name = some k) : (UInt16.ofNat k).toNat = k := by
  have := le_size_of_lastOffset? h
  have : maxOffset = 65535 := rfl
  rw [UInt16.toNat_ofNat']
  omega

/-! ### Binding does not move labels -/

/-- A layout sees sizes and labels only. -/
theorem layoutFrom_map {f : Instruction → Instruction} (hsize : ∀ i, (f i).size = i.size)
    (hrecord : ∀ (table : LabelTable) offset i, table.record offset (f i) = table.record offset i)
    (offset : Nat) (table : LabelTable) (p : Program) :
    layoutFrom offset table (p.map f) = layoutFrom offset table p := by
  induction p generalizing offset table with
  | nil => rfl
  | cons i p ih => simp only [List.map_cons, layoutFrom, hsize, hrecord, ih]

/-- Registers can be bound before labels are laid out or after that. -/
@[simp] theorem layout_bindRegisters (p : Program) (number? : String → Option UInt8) :
    (p.bindRegisters number?).layout = p.layout := by
  rw [bindRegisters_eq]
  exact layoutFrom_map (by simp) (fun _ _ i ↦ by cases i <;> rfl) _ _ _

end Program

end TileAsm
