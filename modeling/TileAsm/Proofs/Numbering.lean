import Mathlib.Data.Finset.Card
import TileAsm.Proofs.Binding
import TileAsm.Proofs.Emission
import TileAsm.Registers

/-!
# What numbering registers gives

The names that a program mentions decide its register table, and binding never changes a name. So
the table is the same before and after any binding (`allocate_bindRegisters`), and the two rounds
of binding in `resolveRegisters` come to one (`resolveRegisters_eq`): the second round binds at
least the operands that the first one has bound.

A table is described by places. The number of a user register is its place among the names, counted
from `firstUserNumber` (`get?_eq`), and the names are those of `userRegisters`, each once
(`length_userRegisters` counts them). Whatever succeeds binds every operand
(`exists_get?_of_allocate`), and no two registers to the same number (`get?_inj`).
-/

namespace TileAsm

/-! ### Fixed registers -/

theorem mem_fixedRegisters {name : String} {number : UInt8} (h : fixedNumber? name = some number) :
    (name, number) ∈ fixedRegisters := by
  obtain ⟨before, after, heq, -⟩ := List.lookup_eq_some_iff.1 h
  rw [heq]
  simp

theorem fixedNumber?_lt {name : String} {number : UInt8} (h : fixedNumber? name = some number) :
    number.toNat < 128 := by
  have hall : ∀ entry ∈ fixedRegisters, entry.2.toNat < 128 := by decide
  exact hall _ (mem_fixedRegisters h)

/-- The fixed numbers are those below the first user number and the last sixteen. -/
theorem fixedNumber?_range {name : String} {number : UInt8} (h : fixedNumber? name = some number) :
    number.toNat < firstUserNumber ∨ firstUserNumber + registerCapacity ≤ number.toNat := by
  have hall : ∀ entry ∈ fixedRegisters,
      entry.2.toNat < firstUserNumber ∨ firstUserNumber + registerCapacity ≤ entry.2.toNat := by
    decide
  exact hall _ (mem_fixedRegisters h)

theorem fixedNumber?_inj {name other : String} {number : UInt8}
    (h : fixedNumber? name = some number) (hother : fixedNumber? other = some number) :
    name = other := by
  have hall : ∀ a ∈ fixedRegisters, ∀ b ∈ fixedRegisters, a.2 = b.2 → a.1 = b.1 := by decide
  exact hall _ (mem_fixedRegisters h) _ (mem_fixedRegisters hother) rfl

/-! ### Bytes of registers -/

/-- The mode of an operand takes the bit that no number uses. -/
theorem RegisterMode.toNat_encode (mode : RegisterMode) {number : UInt8}
    (h : number.toNat < 128) :
    (mode.encode number).toNat = number.toNat + if mode = .indirect then 128 else 0 := by
  match mode with
  | .direct | .addressOf => rfl
  | .indirect =>
    have hall : ∀ n < 128, (UInt8.ofNat n ||| 0x80).toNat = n + 128 := by decide
    simpa [encode] using hall number.toNat h

/-! ### Tables -/

namespace RegisterTable

/-- The user part of a table is a list of places. -/
theorem lookup_userEntries (t : RegisterTable) (name : String) :
    t.userEntries.lookup name =
      (t.user.idxOf? name).map fun place ↦ UInt8.ofNat (firstUserNumber + place) := by
  have hfrom : ∀ (user : List String) (first : Nat),
      ((user.zipIdx first).map fun entry ↦ (entry.1, UInt8.ofNat entry.2)).lookup name =
        (user.idxOf? name).map fun place ↦ UInt8.ofNat (first + place) := by
    intro user
    induction user with
    | nil => simp
    | cons n user ih =>
      intro first
      rw [List.zipIdx_cons, List.map_cons, List.lookup_cons, List.idxOf?_cons]
      by_cases hn : n = name
      · simp [hn]
      · have hne : (name == n) = false := by simp [Ne.symm hn]
        rw [hne, ih]
        simp [hn, Function.comp_def, Nat.add_assoc, Nat.add_comm 1]
  exact hfrom t.user firstUserNumber

/-- The number of a register: the fixed one, or its place among the user registers. -/
theorem get?_eq (t : RegisterTable) (name : String) :
    t.get? name = (fixedNumber? name).or
      ((t.user.idxOf? name).map fun place ↦ UInt8.ofNat (firstUserNumber + place)) := by
  rw [get?, lookup_userEntries]
  cases fixedNumber? name <;> rfl

theorem get?_of_fixed (t : RegisterTable) {name : String} {number : UInt8}
    (h : fixedNumber? name = some number) : t.get? name = some number := by
  rw [get?_eq, h, Option.some_or]

theorem get?_of_user (t : RegisterTable) {name : String} {place : Nat}
    (hfixed : fixedNumber? name = none) (hplace : t.user.idxOf? name = some place) :
    t.get? name = some (UInt8.ofNat (firstUserNumber + place)) := by
  rw [get?_eq, hfixed, hplace]
  rfl

/-- The number of a user register lies between the fixed ones. -/
theorem exists_place_of_get? {t : RegisterTable} (hcap : t.user.length ≤ registerCapacity)
    {name : String} {number : UInt8} (hfixed : fixedNumber? name = none)
    (h : t.get? name = some number) :
    ∃ place, t.user[place]? = some name ∧ place < registerCapacity ∧
      number.toNat = firstUserNumber + place := by
  rw [get?_eq, hfixed, Option.none_or] at h
  obtain ⟨place, hplace, rfl⟩ := Option.map_eq_some_iff.1 h
  obtain ⟨hlt, hget, -⟩ := List.idxOf?_eq_some_iff.1 hplace
  have hroom : firstUserNumber + registerCapacity ≤ 256 := by decide
  refine ⟨place, List.getElem?_eq_some_iff.2 ⟨hlt, hget⟩, by omega, ?_⟩
  rw [UInt8.toNat_ofNat', Nat.mod_eq_of_lt]
  omega

/-- Every number fits into seven bits. -/
theorem get?_lt {t : RegisterTable} (hcap : t.user.length ≤ registerCapacity) {name : String}
    {number : UInt8} (h : t.get? name = some number) : number.toNat < 128 := by
  cases hfixed : fixedNumber? name with
  | some fixed =>
    rw [t.get?_of_fixed hfixed] at h
    cases h
    exact fixedNumber?_lt hfixed
  | none =>
    obtain ⟨place, -, hlt, hnumber⟩ := exists_place_of_get? hcap hfixed h
    have hroom : firstUserNumber + registerCapacity ≤ 128 := by decide
    omega

/-- **No two registers share a number.** -/
theorem get?_inj {t : RegisterTable} (hcap : t.user.length ≤ registerCapacity) {name other : String}
    {number : UInt8} (h : t.get? name = some number) (hother : t.get? other = some number) :
    name = other := by
  -- a fixed number is no place of a user register, so there are two cases and not four
  have hapart : ∀ {a b : String}, t.get? a = some number → fixedNumber? a = none →
      fixedNumber? b ≠ some number := by
    intro a b ha hfixed hb
    obtain ⟨place, -, hlt, hnumber⟩ := exists_place_of_get? hcap hfixed ha
    have hrange := fixedNumber?_range hb
    omega
  cases hname : fixedNumber? name with
  | some fixed =>
    have hfixed : fixed = number := Option.some.inj (t.get?_of_fixed hname ▸ h)
    cases hfother : fixedNumber? other with
    | some fixed' =>
      have hfixed' : fixed' = number := Option.some.inj (t.get?_of_fixed hfother ▸ hother)
      exact fixedNumber?_inj (hfixed ▸ hname) (hfixed' ▸ hfother)
    | none => exact absurd (hfixed ▸ hname) (hapart hother hfother)
  | none =>
    cases hfother : fixedNumber? other with
    | some fixed' =>
      have hfixed' : fixed' = number := Option.some.inj (t.get?_of_fixed hfother ▸ hother)
      exact absurd (hfixed' ▸ hfother) (hapart h hname)
    | none =>
      obtain ⟨place, hplace, -, hnumber⟩ := exists_place_of_get? hcap hname h
      obtain ⟨place', hplace', -, hnumber'⟩ := exists_place_of_get? hcap hfother hother
      have heq : place = place' := by omega
      rw [heq, hplace'] at hplace
      exact (Option.some.inj hplace).symm

end RegisterTable

namespace Program

/-! ### The names of a program -/

theorem mem_userRegisters {p : Program} {name : String} :
    name ∈ p.userRegisters ↔ (∃ r ∈ p.registers, r.name = name) ∧ fixedNumber? name = none := by
  simp [userRegisters, List.mem_eraseDups]

theorem nodup_userRegisters (p : Program) : p.userRegisters.Nodup := nodup_eraseDups _

/-- The user registers are counted without regard to how often or in which mode one is used. -/
theorem length_userRegisters (p : Program) :
    p.userRegisters.length =
      ((p.registers.map (·.name)).toFinset.filter (fixedNumber? · = none)).card := by
  rw [← List.toFinset_card_of_nodup p.nodup_userRegisters]
  congr 1
  ext name
  simp [mem_userRegisters]

theorem allocate_eq_ok_iff {p : Program} {t : RegisterTable} :
    p.allocate = .ok t ↔ p.userRegisters.length ≤ registerCapacity ∧ t.user = p.userRegisters := by
  by_cases hcap : p.userRegisters.length > registerCapacity
  · simp only [allocate, if_pos hcap, reduceCtorEq, false_iff]
    omega
  · simp only [allocate, if_neg hcap, Except.ok.injEq]
    constructor
    · rintro rfl
      exact ⟨by omega, rfl⟩
    · rintro ⟨-, h⟩
      cases t
      cases h
      rfl

/-- The numbers depend on nothing but the names of the register operands. -/
theorem allocate_congr {p q : Program} (h : q.registers.map (·.name) = p.registers.map (·.name)) :
    q.allocate = p.allocate := by
  unfold allocate userRegisters
  rw [h]

theorem allocate_map {f : Instruction → Instruction} (h : ∀ i, (f i).registers = i.registers)
    (p : Program) : allocate (p.map f) = p.allocate := by
  refine allocate_congr (congrArg _ ?_)
  rw [registers, registers, List.flatMap_map]
  simp [h]

theorem length_user_le_of_allocate {p : Program} {t : RegisterTable} (h : p.allocate = .ok t) :
    t.user.length ≤ registerCapacity := by
  obtain ⟨hcap, huser⟩ := allocate_eq_ok_iff.1 h
  rwa [huser]

/-- A table has a number for every register of its program. -/
theorem exists_get?_of_allocate {p : Program} {t : RegisterTable} (h : p.allocate = .ok t)
    {r : RegisterRef} (hr : r ∈ p.registers) : ∃ number, t.get? r.name = some number := by
  obtain ⟨-, huser⟩ := allocate_eq_ok_iff.1 h
  rcases hfixed : fixedNumber? r.name with _ | number
  · have hmem : r.name ∈ t.user := by
      rw [huser, mem_userRegisters]
      exact ⟨⟨r, hr, rfl⟩, hfixed⟩
    obtain ⟨place, hplace⟩ := Option.isSome_iff_exists.1 (List.isSome_idxOf?.2 hmem)
    exact ⟨_, t.get?_of_user hfixed hplace⟩
  · exact ⟨number, t.get?_of_fixed hfixed⟩

/-! ### Binding -/

/-- Replacing the register operands of a program replaces them in their order. -/
theorem registers_map_mapRegisters (p : Program) (f : RegisterRef → RegisterRef) :
    registers (p.map (Instruction.mapRegisters f)) = p.registers.map f := by
  rw [registers, registers, List.flatMap_map, List.map_flatMap]
  simp

theorem registers_bindRegisters (p : Program) (number? : String → Option UInt8) :
    (p.bindRegisters number?).registers =
      p.registers.map fun r ↦ (number? r.name).elim r r.bindTo := by
  rw [bindRegisters_eq, registers_map_mapRegisters]

@[simp] theorem userRegisters_bindRegisters (p : Program) (number? : String → Option UInt8) :
    (p.bindRegisters number?).userRegisters = p.userRegisters := by
  have hname : ∀ r : RegisterRef, ((number? r.name).elim r r.bindTo).name = r.name := by
    intro r
    cases number? r.name <;> rfl
  unfold userRegisters
  rw [registers_bindRegisters, List.map_map]
  simp [Function.comp_def, hname]

@[simp] theorem allocate_bindRegisters (p : Program) (number? : String → Option UInt8) :
    (p.bindRegisters number?).allocate = p.allocate := by
  unfold allocate
  rw [userRegisters_bindRegisters]

/-- A later round of binding that covers an earlier one makes that one void. -/
theorem bindRegisters_bindRegisters (p : Program) {f g : String → Option UInt8}
    (h : ∀ name, (f name).isSome → (g name).isSome) :
    (p.bindRegisters f).bindRegisters g = p.bindRegisters g := by
  rw [bindRegisters_eq, bindRegisters_eq, bindRegisters_eq, List.map_map]
  refine List.map_congr_left fun i _ ↦ ?_
  rw [Function.comp_apply, Instruction.mapRegisters_mapRegisters]
  congr 1
  funext r
  rw [Function.comp_apply]
  cases hf : f r.name with
  | none => rfl
  | some n =>
    obtain ⟨m, hm⟩ := Option.isSome_iff_exists.1 (h r.name (by simp [hf]))
    simp [RegisterRef.bindTo, hm]

/-- Resolving registers is one round of binding by the table. Only where there is no table do the
fixed registers alone get their numbers. -/
theorem resolveRegisters_eq (p : Program) :
    p.resolveRegisters = match p.allocate with
      | .error e => (.error e, p.bindRegisters fixedNumber?)
      | .ok table => (.ok table, p.bindRegisters table.get?) := by
  rw [resolveRegisters]
  simp only [allocate_bindRegisters]
  cases p.allocate with
  | error e => rfl
  | ok table =>
    have hcover : ∀ name, (fixedNumber? name).isSome → (table.get? name).isSome := by
      intro name hsome
      obtain ⟨number, hnumber⟩ := Option.isSome_iff_exists.1 hsome
      simp [table.get?_of_fixed hnumber]
    simp only [p.bindRegisters_bindRegisters hcover]

/-- After binding by its table, every register operand of a program has a byte. -/
theorem value_of_mem_registers_bindRegisters {p : Program} {t : RegisterTable}
    (h : p.allocate = .ok t) {r : RegisterRef} (hr : r ∈ (p.bindRegisters t.get?).registers) :
    ∃ b, r.value = some b := by
  rw [registers_bindRegisters] at hr
  obtain ⟨s, hs, rfl⟩ := List.mem_map.1 hr
  obtain ⟨number, hnumber⟩ := exists_get?_of_allocate h hs
  exact ⟨s.mode.encode number, by simp [hnumber, RegisterRef.bindTo]⟩

end Program

end TileAsm
