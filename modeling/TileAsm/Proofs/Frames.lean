import Mathlib.Data.Set.Card
import TileAsm.Proofs.Aliasing

/-!
# What the passes leave alone

A pass works on a program in place, also if it fails. `Instruction.Rebound` says what became of an
instruction: it is of the same kind, with the same data, and its operands are related to those that
it had. Two relations of operands are enough to say what a pass does:

* labels that are laid out give their offset to the operands that name them and to no others
  (`LabelRef.Located`, `located_elim`);
* registers that cannot be numbered have still given the fixed numbers to the operands that name
  fixed registers (`RegisterRef.FixedOnly`, `fixedOnly_elim`).

A round of binding replaces operands one by one, so what it does to an operand it does to a program
(`rebound_bindRegisters`, `rebound_bindLabels`). A call is one such round or none
(`call_registers_cases`, `call_labels_cases`).
-/

namespace TileAsm

/-! ### Instructions with other operands -/

namespace Instruction

/-- The second instruction is the first one with other operands: `R` relates the registers at the
same place, and `L` the labels. All the rest is the same. -/
inductive Rebound (R : RegisterRef → RegisterRef → Prop) (L : LabelRef → LabelRef → Prop) :
    Instruction → Instruction → Prop
  /-- A label keeps its name and its comments. -/
  | label (name : String) (doc : List String) : Rebound R L (.label name doc) (.label name doc)
  /-- There is nothing to replace. -/
  | bare (op : Opcode) : Rebound R L (.bare op) (.bare op)
  /-- One register. -/
  | register {op : Opcode} {r r' : RegisterRef} (h : R r r') :
    Rebound R L (.register op r) (.register op r')
  /-- The target of a jump. -/
  | address {op : Opcode} {t t' : LabelRef} (h : L t t') :
    Rebound R L (.address op t) (.address op t')
  /-- The destination of a literal, which stays as it is. -/
  | literal {op : Opcode} {b : UInt8} {dest dest' : RegisterRef} (h : R dest dest') :
    Rebound R L (.pair op (.literal b) dest) (.pair op (.literal b) dest')
  /-- Two registers. -/
  | pair {op : Opcode} {r r' dest dest' : RegisterRef} (h : R r r') (hdest : R dest dest') :
    Rebound R L (.pair op (.register r) dest) (.pair op (.register r') dest')
  /-- There is nothing to replace. -/
  | tile (id : UInt8) (rows : TileRows) : Rebound R L (.tile id rows) (.tile id rows)
  /-- The position of a text. -/
  | text {r r' : RegisterRef} {bytes : List UInt8} (h : R r r') :
    Rebound R L (.text r bytes) (.text r' bytes)
  /-- The position of a choice. -/
  | selector {r r' : RegisterRef} {options : List (List UInt8)} (h : R r r') :
    Rebound R L (.selector r options) (.selector r' options)

variable {R R' : RegisterRef → RegisterRef → Prop} {L L' : LabelRef → LabelRef → Prop}

/-- An instruction that is left alone is related to itself. -/
theorem Rebound.refl (hR : ∀ r, R r r) (hL : ∀ t, L t t) : ∀ i : Instruction, Rebound R L i i
  | .label name doc => .label name doc
  | .bare op => .bare op
  | .register _ r => .register (hR r)
  | .address _ t => .address (hL t)
  | .pair _ (.literal _) dest => .literal (hR dest)
  | .pair _ (.register r) dest => .pair (hR r) (hR dest)
  | .tile id rows => .tile id rows
  | .text r _ => .text (hR r)
  | .selector r _ => .selector (hR r)

theorem Rebound.mono (hR : ∀ r r', R r r' → R' r r') (hL : ∀ t t', L t t' → L' t t') :
    ∀ {i j : Instruction}, Rebound R L i j → Rebound R' L' i j
  | _, _, .label name doc => .label name doc
  | _, _, .bare op => .bare op
  | _, _, .register h => .register (hR _ _ h)
  | _, _, .address h => .address (hL _ _ h)
  | _, _, .literal h => .literal (hR _ _ h)
  | _, _, .pair h hdest => .pair (hR _ _ h) (hR _ _ hdest)
  | _, _, .tile id rows => .tile id rows
  | _, _, .text h => .text (hR _ _ h)
  | _, _, .selector h => .selector (hR _ _ h)

/-- Operands do not count for the size. -/
theorem Rebound.size_eq : ∀ {i j : Instruction}, Rebound R L i j → j.size = i.size
  | _, _, .label _ _ | _, _, .bare _ | _, _, .register _ | _, _, .address _ | _, _, .literal _
  | _, _, .pair _ _ | _, _, .tile _ _ | _, _, .text _ | _, _, .selector _ => rfl

/-- The two instructions differ at most in the values of their operands. -/
def SameButValues : Instruction → Instruction → Prop :=
  Rebound (fun r r' ↦ r'.name = r.name ∧ r'.mode = r.mode) fun t t' ↦ t'.label = t.label

theorem SameButValues.refl (i : Instruction) : i.SameButValues i := by
  refine Rebound.refl ?_ ?_ i
  · exact fun _ ↦ ⟨rfl, rfl⟩
  · exact fun _ ↦ rfl

/-- Replacing registers relates each of them to what it is replaced by, and leaves labels alone. -/
theorem rebound_mapRegisters {f : RegisterRef → RegisterRef} (h : ∀ r, R r (f r)) :
    ∀ i : Instruction, Rebound R Eq i (i.mapRegisters f)
  | .label name doc => .label name doc
  | .bare op => .bare op
  | .register _ r => .register (h r)
  | .address _ _ => .address rfl
  | .pair _ (.literal _) dest => .literal (h dest)
  | .pair _ (.register r) dest => .pair (h r) (h dest)
  | .tile id rows => .tile id rows
  | .text r _ => .text (h r)
  | .selector r _ => .selector (h r)

/-- Replacing labels relates each of them to what it is replaced by, and leaves registers alone. -/
theorem rebound_mapTarget {f : LabelRef → LabelRef} (h : ∀ t, L t (f t)) :
    ∀ i : Instruction, Rebound Eq L i (i.mapTarget f)
  | .label name doc => .label name doc
  | .bare op => .bare op
  | .register _ _ => .register rfl
  | .address _ t => .address (h t)
  | .pair _ (.literal _) _ => .literal rfl
  | .pair _ (.register _) _ => .pair rfl rfl
  | .tile id rows => .tile id rows
  | .text _ _ => .text rfl
  | .selector _ _ => .selector rfl

end Instruction

/-! ### Rounds of binding -/

namespace Program

variable {p : Program}

/-- What a round does to every register operand it does to a program. -/
theorem rebound_bindRegisters {R : RegisterRef → RegisterRef → Prop}
    {number? : String → Option UInt8}
    (h : ∀ r : RegisterRef, R r ((number? r.name).elim r r.bindTo)) :
    List.Forall₂ (Instruction.Rebound R Eq) p (p.bindRegisters number?) := by
  rw [bindRegisters_eq, List.forall₂_map_right_iff]
  exact List.forall₂_same.2 fun i _ ↦ Instruction.rebound_mapRegisters h i

/-- What a round does to every label operand it does to a program. -/
theorem rebound_bindLabels {L : LabelRef → LabelRef → Prop} {offset? : String → Option UInt16}
    (h : ∀ t : LabelRef, L t ((offset? t.label).elim t t.bindTo)) :
    List.Forall₂ (Instruction.Rebound Eq L) p (p.bindLabels offset?) := by
  rw [bindLabels_eq, List.forall₂_map_right_iff]
  exact List.forall₂_same.2 fun i _ ↦ Instruction.rebound_mapTarget h i

/-- Values do not move anything. -/
theorem map_size_of_sameButValues {q : Program} (h : List.Forall₂ Instruction.SameButValues p q) :
    q.map Instruction.size = p.map Instruction.size := by
  induction h with
  | nil => rfl
  | cons hij _ ih => rw [List.map_cons, List.map_cons, hij.size_eq, ih]

theorem sameButValues_bindRegisters (p : Program) (number? : String → Option UInt8) :
    List.Forall₂ Instruction.SameButValues p (p.bindRegisters number?) := by
  have hname : ∀ r : RegisterRef, ((number? r.name).elim r r.bindTo).name = r.name ∧
      ((number? r.name).elim r r.bindTo).mode = r.mode := fun r ↦ by
    rcases number? r.name with _ | number <;> exact ⟨rfl, rfl⟩
  exact (rebound_bindRegisters hname).imp fun _ _ ↦
    Instruction.Rebound.mono (fun _ _ h ↦ h) fun _ _ h ↦ congrArg _ h.symm

theorem sameButValues_bindLabels (p : Program) (offset? : String → Option UInt16) :
    List.Forall₂ Instruction.SameButValues p (p.bindLabels offset?) := by
  have hlabel : ∀ t : LabelRef, ((offset? t.label).elim t t.bindTo).label = t.label := fun t ↦ by
    rcases offset? t.label with _ | offset <;> rfl
  exact (rebound_bindLabels hlabel).imp fun _ _ ↦
    Instruction.Rebound.mono (fun _ _ h ↦ h ▸ ⟨rfl, rfl⟩) fun _ _ h ↦ h

end Program

/-! ### What a pass does to an operand -/

/-- What became of a label operand of a program that was laid out: it has the offset of its label,
or is as it was if there is no such label. -/
def LabelRef.Located (p : Program) (labels : LabelTable) (t t' : LabelRef) : Prop :=
  (p.Declares t.label →
    ∃ offset, labels[t.label]? = some offset ∧ t' = { t with value := some offset }) ∧
  (¬ p.Declares t.label → t' = t)

/-- What became of a register operand when nothing but the fixed registers was bound: it has the
fixed number, with the bit of an indirect use, or is as it was if its register is not fixed. -/
def RegisterRef.FixedOnly (r r' : RegisterRef) : Prop :=
  (∀ number, fixedNumber? r.name = some number →
    ∃ b : UInt8, b.toNat = number.toNat + (if r.mode = .indirect then 128 else 0) ∧
      r' = { r with value := some b }) ∧
  (fixedNumber? r.name = none → r' = r)

/-- Binding by the table of a layout gives the declared labels their offsets. -/
theorem LabelRef.located_elim {p : Program} {labels : LabelTable} (h : p.layout = .ok labels)
    (t : LabelRef) : Located p labels t ((labels[t.label]?).elim t t.bindTo) := by
  constructor
  · intro hdeclares
    obtain ⟨offset, hoffset⟩ := Program.exists_getElem?_of_declares h hdeclares
    exact ⟨offset, hoffset, by rw [hoffset]; rfl⟩
  · intro hundeclared
    have hnone : labels[t.label]? = none := by
      rw [Program.getElem?_of_layout h, Program.lastOffset?_eq_none_iff.2 hundeclared]
      rfl
    rw [hnone]
    rfl

/-- Binding by the fixed registers gives these their numbers. -/
theorem RegisterRef.fixedOnly_elim (r : RegisterRef) :
    FixedOnly r ((fixedNumber? r.name).elim r r.bindTo) := by
  constructor
  · intro number hnumber
    refine ⟨r.mode.encode number, r.mode.toNat_encode (fixedNumber?_lt hnumber), ?_⟩
    rw [hnumber]
    rfl
  · intro hnone
    rw [hnone]
    rfl

/-! ### Counting registers -/

namespace Program

variable {p : Program}

/-- The names of the registers that a program uses and that have no fixed number. -/
def userNames (p : Program) : Set String :=
  {name | fixedNumber? name = none ∧ ∃ place r, p.UsesAt place r ∧ r.name = name}

theorem ncard_userNames (p : Program) : p.userNames.ncard = p.userRegisters.length := by
  have hset : p.userNames = ↑p.userRegisters.toFinset := by
    ext name
    rw [Finset.mem_coe, List.mem_toFinset, mem_userRegisters]
    constructor
    · intro h
      obtain ⟨hfixed, place, r, hr, hname⟩ := h
      exact ⟨⟨r, mem_registers_iff.2 ⟨place, hr⟩, hname⟩, hfixed⟩
    · intro h
      obtain ⟨⟨r, hr, hname⟩, hfixed⟩ := h
      obtain ⟨place, hplace⟩ := mem_registers_iff.1 hr
      exact ⟨hfixed, place, r, hplace, hname⟩
  rw [hset, Set.ncard_coe_finset, List.toFinset_card_of_nodup p.nodup_userRegisters]

/-! ### Calls -/

/-- A call for the registers binds by the whole table, or by the fixed registers if there is no
table. -/
theorem call_registers_cases (p : Program) :
    (∃ e, p.allocate = .error e ∧
      p.call .registers = (.registers (.error e), p.bindRegisters fixedNumber?)) ∨
    ∃ registers, p.allocate = .ok registers ∧
      p.call .registers = (.registers (.ok registers), p.bindRegisters registers.get?) := by
  rw [call, resolveRegisters_eq]
  rcases p.allocate with e | registers
  · exact .inl ⟨e, rfl, rfl⟩
  · exact .inr ⟨registers, rfl, rfl⟩

/-- A call for the labels binds by the table, or not at all. -/
theorem call_labels_cases (p : Program) :
    (∃ e, p.call .labels = (.labels (.error e), p)) ∨
    ∃ labels, p.layout = .ok labels ∧
      p.call .labels = (.labels (.ok labels), p.bindLabels (labels[·]?)) := by
  rw [call, resolveLabels]
  rcases p.layout with e | labels
  · exact .inl ⟨e, rfl⟩
  · exact .inr ⟨labels, rfl, rfl⟩

theorem call_labels_of_error {e : AsmError} (h : (p.call .labels).1 = .labels (.error e)) :
    (p.call .labels).2 = p := by
  rcases p.call_labels_cases with ⟨e', hcall⟩ | ⟨labels, -, hcall⟩
  · rw [hcall]
  · rw [hcall] at h
    cases h

/-- Labels that are laid out are bound where they are declared. -/
theorem rebound_of_call_labels {labels : LabelTable}
    (h : (p.call .labels).1 = .labels (.ok labels)) :
    List.Forall₂ (Instruction.Rebound Eq (LabelRef.Located p labels)) p (p.call .labels).2 := by
  rcases p.call_labels_cases with ⟨e, hcall⟩ | ⟨labels', hlayout, hcall⟩
  · rw [hcall] at h
    cases h
  · rw [hcall] at h ⊢
    obtain rfl : labels' = labels := Except.ok.inj (Pass.Answer.labels.inj h)
    exact rebound_bindLabels (LabelRef.located_elim hlayout)

/-- The registers cannot be numbered if and only if there are too many that are not fixed. -/
theorem call_registers_eq_error_iff {e : AsmError} :
    (p.call .registers).1 = .registers (.error e) ↔
      registerCapacity < p.userNames.ncard ∧ e = .tooManyRegisters p.userNames.ncard := by
  rw [p.ncard_userNames, ← allocate_eq_error_iff]
  rcases p.call_registers_cases with ⟨e', hallocate, hcall⟩ | ⟨registers, hallocate, hcall⟩
  · simp [hallocate, hcall]
  · simp [hallocate, hcall]

/-- Registers that cannot be numbered are bound where they are fixed. -/
theorem rebound_of_call_registers {e : AsmError}
    (h : (p.call .registers).1 = .registers (.error e)) :
    List.Forall₂ (Instruction.Rebound RegisterRef.FixedOnly Eq) p (p.call .registers).2 := by
  rcases p.call_registers_cases with ⟨e', -, hcall⟩ | ⟨registers, -, hcall⟩
  · rw [hcall]
    exact rebound_bindRegisters RegisterRef.fixedOnly_elim
  · rw [hcall] at h
    cases h

/-- **No call changes more than values**, whether it succeeds or not. -/
theorem sameButValues_call (p : Program) (pass : Pass) :
    List.Forall₂ Instruction.SameButValues p (p.call pass).2 := by
  match pass with
  | .registers =>
    rcases p.call_registers_cases with ⟨e, -, hcall⟩ | ⟨registers, -, hcall⟩
    · exact hcall ▸ p.sameButValues_bindRegisters _
    · exact hcall ▸ p.sameButValues_bindRegisters _
  | .labels =>
    rcases p.call_labels_cases with ⟨e, hcall⟩ | ⟨labels, -, hcall⟩
    · rw [hcall]
      exact List.forall₂_same.2 fun i _ ↦ .refl i
    · exact hcall ▸ p.sameButValues_bindLabels _

end Program

/-- **The passes touch only what they must.** Labels that cannot be laid out leave a program as it
was; if they can, the operands that name a declared label get its offset and all others stay. The
registers cannot be numbered if and only if more than 107 names have no fixed number, which is then
the count that is reported; the operands that name fixed registers are bound all the same and all
others stay. In each case the instructions are the same but for the values of their operands. -/
theorem calls_touch_only_values (p : Program) :
    (∀ e, (p.call .labels).1 = .labels (.error e) → (p.call .labels).2 = p) ∧
    (∀ labels, (p.call .labels).1 = .labels (.ok labels) →
      List.Forall₂ (Instruction.Rebound Eq (LabelRef.Located p labels)) p (p.call .labels).2) ∧
    (∀ e, (p.call .registers).1 = .registers (.error e) ↔
      107 < p.userNames.ncard ∧ e = .tooManyRegisters p.userNames.ncard) ∧
    (∀ e, (p.call .registers).1 = .registers (.error e) →
      List.Forall₂ (Instruction.Rebound RegisterRef.FixedOnly Eq) p (p.call .registers).2) ∧
    ∀ pass, List.Forall₂ Instruction.SameButValues p (p.call pass).2 ∧
      (p.call pass).2.map Instruction.size = p.map Instruction.size := by
  refine ⟨fun _ ↦ Program.call_labels_of_error, fun _ ↦ Program.rebound_of_call_labels,
    fun _ ↦ Program.call_registers_eq_error_iff, fun _ ↦ Program.rebound_of_call_registers,
    fun pass ↦ ?_⟩
  have hsame := p.sameButValues_call pass
  exact ⟨hsame, Program.map_size_of_sameButValues hsame⟩

end TileAsm
