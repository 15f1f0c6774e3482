import Mathlib.Data.List.Nodup

/-!
# Association lists with distinct keys

In a list of pairs whose keys are distinct, `List.lookup` decides membership
(`lookup_eq_some_iff_mem`), and erasing the first pair that satisfies a test
erases every pair that does, if no two pairs do (`mem_eraseP_iff`).
-/

namespace Assoc

variable {α β : Type}

/-- A lookup finds a pair of the list. -/
theorem mem_of_lookup [BEq α] [LawfulBEq α] {l : List (α × β)} {a : α} {b : β}
    (h : l.lookup a = some b) : (a, b) ∈ l := by
  rw [List.lookup_eq_some_iff] at h
  obtain ⟨l₁, l₂, rfl, -⟩ := h
  simp

/-- With distinct keys the lookup finds every pair. -/
theorem lookup_eq_some_iff_mem [BEq α] [LawfulBEq α] {l : List (α × β)} (h : (l.map Prod.fst).Nodup)
    {a : α} {b : β} : l.lookup a = some b ↔ (a, b) ∈ l := by
  refine ⟨mem_of_lookup, fun hm => ?_⟩
  obtain ⟨l₁, l₂, rfl⟩ := List.append_of_mem hm
  rw [List.lookup_eq_some_iff]
  refine ⟨l₁, l₂, rfl, fun e he => ?_⟩
  rw [List.map_append, List.nodup_append] at h
  have hne := h.2.2 e.1 (List.mem_map_of_mem he) a (by simp)
  simpa using hne.symm

/-- A lookup fails when no pair has the key. -/
theorem lookup_eq_none_iff_not_mem [BEq α] [LawfulBEq α] {l : List (α × β)} {a : α} :
    l.lookup a = none ↔ ∀ b, (a, b) ∉ l := by
  rw [List.lookup_eq_none_iff]
  constructor
  · intro h b hb
    simpa using h _ hb
  · rintro h ⟨a', b⟩ hb
    rw [bne_iff_ne]
    rintro rfl
    exact h b hb

/-- With distinct keys a pair is determined by its key. -/
theorem snd_unique {l : List (α × β)} (h : (l.map Prod.fst).Nodup) {a : α} {b b' : β}
    (hb : (a, b) ∈ l) (hb' : (a, b') ∈ l) : b = b' := by
  have := List.inj_on_of_nodup_map h hb hb' rfl
  cases this
  rfl

/-- If no two elements satisfy the test, erasing the first that does erases all
that do. -/
theorem mem_eraseP_iff {l : List α} {p : α → Bool}
    (h : l.Pairwise fun a b => ¬ (p a = true ∧ p b = true)) {a : α} :
    a ∈ l.eraseP p ↔ a ∈ l ∧ p a = false := by
  induction l with
  | nil => simp
  | cons b l ih =>
      obtain ⟨hb, hl⟩ := List.pairwise_cons.mp h
      by_cases hpb : p b = true
      · rw [List.eraseP_cons_of_pos hpb, List.mem_cons]
        constructor
        · intro ha
          have := hb a ha
          exact ⟨Or.inr ha, by simpa [hpb] using this⟩
        · rintro ⟨rfl | ha, hpa⟩
          · rw [hpb] at hpa
            cases hpa
          · exact ha
      · rw [List.eraseP_cons_of_neg (by simpa using hpb), List.mem_cons, List.mem_cons, ih hl]
        constructor
        · rintro (rfl | ⟨ha, hpa⟩)
          · exact ⟨Or.inl rfl, by simpa using hpb⟩
          · exact ⟨Or.inr ha, hpa⟩
        · rintro ⟨rfl | ha, hpa⟩
          · exact Or.inl rfl
          · exact Or.inr ⟨ha, hpa⟩

/-- Erasing by key. -/
theorem mem_eraseP_key_iff [BEq α] [LawfulBEq α] {l : List (α × β)} (h : (l.map Prod.fst).Nodup)
    {n : α} {e : α × β} : e ∈ l.eraseP (fun e => e.1 == n) ↔ e ∈ l ∧ e.1 ≠ n := by
  have hpair : l.Pairwise fun a b => ¬ ((a.1 == n) = true ∧ (b.1 == n) = true) := by
    refine (List.pairwise_map.mp h).imp ?_
    rintro a b hab ⟨ha, hb⟩
    exact hab ((beq_iff_eq.mp ha).trans (beq_iff_eq.mp hb).symm)
  rw [mem_eraseP_iff hpair, beq_eq_false_iff_ne]

/-- Erasing by value, when each value has at most one key. -/
theorem mem_eraseP_value_iff [BEq β] [LawfulBEq β] {l : List (α × β)} (h : (l.map Prod.fst).Nodup)
    {c : β} (hc : ∀ {n n'}, (n, c) ∈ l → (n', c) ∈ l → n = n') {e : α × β} :
    e ∈ l.eraseP (fun e => e.2 == c) ↔ e ∈ l ∧ e.2 ≠ c := by
  have hpair : l.Pairwise fun a b => ¬ ((a.2 == c) = true ∧ (b.2 == c) = true) := by
    refine (List.pairwise_map.mp h).imp_of_mem ?_
    rintro ⟨n, x⟩ ⟨n', x'⟩ ha hb hab ⟨hx, hx'⟩
    obtain rfl := beq_iff_eq.mp hx
    obtain rfl := beq_iff_eq.mp hx'
    exact hab (hc ha hb)
  rw [mem_eraseP_iff hpair, beq_eq_false_iff_ne]

end Assoc
