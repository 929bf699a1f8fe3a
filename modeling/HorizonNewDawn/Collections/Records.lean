import Mathlib.Data.List.AList

/-! # Records

An association list with distinct keys as a record that is filtered, or swept: its entries are gone
through and what is settled is deleted. Both leave at every key what was there, unless the test says
otherwise. -/

namespace Records

variable {κ β : Type} {s : AList fun _ : κ => β} {p : κ → β → Bool} {k : κ}

/-- The entries that pass a test. -/
def filter (p : κ → β → Bool) (s : AList fun _ : κ => β) : AList fun _ : κ => β :=
  ⟨s.entries.filter fun entry => p entry.1 entry.2, s.nodupKeys.sublist List.filter_sublist⟩

section Lookup

variable [DecidableEq κ]

/-- A look-up in a list that is filtered. -/
theorem dlookup_filter {l : List (Sigma fun _ : κ => β)} (hl : l.NodupKeys) :
    (l.filter fun entry => p entry.1 entry.2).dlookup k = (l.dlookup k).filter (p k) := by
  induction l with
  | nil => rfl
  | cons entry l ih =>
      obtain ⟨k', b⟩ := entry
      obtain ⟨hnew, hrest⟩ := List.nodupKeys_cons.mp hl
      by_cases hk : k = k'
      · subst hk
        rw [List.dlookup_cons_eq, Option.filter_some, List.filter_cons]
        by_cases hp : p k b
        · rw [if_pos hp, if_pos hp, List.dlookup_cons_eq]
        · have hnone : l.dlookup k = none := List.dlookup_eq_none.mpr hnew
          rw [if_neg hp, if_neg hp, ih hrest, hnone, Option.filter_none]
      · rw [List.dlookup_cons_ne _ _ hk, ← ih hrest, List.filter_cons]
        split_ifs with hp
        · exact List.dlookup_cons_ne _ _ hk
        · rfl

/-- A look-up in a record that is filtered. -/
@[simp] theorem lookup_filter : (filter p s).lookup k = (s.lookup k).filter (p k) :=
  dlookup_filter s.nodupKeys

/-- Go through the entries and delete those that are settled. -/
def sweep (p : κ → β → Bool) (s : AList fun _ : κ => β) : AList fun _ : κ => β :=
  s.entries.foldl (fun rest entry => if p entry.1 entry.2 then rest.erase entry.1 else rest) s

/-- A look-up behind the deletions of a loop. -/
theorem lookup_foldl_erase (l : List (Sigma fun _ : κ => β)) (rest : AList fun _ : κ => β) :
    (l.foldl (fun rest entry => if p entry.1 entry.2 then rest.erase entry.1 else rest)
        rest).lookup k =
      if ∃ entry ∈ l, entry.1 = k ∧ p entry.1 entry.2 then none else rest.lookup k := by
  induction l generalizing rest with
  | nil => simp
  | cons entry l ih =>
      rw [List.foldl_cons, ih]
      by_cases hl : ∃ entry ∈ l, entry.1 = k ∧ p entry.1 entry.2
      · obtain ⟨entry', hentry, hsettled⟩ := hl
        rw [if_pos ⟨entry', hentry, hsettled⟩,
          if_pos ⟨entry', List.mem_cons_of_mem _ hentry, hsettled⟩]
      · rw [if_neg hl]
        by_cases hsettled : p entry.1 entry.2
        · rw [if_pos hsettled]
          by_cases hk : entry.1 = k
          · rw [if_pos ⟨entry, List.mem_cons_self, hk, hsettled⟩, ← hk, AList.lookup_erase]
          · rw [AList.lookup_erase_ne (Ne.symm hk), if_neg]
            rintro ⟨entry', hentry, hk', hsettled'⟩
            rcases List.mem_cons.mp hentry with rfl | hentry
            · exact hk hk'
            · exact hl ⟨entry', hentry, hk', hsettled'⟩
        · rw [if_neg hsettled, if_neg]
          rintro ⟨entry', hentry, hk', hsettled'⟩
          rcases List.mem_cons.mp hentry with rfl | hentry
          · exact hsettled hsettled'
          · exact hl ⟨entry', hentry, hk', hsettled'⟩

/-- A look-up in a record that is swept. -/
@[simp] theorem lookup_sweep : (sweep p s).lookup k = (s.lookup k).filter fun b => !p k b := by
  rw [sweep, lookup_foldl_erase]
  cases hlookup : s.lookup k with
  | none => rw [ite_self, Option.filter_none]
  | some b =>
      have hmem : ⟨k, b⟩ ∈ s.entries := AList.mem_lookup_iff.mp hlookup
      rw [Option.filter_some]
      by_cases hsettled : p k b
      · rw [if_pos ⟨_, hmem, rfl, hsettled⟩, hsettled]
        rfl
      · rw [if_neg, Bool.eq_false_iff.mpr hsettled]
        · rfl
        · rintro ⟨⟨k', b'⟩, hentry, rfl, hsettled'⟩
          have heq : b' = b := by
            have := AList.mem_lookup_iff.mpr hentry
            rw [hlookup, Option.mem_def, Option.some.injEq] at this
            exact this.symm
          exact hsettled (heq ▸ hsettled')

end Lookup

end Records
