import Mathlib.Data.List.Nodup
import Mathlib.Data.List.Pairwise

/-! # Splitting a list into chunks

`List.arrayChunk n l` cuts `l` into consecutive pieces of `n` elements, the last one possibly
shorter. The pieces are never empty and give `l` back when they are joined. -/

namespace List

variable {α : Type}

/-- Cut a list into pieces of `n` elements; `piece` holds the elements of the current piece in
reverse. -/
def arrayChunkFrom (n : ℕ) : List α → List α → List (List α)
  | [], piece => if piece.isEmpty then [] else [piece.reverse]
  | a :: l, piece =>
      if piece.length + 1 < n then arrayChunkFrom n l (a :: piece)
      else (a :: piece).reverse :: arrayChunkFrom n l []

/-- Cut a list into consecutive pieces of `n` elements. -/
def arrayChunk (n : ℕ) (l : List α) : List (List α) := arrayChunkFrom n l []

/-- The chunks make up the list. -/
theorem flatten_arrayChunkFrom (n : ℕ) (l piece : List α) :
    (arrayChunkFrom n l piece).flatten = piece.reverse ++ l := by
  induction l generalizing piece with
  | nil =>
      rw [arrayChunkFrom]
      cases piece <;> simp
  | cons a l ih =>
      rw [arrayChunkFrom]
      split
      · rw [ih]; simp
      · rw [flatten_cons, ih]; simp

/-- **Nothing is lost**: the pieces joined are the list. -/
@[simp] theorem flatten_arrayChunk (n : ℕ) (l : List α) : (arrayChunk n l).flatten = l :=
  flatten_arrayChunkFrom n l []

/-- No chunk is empty. -/
theorem ne_nil_of_mem_arrayChunkFrom {n : ℕ} {l piece chunk : List α}
    (h : chunk ∈ arrayChunkFrom n l piece) : chunk ≠ [] := by
  induction l generalizing piece with
  | nil =>
      rw [arrayChunkFrom] at h
      cases piece with
      | nil => simp at h
      | cons a piece => simp at h; simp [h]
  | cons a l ih =>
      rw [arrayChunkFrom] at h
      split at h
      · exact ih h
      · rcases mem_cons.mp h with rfl | h
        · simp
        · exact ih h

/-- No piece is empty. -/
theorem ne_nil_of_mem_arrayChunk {n : ℕ} {l chunk : List α} (h : chunk ∈ arrayChunk n l) :
    chunk ≠ [] := ne_nil_of_mem_arrayChunkFrom h

/-- The elements of a piece are elements of the list. -/
theorem mem_of_mem_arrayChunk {n : ℕ} {l chunk : List α} {a : α} (h : chunk ∈ arrayChunk n l)
    (ha : a ∈ chunk) : a ∈ l := by
  rw [← flatten_arrayChunk n l]
  exact mem_flatten.mpr ⟨chunk, h, ha⟩

/-- Every element of the list is in a piece. -/
theorem exists_mem_arrayChunk {n : ℕ} {l : List α} {a : α} (ha : a ∈ l) :
    ∃ chunk ∈ arrayChunk n l, a ∈ chunk := by
  rw [← flatten_arrayChunk n l] at ha
  exact mem_flatten.mp ha

/-- Nothing has no chunks. -/
@[simp] theorem arrayChunk_nil (n : ℕ) : arrayChunk n ([] : List α) = [] := rfl

/-- There are no more chunks than elements. -/
theorem length_arrayChunkFrom_le (n : ℕ) (l piece : List α) :
    (arrayChunkFrom n l piece).length ≤ l.length + min 1 piece.length := by
  induction l generalizing piece with
  | nil =>
      rw [arrayChunkFrom]
      cases piece <;> simp
  | cons a l ih =>
      rw [arrayChunkFrom]
      split
      · have h := ih (a :: piece)
        rw [length_cons] at h ⊢
        omega
      · have h := ih []
        rw [length_nil] at h
        rw [length_cons, length_cons]
        omega

/-- The piece at hand is filled first. -/
theorem arrayChunkFrom_eq {n : ℕ} {l piece : List α} (hl : l ≠ []) (hpiece : piece.length < n) :
    arrayChunkFrom n l piece =
      (piece.reverse ++ l.take (n - piece.length)) :: arrayChunk n (l.drop (n - piece.length)) := by
  induction l generalizing piece with
  | nil => exact absurd rfl hl
  | cons a l ih =>
      rw [arrayChunkFrom]
      split
      · rename_i hroom
        have hlength : n - piece.length = n - (a :: piece).length + 1 := by
          rw [length_cons]
          omega
        rw [hlength, take_succ_cons, drop_succ_cons]
        by_cases hnil : l = []
        · simp [hnil, arrayChunkFrom]
        · have hroom' : (a :: piece).length < n := by rwa [length_cons]
          rw [ih hnil hroom']
          simp
      · have hlength : n - piece.length = 1 := by omega
        rw [hlength]
        simp [arrayChunk]

/-- The first piece, and the pieces of the rest. -/
theorem arrayChunk_eq {n : ℕ} (hn : 0 < n) {l : List α} (hl : l ≠ []) :
    arrayChunk n l = l.take n :: arrayChunk n (l.drop n) := arrayChunkFrom_eq hl hn

/-- Where two elements fit into a piece, there are fewer pieces than elements. -/
theorem length_arrayChunk_lt {n : ℕ} (hn : 2 ≤ n) {l : List α} (hl : 2 ≤ l.length) :
    (arrayChunk n l).length < l.length := by
  match l, hl with
  | a :: b :: l, _ =>
      rw [arrayChunk, arrayChunkFrom, if_pos (by rw [length_nil]; omega), arrayChunkFrom]
      split
      · have h := length_arrayChunkFrom_le n l [b, a]
        rw [length_cons, length_cons] at h ⊢
        omega
      · have h := length_arrayChunkFrom_le n l []
        rw [length_nil] at h
        simp only [length_cons]
        omega

/-- Dropping repetitions makes no list longer. -/
theorem length_eraseDups_le [BEq α] [LawfulBEq α] (l : List α) : l.eraseDups.length ≤ l.length := by
  induction hn : l.length using Nat.strongRecOn generalizing l with
  | ind n ih =>
      cases l with
      | nil => simp
      | cons a l =>
          rw [length_cons] at hn
          have hfilter : (l.filter fun b => !b == a).length ≤ l.length := length_filter_le _ _
          have hrest := ih (l.filter fun b => !b == a).length (by omega) _ rfl
          rw [eraseDups_cons, length_cons]
          omega

/-- A list without repetitions. -/
theorem nodup_eraseDups [BEq α] [LawfulBEq α] (l : List α) : l.eraseDups.Nodup := by
  induction hn : l.length using Nat.strongRecOn generalizing l with
  | ind n ih =>
      cases l with
      | nil => simp
      | cons a l =>
          have hfilter : (l.filter fun b => !b == a).length ≤ l.length := length_filter_le _ _
          rw [length_cons] at hn
          rw [eraseDups_cons, nodup_cons]
          constructor
          · rw [mem_eraseDups, mem_filter]
            simp
          · exact ih _ (by omega) _ rfl

/-- An element of a list without repetitions is in one piece only. -/
theorem arrayChunk_unique {n : ℕ} {l chunk chunk' : List α} {a : α} (hl : l.Nodup)
    (hchunk : chunk ∈ arrayChunk n l) (hchunk' : chunk' ∈ arrayChunk n l) (ha : a ∈ chunk)
    (ha' : a ∈ chunk') : chunk = chunk' := by
  by_contra hne
  rw [← flatten_arrayChunk n l, nodup_flatten] at hl
  have : Std.Symm (Disjoint (α := α)) := ⟨fun _ _ h _ hb ha => h ha hb⟩
  exact hl.2.forall hchunk hchunk' hne ha ha'

/-- No piece is longer than the pieces are to be. -/
theorem length_le_of_mem_arrayChunk {n : ℕ} (hn : 0 < n) {l chunk : List α}
    (h : chunk ∈ arrayChunk n l) : chunk.length ≤ n := by
  induction hlength : l.length using Nat.strongRecOn generalizing l with
  | ind k ih =>
      by_cases hnil : l = []
      · rw [hnil] at h
        exact absurd h not_mem_nil
      · rw [arrayChunk_eq hn hnil, mem_cons] at h
        rcases h with rfl | h
        · rw [length_take]
          omega
        · apply ih (l.drop n).length _ h rfl
          have hpos := length_pos_iff.mpr hnil
          rw [length_drop]
          omega

end List
