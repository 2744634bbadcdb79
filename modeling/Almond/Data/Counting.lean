import Mathlib.Data.List.AList
import Mathlib.Data.List.Destutter
import Mathlib.Data.List.Sort

/-! # Counting in batches

Lists without duplicates, the batches of a list, and a map that counts how often each element was met. -/

namespace Counting

variable {α β : Type}

/-! ## Sorted lists without duplicates -/

section Sorted

variable [DecidableEq α] (r : α → α → Prop) [DecidableRel r]

/-- The list sorted, with one copy of each run of equal elements. -/
def sortDedup (l : List α) : List α := (l.insertionSort r).destutter (· ≠ ·)

variable [Std.Total r] [IsTrans α r] [Std.Antisymm r]

/-- Of a sorted list, the removal of runs leaves each element once. -/
theorem sortDedup_eq (l : List α) : sortDedup r l = (l.insertionSort r).dedup :=
  (List.pairwise_insertionSort r l).destutter_eq_dedup

/-- Sorting and removing duplicates keeps the elements. -/
@[simp]
theorem mem_sortDedup {l : List α} {a : α} : a ∈ sortDedup r l ↔ a ∈ l := by
  rw [sortDedup_eq, List.mem_dedup, List.mem_insertionSort]

/-- It leaves no duplicates. -/
theorem nodup_sortDedup (l : List α) : (sortDedup r l).Nodup := by
  rw [sortDedup_eq]
  exact List.nodup_dedup _

end Sorted

/-! ## Batches -/

/-- The batches that are made are those from before, the one at hand and the rest of the list. -/
theorem flatten_toChunks_go (n : Nat) (l : List α) (batch : Array α) (batches : Array (List α)) :
    (List.toChunks.go n l batch batches).flatten = batches.toList.flatten ++ (batch.toList ++ l) := by
  induction l generalizing batch batches with
  | nil => simp [List.toChunks.go]
  | cons a l ih =>
    unfold List.toChunks.go
    split
    · rw [ih]
      simp
    · rw [ih]
      simp

/-- The batches of a list, one after another, are the list. -/
theorem flatten_toChunks (n : Nat) (l : List α) : (l.toChunks n).flatten = l := by
  cases l with
  | nil => cases n <;> rfl
  | cons a l =>
    cases n with
    | zero => simp [List.toChunks]
    | succ n => simp [List.toChunks, flatten_toChunks_go]

/-! ## Counters -/

section Counters

variable [DecidableEq α]

/-- The count of an element. -/
def count (counts : AList fun _ : α => Nat) (a : α) : Nat := (counts.lookup a).getD 0

/-- One more of an element. -/
def increment (counts : AList fun _ : α => Nat) (a : α) : AList fun _ : α => Nat :=
  counts.insert a (count counts a + 1)

@[simp]
theorem count_empty (a : α) : count (∅ : AList fun _ : α => Nat) a = 0 := rfl

/-- Counting a list adds for each element the number of its copies. -/
theorem count_foldl_increment (l : List α) (counts : AList fun _ : α => Nat) (a : α) :
    count (l.foldl increment counts) a = count counts a + l.count a := by
  induction l generalizing counts with
  | nil => rfl
  | cons b l ih =>
    rw [List.foldl_cons, ih]
    by_cases hab : b = a
    · subst hab
      simp only [count, increment, AList.lookup_insert, Option.getD_some, List.count_cons_self]
      omega
    · simp only [count, increment, AList.lookup_insert_ne (Ne.symm hab), List.count_cons_of_ne hab]

/-- Counting several lists, none of which has duplicates, adds the number of lists that have the element. -/
theorem count_foldl_lists (lists : List (List α)) (hnodup : ∀ l ∈ lists, l.Nodup) (counts : AList fun _ : α => Nat) (a : α) :
    count (lists.foldl (fun counts l => l.foldl increment counts) counts) a = count counts a + lists.countP (a ∈ ·) := by
  induction lists generalizing counts with
  | nil => rfl
  | cons l lists ih =>
    obtain ⟨hl, hlists⟩ := List.forall_mem_cons.1 hnodup
    rw [List.foldl_cons, ih hlists, count_foldl_increment, List.countP_cons]
    by_cases ha : a ∈ l
    · simp only [List.count_eq_one_of_mem hl ha, ha, decide_true, if_true]
      omega
    · simp only [List.count_eq_zero_of_not_mem ha, ha, decide_false, Bool.false_eq_true, if_false]
      omega

end Counters

end Counting
