import Mathlib.Data.List.Perm.Basic
import Mathlib.Data.List.Range
import Mathlib.Logic.Function.Basic

/-!
# Hash tables with chains

A table of buckets, each with the chain of its entries. An entry is inserted at the head of the
chain of its key, and the first entry of a key is the one that is found or removed.
-/

namespace Buckets

open List Function

variable {κ β : Type} [DecidableEq κ]

section

variable (key : β → κ) (hash : κ → Nat) (table : Nat → List β)

/-- The new element comes first in its bucket. -/
def insert (e : β) : Nat → List β :=
  Function.update table (hash (key e)) (e :: table (hash (key e)))

/-- The first element with the key leaves its bucket. -/
def remove (k : κ) : Nat → List β :=
  Function.update table (hash k) ((table (hash k)).eraseP (key · = k))

/-- Only the bucket of the key is searched. -/
def find (k : κ) : Option β := (table (hash k)).find? (key · = k)

/-- The entries with the key, in the order in which they are found. -/
def ofKey (k : κ) : List β := (table (hash k)).filter (key · = k)

/-- Every entry is in the bucket of its key. -/
def Placed : Prop := ∀ b, ∀ e ∈ table b, hash (key e) = b

/-- All entries of the first `size` buckets. -/
def entries (size : Nat) : List β := (List.range size).flatMap table

end

variable {key : β → κ} {hash : κ → Nat} {table : Nat → List β}

theorem find_eq_head (k : κ) : find key hash table k = (ofKey key hash table k).head? := by
  rw [find, ofKey, head?_filter]

variable {k : κ}

theorem ofKey_update_of_ne {b : Nat} (h : hash k ≠ b) (chain : List β) :
    ofKey key hash (Function.update table b chain) k = ofKey key hash table k := by
  rw [ofKey, update_of_ne h]
  rfl

theorem ofKey_insert_self (e : β) :
    ofKey key hash (insert key hash table e) (key e) = e :: ofKey key hash table (key e) := by
  rw [ofKey, insert, update_self, filter_cons_of_pos (by simp)]
  rfl

theorem ofKey_insert_of_ne {e : β} (h : k ≠ key e) :
    ofKey key hash (insert key hash table e) k = ofKey key hash table k := by
  by_cases hb : hash k = hash (key e)
  · rw [ofKey, insert, hb, update_self, filter_cons_of_neg (by simpa using h.symm), ofKey, hb]
  · exact ofKey_update_of_ne hb _

theorem ofKey_remove_self (k : κ) :
    ofKey key hash (remove key hash table k) k = (ofKey key hash table k).tail := by
  rw [ofKey, remove, update_self, ofKey]
  induction table (hash k) with
  | nil => rfl
  | cons e chain ih =>
    by_cases he : key e = k
    · simp [he]
    · simp only [eraseP_cons, filter_cons, he, decide_false, cond_false]
      exact ih

theorem ofKey_remove_of_ne {k' : κ} (h : k' ≠ k) :
    ofKey key hash (remove key hash table k) k' = ofKey key hash table k' := by
  by_cases hb : hash k' = hash k
  · rw [ofKey, remove, hb, update_self, ofKey, hb]
    induction table (hash k) with
    | nil => rfl
    | cons e chain ih =>
      by_cases he : key e = k
      · simp [he, h.symm]
      · simp only [eraseP_cons, filter_cons, he, decide_false, cond_false, ih]
  · exact ofKey_update_of_ne hb _

omit [DecidableEq κ] in
theorem Placed.insert (h : Placed key hash table) (e : β) :
    Placed key hash (insert key hash table e) := by
  intro b e' he'
  by_cases hb : b = hash (key e)
  · subst hb
    rw [Buckets.insert, update_self] at he'
    rcases mem_cons.mp he' with rfl | he'
    · rfl
    · exact h _ e' he'
  · rw [Buckets.insert, update_of_ne hb] at he'
    exact h b e' he'

theorem Placed.remove (h : Placed key hash table) (k : κ) :
    Placed key hash (remove key hash table k) := by
  intro b e' he'
  by_cases hb : b = hash k
  · subst hb
    rw [Buckets.remove, update_self] at he'
    exact h _ e' (mem_of_mem_eraseP he')
  · rw [Buckets.remove, update_of_ne hb] at he'
    exact h b e' he'

variable {size : Nat}

theorem exists_others (table : Nat → List β) {b : Nat} (hb : b < size) :
    ∃ others, (∀ chain, (entries (Function.update table b chain) size).Perm (chain ++ others)) ∧
      ∀ e ∈ others, ∃ b', b' ≠ b ∧ e ∈ table b' := by
  have hmem : b ∈ range size := mem_range.mpr hb
  have hne : ∀ b' ∈ (range size).erase b, b' ≠ b := fun b' hb' =>
    ((nodup_range.mem_erase_iff).mp hb').1
  refine ⟨((range size).erase b).flatMap table, fun chain => ?_, fun e he => ?_⟩
  · have hperm := (perm_cons_erase hmem).flatMap_right (update table b chain)
    have hothers : ((range size).erase b).flatMap (update table b chain)
        = ((range size).erase b).flatMap table :=
      flatMap_congr fun b' hb' => update_of_ne (hne b' hb') _ _
    rw [flatMap_cons, update_self, hothers] at hperm
    exact hperm
  · obtain ⟨b', hb', he⟩ := mem_flatMap.mp he
    exact ⟨b', hne b' hb', he⟩

omit [DecidableEq κ] in
theorem length_entries_insert {e : β} (h : hash (key e) < size) :
    (entries (insert key hash table e) size).length = (entries table size).length + 1 := by
  obtain ⟨others, hperm, -⟩ := exists_others table h
  have hold := (hperm (table (hash (key e)))).length_eq
  have hnew := (hperm (e :: table (hash (key e)))).length_eq
  rw [update_eq_self] at hold
  rw [insert, hnew, hold]
  simp only [length_append, length_cons]
  omega

theorem length_entries_remove (h : hash k < size) (hfound : ofKey key hash table k ≠ []) :
    (entries (remove key hash table k) size).length + 1 = (entries table size).length := by
  obtain ⟨others, hperm, -⟩ := exists_others table h
  have hold := (hperm (table (hash k))).length_eq
  have hnew := (hperm ((table (hash k)).eraseP (key · = k))).length_eq
  obtain ⟨e, he⟩ := exists_mem_of_ne_nil _ hfound
  obtain ⟨hmem, hkey⟩ := mem_filter.mp he
  have herase : ((table (hash k)).eraseP (key · = k)).length = (table (hash k)).length - 1 :=
    length_eraseP_of_mem hmem hkey
  have hpos := length_pos_of_mem hmem
  rw [update_eq_self] at hold
  rw [remove, hnew, hold]
  simp only [length_append]
  omega

theorem Placed.countP_entries (hplaced : Placed key hash table) (h : hash k < size) :
    (entries table size).countP (key · = k) = (ofKey key hash table k).length := by
  obtain ⟨others, hperm, hothers⟩ := exists_others table h
  have hold := (hperm (table (hash k))).countP_eq (key · = k)
  have hzero : others.countP (key · = k) = 0 := countP_eq_zero.mpr fun e he hk => by
    obtain ⟨b, hne, he⟩ := hothers e he
    exact hne (by rw [← hplaced b e he, of_decide_eq_true hk])
  rw [update_eq_self] at hold
  rw [hold, countP_append, hzero, Nat.add_zero, ofKey, countP_eq_length_filter]

end Buckets
