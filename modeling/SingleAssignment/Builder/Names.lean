/-!
# Sets of names

A set of names is a list without repetition in increasing order, and carries the proof that it is
one.
-/

namespace SingleAssignment.Builder

/-- The list with one more name in its place, unless it is there already. -/
def insertName (n : String) : List String → List String
  | [] => [n]
  | m :: ms => if n < m then n :: m :: ms else if n == m then m :: ms else m :: insertName n ms

theorem mem_insertName {n m : String} {l : List String} : m ∈ insertName n l ↔ m = n ∨ m ∈ l := by
  induction l with
  | nil => simp [insertName]
  | cons k l ih =>
    unfold insertName
    split
    · simp
    · split
      · rename_i hk
        have hk : n = k := by simpa using hk
        simp [hk]
      · simp only [List.mem_cons, ih, or_left_comm]

theorem pairwise_insertName {l : List String} (h : l.Pairwise (· < ·)) (n : String) :
    (insertName n l).Pairwise (· < ·) := by
  induction l with
  | nil => simp [insertName]
  | cons k l ih =>
    obtain ⟨hk, hl⟩ := List.pairwise_cons.mp h
    unfold insertName
    split
    · rename_i hlt
      refine List.pairwise_cons.mpr ⟨fun m hm => ?_, h⟩
      rcases List.mem_cons.mp hm with rfl | hm
      · exact hlt
      · exact String.lt_trans hlt (hk m hm)
    · split
      · exact h
      · rename_i hnlt hne
        refine List.pairwise_cons.mpr ⟨fun m hm => ?_, ih hl⟩
        rcases mem_insertName.mp hm with rfl | hm
        · have hle := String.not_lt.mp hnlt
          by_cases hlt : k < m
          · exact hlt
          · exact absurd (String.le_antisymm (String.not_lt.mp hlt) hle) (by simpa using hne)
        · exact hk m hm

/-- A set of names: a list without repetition in increasing order. -/
structure Names where
  toList : List String
  increasing : toList.Pairwise (· < ·)
  deriving DecidableEq, Repr

namespace Names

instance : EmptyCollection Names := ⟨⟨[], .nil⟩⟩

instance : Inhabited Names := ⟨∅⟩

instance : Membership String Names := ⟨fun set n => n ∈ set.toList⟩

instance : Coe Names (List String) := ⟨toList⟩

@[simp] theorem mem_toList {n : String} {set : Names} : n ∈ set.toList ↔ n ∈ set := .rfl

@[simp] theorem not_mem_empty (n : String) : n ∉ (∅ : Names) := List.not_mem_nil

/-- The set with one more name. -/
def insert (set : Names) (n : String) : Names :=
  ⟨insertName n set.toList, pairwise_insertName set.increasing n⟩

/-- The set of the names in a list. -/
def ofList (ns : List String) : Names :=
  ns.foldl insert ∅

theorem mem_insert {n m : String} {set : Names} : m ∈ set.insert n ↔ m = n ∨ m ∈ set :=
  mem_insertName

theorem nodup (set : Names) : set.toList.Nodup :=
  List.Pairwise.imp (S := (· ≠ ·)) (fun {_ _} hlt he => String.lt_irrefl _ (he ▸ hlt))
    set.increasing

end Names

end SingleAssignment.Builder
