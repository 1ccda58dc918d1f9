import Mathlib.Algebra.BigOperators.Group.List.Basic
import Mathlib.Algebra.Order.BigOperators.Group.List
import Mathlib.Algebra.Order.Ring.Int
import Mathlib.Tactic.Linarith
import Mathlib.Tactic.Ring
import SingleAssignment.Builder.Array
import SingleAssignment.Proofs.Evaluation

/-!
# Arrays in memory

Arrays follow each other in memory (`Packed`), and the elements of an array are numbered in rows,
the last index running fastest (`flat`). The address of an element is computed in words that wrap;
it is the word of the integer that the element's number gives. The number of an element among those
of all arrays determines the array and the indices (`Packed.number_inj`).
-/

namespace SingleAssignment.Builder

open Source List

/-- The number of elements in dimensions. -/
def extent (dims : List Int64) : Int :=
  (dims.map (·.toInt)).prod

/-- The number of the element with the given indices. -/
def flat : List Int64 → List Int64 → Int
  | _ :: dims, i :: indices => i.toInt * extent dims + flat dims indices
  | _, _ => 0

/-- A number and indices are added up, each index times its stride. -/
def addUp (n : Int64) (indices strides : List Int64) : Int64 :=
  (indices.zip strides).foldl (fun n t => n + t.1 * t.2) n

/-- The address of an element, where elements have the given size. -/
def ArrayInfo.address (a : ArrayInfo) (word : Int64) (indices : List Int64) : Int64 :=
  a.base + addUp 0 indices a.strides * word

/-! ## Numbers of elements -/

@[simp] theorem extent_cons (d : Int64) (dims : List Int64) : extent (d :: dims) = d.toInt *
    extent dims :=
  prod_cons

theorem extent_pos {dims : List Int64} (h : ∀ d ∈ dims, 0 < d) : 0 < extent dims := by
  induction dims with
  | nil => exact Int.zero_lt_one
  | cons d dims ih =>
    have hd : 0 < d.toInt := Int64.lt_iff_toInt_lt.mp (h d (mem_cons_self ..))
    rw [extent_cons]
    exact Int.mul_pos hd (ih fun d' hd' => h d' (mem_cons_of_mem _ hd'))

/-- Indices in bounds, one by one. -/
theorem inBounds_cons {d : Int64} {dims indices : List Int64}
    (h : inBounds (d :: dims) indices = true) :
    ∃ i rest, indices = i :: rest ∧ 0 ≤ i.toInt ∧ i.toInt < d.toInt ∧
      inBounds dims rest = true := by
  cases indices with
  | nil => simp [inBounds] at h
  | cons i rest =>
    simp only [inBounds, Bool.and_eq_true, decide_eq_true_eq] at h
    exact ⟨i, rest, rfl, Int64.le_iff_toInt_le.mp h.1.1, Int64.lt_iff_toInt_lt.mp h.1.2, h.2⟩

theorem inBounds_nil {indices : List Int64} (h : inBounds [] indices = true) : indices = [] := by
  cases indices with
  | nil => rfl
  | cons i rest => simp [inBounds] at h

theorem flat_bounds {dims indices : List Int64} (h : inBounds dims indices = true) :
    0 ≤ flat dims indices ∧ flat dims indices < extent dims := by
  induction dims generalizing indices with
  | nil =>
    rw [inBounds_nil h]
    exact ⟨Int.le_refl 0, Int.zero_lt_one⟩
  | cons d dims ih =>
    obtain ⟨i, rest, rfl, hi, hd, hrest⟩ := inBounds_cons h
    obtain ⟨hlow, hhigh⟩ := ih hrest
    rw [flat, extent_cons]
    constructor
    · nlinarith
    · nlinarith

/-- The number of an element determines its indices. -/
theorem flat_inj {dims indices indices' : List Int64} (h : inBounds dims indices = true)
    (h' : inBounds dims indices' = true) (he : flat dims indices = flat dims indices') :
    indices = indices' := by
  induction dims generalizing indices indices' with
  | nil => rw [inBounds_nil h, inBounds_nil h']
  | cons d dims ih =>
    obtain ⟨i, rest, rfl, -, -, hrest⟩ := inBounds_cons h
    obtain ⟨i', rest', rfl, -, -, hrest'⟩ := inBounds_cons h'
    rw [flat, flat] at he
    obtain ⟨hlow, hhigh⟩ := flat_bounds hrest
    obtain ⟨hlow', hhigh'⟩ := flat_bounds hrest'
    have hi : i.toInt = i'.toInt := by
      by_contra hne
      rcases Int.lt_or_gt_of_ne hne with hlt | hlt
      · nlinarith
      · nlinarith
    rw [hi] at he
    rw [Int64.toInt_inj.mp hi, ih hrest hrest' (by linarith)]

/-! ## Words -/

theorem ofInt_extent (dims : List Int64) : Int64.ofInt (extent dims) = dims.foldr (· * ·) 1 := by
  induction dims with
  | nil => rfl
  | cons d dims ih => rw [extent_cons, Int64.ofInt_mul, ih, Int64.ofInt_toInt, foldr_cons]

theorem foldl_mul_eq (dims : List Int64) (n : Int64) :
    dims.foldl (· * ·) n = n * Int64.ofInt (extent dims) := by
  induction dims generalizing n with
  | nil => exact (Int64.mul_one n).symm
  | cons d dims ih =>
    rw [foldl_cons, ih, extent_cons, Int64.ofInt_mul, Int64.ofInt_toInt, Int64.mul_assoc]

theorem addUp_stridesOf (dims indices : List Int64) (n : Int64) :
    addUp n indices (stridesOf dims) = n + Int64.ofInt (flat dims indices) := by
  unfold addUp
  induction dims generalizing indices n with
  | nil =>
    rw [stridesOf, zip_nil_right]
    exact (Int64.add_zero n).symm
  | cons d dims ih =>
    cases indices with
    | nil => exact (Int64.add_zero n).symm
    | cons i rest =>
      rw [stridesOf, zip_cons_cons, foldl_cons, ih, flat, Int64.ofInt_add, Int64.ofInt_mul,
        Int64.ofInt_toInt, ofInt_extent, Int64.add_assoc]

/-! ## Arrays behind each other -/

/-- The address behind so many elements. -/
def Settings.addressAt (settings : Settings) (n : Int) : Int64 :=
  Int64.ofInt (settings.baseAddress.toInt + settings.wordSize.toInt * n)

/-- The number of elements of arrays. -/
def elements (arrays : List ArrayInfo) : Int :=
  (arrays.map fun a => extent a.dims).sum

/-- Arrays follow each other in memory from the base address on. -/
structure Packed (settings : Settings) (arrays : List ArrayInfo) (next : Int64) : Prop where
  base : ∀ {k a}, arrays[k]? = some a → a.base = settings.addressAt (elements (arrays.take k))
  strides : ∀ {a}, a ∈ arrays → a.strides = stridesOf a.dims
  dims : ∀ {a}, a ∈ arrays → ∀ d ∈ a.dims, 0 < d
  next : next = settings.addressAt (elements arrays)

theorem elements_append (as bs : List ArrayInfo) : elements (as ++ bs) = elements as +
    elements bs := by
  simp [elements]

theorem elements_nonneg {arrays : List ArrayInfo} (h : ∀ a ∈ arrays, ∀ d ∈ a.dims, 0 < d) :
    0 ≤ elements arrays := by
  refine sum_nonneg fun n hn => ?_
  obtain ⟨a, ha, rfl⟩ := mem_map.mp hn
  exact Int.le_of_lt (extent_pos (h a ha))

namespace Packed

variable {settings : Settings} {arrays : List ArrayInfo} {next : Int64}
    {a a' : ArrayInfo} {k k' : Nat}

theorem nil (settings : Settings) : Packed settings [] settings.baseAddress where
  base h := by simp at h
  strides h := by cases h
  dims h := by cases h
  next := by simp [Settings.addressAt, elements, Int64.ofInt_toInt]

/-- One more array. -/
theorem push (h : Packed settings arrays next) (hbase : a.base = next)
    (hstrides : a.strides = stridesOf a.dims) (hdims : ∀ d ∈ a.dims, 0 < d) :
    Packed settings (arrays ++ [a]) (next + a.dims.foldl (· * ·) 1 * settings.wordSize) where
  base {k a'} hk := by
    rcases Nat.lt_or_ge k arrays.length with hlt | hge
    · rw [getElem?_append_left hlt] at hk
      rw [take_append_of_le_length (Nat.le_of_lt hlt)]
      exact h.base hk
    · rw [getElem?_append_right hge] at hk
      obtain ⟨hzero, rfl⟩ : k - arrays.length = 0 ∧ a = a' := by
        cases hd : k - arrays.length with
        | zero => simpa [hd] using hk
        | succ n => simp [hd] at hk
      have hlen : k = arrays.length := by omega
      rw [hlen, take_append_of_le_length (Nat.le_refl _), take_length, hbase, h.next]
  strides ha := by
    rcases mem_append.mp ha with ha | ha
    · exact h.strides ha
    · rw [mem_singleton.mp ha, hstrides]
  dims ha := by
    rcases mem_append.mp ha with ha | ha
    · exact h.dims ha
    · rw [mem_singleton.mp ha]
      exact hdims
  next := by
    rw [foldl_mul_eq, Int64.one_mul, h.next, elements_append]
    have hone : elements [a] = extent a.dims := by simp [elements]
    rw [hone, Settings.addressAt, Settings.addressAt, Int.mul_add, ← Int.add_assoc,
      Int64.ofInt_add _ (settings.wordSize.toInt * extent a.dims),
      Int64.ofInt_mul settings.wordSize.toInt, Int64.ofInt_toInt, Int64.mul_comm settings.wordSize]

/-- The number of an element among the elements of all arrays. -/
theorem address_eq (h : Packed settings arrays next) (hk : arrays[k]? = some a)
    (indices : List Int64) :
    a.address settings.wordSize indices =
      settings.addressAt (elements (arrays.take k) + flat a.dims indices) := by
  rw [ArrayInfo.address, h.base hk, h.strides (mem_of_getElem? hk), addUp_stridesOf,
    Int64.zero_add, Settings.addressAt, Settings.addressAt, Int.mul_add, ← Int.add_assoc,
    Int64.ofInt_add _ (settings.wordSize.toInt * flat a.dims indices),
    Int64.ofInt_mul settings.wordSize.toInt, Int64.ofInt_toInt, Int64.mul_comm settings.wordSize]

theorem take_succ (hk : arrays[k]? = some a) :
    elements (arrays.take (k + 1)) = elements (arrays.take k) + extent a.dims := by
  rw [take_add_one, hk, elements_append]
  simp [elements]

/-- An array ends before the next one begins. -/
theorem take_le (h : Packed settings arrays next) (hk : arrays[k]? = some a) (hlt : k < k') :
    elements (arrays.take k) + extent a.dims ≤ elements (arrays.take k') := by
  have hsplit : arrays.take k' = arrays.take (k + 1) ++ (arrays.take k').drop (k + 1) := by
    conv_lhs => rw [← take_append_drop (k + 1) (arrays.take k'), take_take,
      Nat.min_eq_left (by omega)]
  rw [hsplit, elements_append, take_succ hk]
  have hnonneg : 0 ≤ elements ((arrays.take k').drop (k + 1)) :=
    elements_nonneg fun a ha => h.dims (mem_of_mem_take (mem_of_mem_drop ha))
  omega

theorem take_nonneg (h : Packed settings arrays next) (k : Nat) : 0 ≤ elements (arrays.take k) :=
  elements_nonneg fun _ ha => h.dims (mem_of_mem_take ha)

theorem take_le_elements (h : Packed settings arrays next) (hk : arrays[k]? = some a) :
    elements (arrays.take k) + extent a.dims ≤ elements arrays := by
  have hle := h.take_le hk (Nat.lt_succ_self k |>.trans_le (Nat.le_max_left (k + 1) arrays.length))
  rwa [take_of_length_le (Nat.le_max_right ..)] at hle

/-- Every element comes before the end. -/
theorem number_lt (h : Packed settings arrays next) (hk : arrays[k]? = some a)
    {indices : List Int64} (hin : inBounds a.dims indices = true) :
    elements (arrays.take k) + flat a.dims indices < elements arrays := by
  have hle := h.take_le_elements hk
  have := (flat_bounds hin).2
  omega

/-- The number of an element among the elements of all arrays determines the array and the
indices. -/
theorem number_inj (h : Packed settings arrays next) (hk : arrays[k]? = some a)
    (hk' : arrays[k']? = some a') {indices indices' : List Int64}
    (hin : inBounds a.dims indices = true) (hin' : inBounds a'.dims indices' = true)
    (he : elements (arrays.take k) + flat a.dims indices = elements (arrays.take k') + flat
      a'.dims indices') :
    k = k' ∧ indices = indices' := by
  obtain ⟨hlow, hhigh⟩ := flat_bounds hin
  obtain ⟨hlow', hhigh'⟩ := flat_bounds hin'
  rcases Nat.lt_trichotomy k k' with hlt | rfl | hlt
  · have := h.take_le hk hlt
    omega
  · cases hk.symm.trans hk'
    exact ⟨rfl, flat_inj hin hin' (by omega)⟩
  · have := h.take_le hk' hlt
    omega

end Packed

end SingleAssignment.Builder
