import SingleAssignment.Proofs.Ledger
import SingleAssignment.Proofs.Storage

/-!
# Where declared arrays lie

Whatever calls a builder gets, its arrays are those that were declared, and they follow each other
in memory (`allotted_after`). Where all elements fit below the greatest word, nothing wraps: the
words for bases, strides and sizes are the numbers they stand for, every element lies in its array,
and two elements are at least a word apart.
-/

namespace SingleAssignment.Builder

open Source List

/-! ## The arrays of a state -/

/-- The arrays of a state are those of the given shapes, one behind the other. -/
structure Allotted (settings : Settings) (shapes : List (String × List Int64)) (s : State) :
    Prop where
  setup : s.settings = settings.toSetup
  shapes : s.arrays.map ArrayInfo.shape = shapes
  packed : Packed settings s.arrays s.nextAddress

variable {settings : Settings} {shapes : List (String × List Int64)} {s t : State}

theorem elements_layout (arrays : List ArrayInfo) :
    elements (arrays.map ArrayInfo.layout) = elements arrays := by
  rw [elements, map_map]
  rfl

/-- Where arrays lie does not depend on their epochs. -/
theorem packed_layout {arrays : List ArrayInfo} {next : Int64} :
    Packed settings (arrays.map ArrayInfo.layout) next ↔ Packed settings arrays next := by
  constructor
  · intro h
    refine ⟨fun {k a} hk => ?_, fun {a} ha => ?_, fun {a} ha => ?_, ?_⟩
    · have hbase := h.base (k := k) (a := a.layout) (by rw [getElem?_map, hk]; rfl)
      rwa [← map_take, elements_layout] at hbase
    · exact h.strides (a := a.layout) (mem_map_of_mem ha)
    · exact h.dims (a := a.layout) (mem_map_of_mem ha)
    · exact h.next.trans (by rw [elements_layout])
  · intro h
    refine ⟨fun {k a} hk => ?_, fun {a} ha => ?_, fun {a} ha => ?_, ?_⟩
    · rw [getElem?_map] at hk
      obtain ⟨a₀, hk₀, rfl⟩ := Option.map_eq_some_iff.mp hk
      rw [← map_take, elements_layout]
      exact h.base (a := a₀) hk₀
    · obtain ⟨a₀, ha₀, rfl⟩ := mem_map.mp ha
      exact h.strides (a := a₀) ha₀
    · obtain ⟨a₀, ha₀, rfl⟩ := mem_map.mp ha
      exact h.dims (a := a₀) ha₀
    · rw [elements_layout]
      exact h.next

theorem Allotted.congr (h : Allotted settings shapes s) (ht : t.holdings = s.holdings) :
    Allotted settings shapes t := by
  have harrays : t.arrays.map ArrayInfo.layout = s.arrays.map ArrayInfo.layout :=
    congrArg (·.2.2) ht
  refine ⟨(congrArg (·.1) ht).trans h.setup, ?_, ?_⟩
  · have hshapes := congrArg (List.map ArrayInfo.shape) harrays
    rw [map_map, map_map] at hshapes
    exact hshapes.trans h.shapes
  · rw [← packed_layout, harrays, packed_layout, show t.nextAddress = s.nextAddress
      from congrArg (·.2.1) ht]
    exact h.packed

/-- One more array lies behind the others. -/
theorem Allotted.addArray (h : Allotted settings shapes s) (name : String) {dims : List Int64}
    (hdims : ∀ d ∈ dims, 0 < d) : Allotted settings (shapes ++ [(name, dims)])
    (s.addArray name dims).2 := by
  let u : State := { s with
    arrays := s.arrays ++ [(s.addArray name dims).1]
    nextAddress := s.nextAddress + dims.foldl (· * ·) 1 * s.settings.wordSize }
  have hu : Allotted settings (shapes ++ [(name, dims)]) u := by
    refine ⟨h.setup, ?_, ?_⟩
    · exact (map_append ..).trans (congrArg (· ++ _) h.shapes)
    · have hpush := h.packed.push (a := (s.addArray name dims).1) rfl rfl hdims
      rwa [← show s.settings.wordSize = settings.wordSize from congrArg (·.wordSize)
        h.setup] at hpush
  refine hu.congr ((holdings_addArray s name dims).trans ?_)
  rw [show u.holdings = (_, _, u.arrays.map ArrayInfo.layout) from rfl, map_append]
  rfl

/-- The arrays of a builder are those that its calls declare, one behind the other. -/
theorem allotted_after (settings : Settings) (calls : List Call) :
    Allotted settings (declared calls) (State.after settings calls) := by
  induction calls using List.reverseRecOn with
  | nil => exact ⟨rfl, rfl, .nil settings⟩
  | append_singleton calls c ih =>
    rw [after_concat]
    cases c with
    | declareArray name dims =>
      rw [declared_concat, run_declareArray, ih.shapes]
      dsimp only
      split
      · rename_i hable
        simp only [declarable, Bool.and_eq_true, all_eq_true, decide_eq_true_eq] at hable
        exact ih.addArray name hable.1.2
      · exact ih
    | _ =>
      rw [declared_concat, Call.run_eq]
      exact ih.congr ((Call.keeps_holdings fun _ _ he => by cases he).endState_eq _)

/-! ## Addresses that do not wrap -/

/-- The address of an element in the integers: the base and, for each index, so many times its
stride, in words of the given size. -/
def ArrayInfo.exactAddress (a : ArrayInfo) (word : Int64) (indices : List Int64) : Int :=
  a.base.toInt + word.toInt * ((indices.zip a.strides).map fun t => t.1.toInt * t.2.toInt).sum

/-- The address in words is the word of the address in the integers. -/
theorem ArrayInfo.ofInt_exactAddress (a : ArrayInfo) (word : Int64) (indices : List Int64) :
    Int64.ofInt (a.exactAddress word indices) = a.address word indices := by
  have hsum : ∀ (terms : List (Int64 × Int64)) (n : Int64),
      n + Int64.ofInt (terms.map fun t => t.1.toInt * t.2.toInt).sum =
        terms.foldl (fun n t => n + t.1 * t.2) n := by
    intro terms
    induction terms with
    | nil => exact fun n => Int64.add_zero n
    | cons t terms ih =>
      intro n
      rw [map_cons, sum_cons, Int64.ofInt_add, Int64.ofInt_mul, Int64.ofInt_toInt,
        Int64.ofInt_toInt, ← Int64.add_assoc, ih, foldl_cons]
  rw [exactAddress, address, addUp, ← hsum, Int64.zero_add, Int64.ofInt_add, Int64.ofInt_mul,
    Int64.ofInt_toInt, Int64.ofInt_toInt, Int64.mul_comm]

theorem toInt_ofInt_of_nonneg {n : Int} (h₀ : 0 ≤ n) (h : n < 2 ^ 63) : (Int64.ofInt n).toInt = n :=
  Int64.toInt_ofInt_of_le (by omega) h

/-- Strides that do not wrap number the elements. -/
theorem sum_stridesOf {dims : List Int64} (hdims : ∀ d ∈ dims, 0 < d) (hfits : extent dims < 2 ^ 63)
    (indices : List Int64) :
    ((indices.zip (stridesOf dims)).map fun t => t.1.toInt * t.2.toInt).sum = flat
    dims indices := by
  induction dims generalizing indices with
  | nil =>
    rw [stridesOf, zip_nil_right]
    rfl
  | cons d dims ih =>
    have hrest : ∀ d ∈ dims, 0 < d := fun d' hd' => hdims d' (mem_cons_of_mem _ hd')
    have hpos := extent_pos hrest
    have hd : 0 < d.toInt := Int64.lt_iff_toInt_lt.mp (hdims d (mem_cons_self ..))
    have hlt : extent dims < 2 ^ 63 := by
      rw [extent_cons] at hfits
      nlinarith
    cases indices with
    | nil => rfl
    | cons i rest =>
      rw [stridesOf, zip_cons_cons, map_cons, sum_cons, ih hrest hlt, flat, ← ofInt_extent,
        toInt_ofInt_of_nonneg (Int.le_of_lt hpos) hlt]

section Fits

variable {arrays : List ArrayInfo} {next : Int64} {a : ArrayInfo} {k : Nat} {indices : List Int64}

/-- All arrays end before the first address that is no word. -/
structure Fits (settings : Settings) (arrays : List ArrayInfo) : Prop where
  base : 0 ≤ settings.baseAddress.toInt
  word : 0 < settings.wordSize.toInt
  below : settings.baseAddress.toInt + settings.wordSize.toInt * elements arrays < 2 ^ 63

theorem Packed.toInt_base (h : Packed settings arrays next) (hf : Fits settings arrays)
    (hk : arrays[k]? = some a) :
    a.base.toInt = settings.baseAddress.toInt + settings.wordSize.toInt * elements
      (arrays.take k) := by
  have hle := h.take_le_elements hk
  have hnonneg := h.take_nonneg k
  have hpos := extent_pos (h.dims (mem_of_getElem? hk))
  have := hf.base
  have := hf.word
  have := hf.below
  rw [h.base hk, Settings.addressAt, toInt_ofInt_of_nonneg (by nlinarith) (by nlinarith)]

theorem Packed.extent_lt (h : Packed settings arrays next) (hf : Fits settings arrays)
    (hk : arrays[k]? = some a) : extent a.dims < 2 ^ 63 := by
  have hle := h.take_le_elements hk
  have hnonneg := h.take_nonneg k
  have := hf.base
  have := hf.word
  have := hf.below
  nlinarith

theorem Packed.toInt_size (h : Packed settings arrays next) (hf : Fits settings arrays)
    (hk : arrays[k]? = some a) : a.size.toInt = extent a.dims := by
  have hpos := extent_pos (h.dims (mem_of_getElem? hk))
  rw [ArrayInfo.size, foldl_mul_eq, Int64.one_mul,
    toInt_ofInt_of_nonneg (Int.le_of_lt hpos) (h.extent_lt hf hk)]

/-- The elements of all arrays are numbered, and a word lies between one number and the next. -/
theorem Packed.exactAddress_eq (h : Packed settings arrays next) (hf : Fits settings arrays)
    (hk : arrays[k]? = some a) (indices : List Int64) :
    a.exactAddress settings.wordSize indices = settings.baseAddress.toInt +
      settings.wordSize.toInt * (elements (arrays.take k) + flat a.dims indices) := by
  have hmem := mem_of_getElem? hk
  rw [ArrayInfo.exactAddress, h.strides hmem, sum_stridesOf (h.dims hmem) (h.extent_lt hf hk),
    h.toInt_base hf hk]
  ring

/-- The address that is computed in words is the one in the integers. -/
theorem Packed.toInt_address (h : Packed settings arrays next) (hf : Fits settings arrays)
    (hk : arrays[k]? = some a) (hin : inBounds a.dims indices = true) :
    (a.address settings.wordSize indices).toInt = a.exactAddress settings.wordSize indices := by
  have hlow := (flat_bounds hin).1
  have hnum := h.number_lt hk hin
  have hnonneg := h.take_nonneg k
  have := hf.base
  have := hf.word
  have := hf.below
  rw [h.address_eq hk, h.exactAddress_eq hf hk, Settings.addressAt,
    toInt_ofInt_of_nonneg (by nlinarith) (by nlinarith)]

end Fits

/-- The layout of arrays is injective. The arrays that calls declare lie in memory so that, where
all of them end before the first address that is no word, the address of every element, in words as
in the integers, is within its array, and two elements, of one array or of two, are at least a word
apart. -/
theorem exactAddress_separated (settings : Settings) (calls : List Call)
    (hbase : 0 ≤ settings.baseAddress) (hword : 0 < settings.wordSize)
    (hfits : settings.baseAddress.toInt +
      settings.wordSize.toInt * ((declared calls).map fun shape => extent shape.2).sum < 2 ^ 63) :
    (State.after settings calls).arrays.map ArrayInfo.shape = declared calls ∧
    (∀ a ∈ (State.after settings calls).arrays, ∀ indices, inBounds a.dims indices = true →
      (a.address settings.wordSize indices).toInt = a.exactAddress settings.wordSize indices ∧
      a.base.toInt ≤ a.exactAddress settings.wordSize indices ∧
      a.exactAddress settings.wordSize indices < a.base.toInt + settings.wordSize.toInt *
        a.size.toInt) ∧
    ∀ (k l : Nat) (a b : ArrayInfo), (State.after settings calls).arrays[k]? = some a →
      (State.after settings calls).arrays[l]? = some b → ∀ indices indices',
      inBounds a.dims indices = true → inBounds b.dims indices' = true →
        (k, indices) ≠ (l, indices') →
      settings.wordSize.toInt ≤
        |a.exactAddress settings.wordSize indices - b.exactAddress settings.wordSize indices'| := by
  have hall := allotted_after settings calls
  have hsum : ((declared calls).map fun shape => extent shape.2).sum =
      elements (State.after settings calls).arrays := by
    rw [← hall.shapes, map_map]
    rfl
  have hf : Fits settings (State.after settings calls).arrays :=
    ⟨Int64.le_iff_toInt_le.mp hbase, Int64.lt_iff_toInt_lt.mp hword, hsum ▸ hfits⟩
  have hw := hf.word
  refine ⟨hall.shapes, fun a ha indices hin => ?_,
    fun k l a b hk hl indices indices' hin hin' hne => ?_⟩
  · obtain ⟨k, hk⟩ := mem_iff_getElem?.mp ha
    obtain ⟨hlow, hhigh⟩ := flat_bounds hin
    refine ⟨hall.packed.toInt_address hf hk hin, ?_⟩
    rw [hall.packed.exactAddress_eq hf hk, hall.packed.toInt_base hf hk,
      hall.packed.toInt_size hf hk]
    constructor
    · nlinarith
    · nlinarith
  · have hnum := fun he => hne (Prod.ext_iff.mpr (hall.packed.number_inj hk hl hin hin' he))
    rw [hall.packed.exactAddress_eq hf hk, hall.packed.exactAddress_eq hf hl]
    rcases Int.lt_or_gt_of_ne hnum with hlt | hlt
    · rw [abs_sub_comm]
      exact le_abs.mpr (.inl (by nlinarith))
    · exact le_abs.mpr (.inl (by nlinarith))

/-- Two arrays, the first in rows of three. -/
def twoArrays : List Call :=
  [.declareArray "a" [2, 3], .declareArray "b" [4]]

/-- The last element of the first array and the first of the second are a word apart. -/
theorem exactAddress_separated_twoArrays : ∃ a b : ArrayInfo,
    (State.after {} twoArrays).arrays = [a, b] ∧ 4 ≤ |a.exactAddress 4 [1, 2] -
    b.exactAddress 4 [0]| :=
  ⟨_, _, rfl, (exactAddress_separated {} twoArrays (by decide) (by decide) (by decide)).2.2
    0 1 _ _ rfl rfl [1, 2] [0] (by decide) (by decide) (by decide)⟩

end SingleAssignment.Builder
