import SingleAssignment.Builder.Array

/-!
# The computation of an address

The address of an element is computed from constants and numbered values alone. A `Reckoning` says
of both that they lead on and what their results are fit for; the way from the indices to the
address is then gone once for all of them (`Reckoning.elementAddress`).
-/

namespace SingleAssignment.Builder

open Code List

/-- What the computation of a value in a block keeps to: `Holds` is known on its way, `Leads` says
how it may go on, and only values that are `Fit` are computed with. -/
structure Reckoning (b : BlockId) where
  Holds : State → Prop
  Leads : State → State → Prop
  Fit : State → Value → Prop
  refl {s} : Holds s → Leads s s
  trans {s t u} : Leads s t → Leads t u → Leads s u
  holds {s t} : Holds s → Leads s t → Holds t
  fit_mono {s t v} : Holds s → Leads s t → Fit s v → Fit t v
  fit_empty (s) : Fit s {}
  const {s} : Holds s → ∀ n, Leads s (s.const n).2 ∧ Fit (s.const n).2 (s.const n).1
  number {s x y} (op) : Holds s → op.isNumbered = true → op ≠ .const → op ≠ .load →
    Fit s x → Fit s y → Leads s (s.numberAtEnd b op x y {}).2 ∧ Fit (s.numberAtEnd b op x y {}).2
    (s.numberAtEnd b op x y {}).1

namespace Reckoning

variable {b : BlockId} (R : Reckoning b) {s : State}

/-- It leads to a state where the result is fit. -/
def LeadsToFit (s : State) (r : Value × State) : Prop :=
  R.Leads s r.2 ∧ R.Fit r.2 r.1

/-- What is done with a result. -/
theorem LeadsToFit.andThen {R : Reckoning b} {r r' : Value × State} (h : R.Holds s)
    (hr : R.LeadsToFit s r) (next : R.Holds r.2 → R.LeadsToFit r.2 r') : R.LeadsToFit s r' :=
  ⟨R.trans hr.1 (next (R.holds h hr.1)).1, (next (R.holds h hr.1)).2⟩

theorem scaleIndex {index strideValue : Value} (h : R.Holds s) (hi : R.Fit s index)
    (hs : R.Fit s strideValue) (stride : Int64) :
    R.LeadsToFit s (s.scaleIndex b index stride strideValue) := by
  unfold State.scaleIndex
  split
  · exact ⟨R.refl h, hi⟩
  · exact R.number .mul h rfl (by decide) (by decide) hi hs

theorem addIndices {offset : Value} {terms : List (Value × Int64 × Value)} (h : R.Holds s)
    (hx : R.Fit s offset) (hterms : ∀ t ∈ terms, R.Fit s t.1 ∧ R.Fit s t.2.2) :
    R.LeadsToFit s (s.addIndices b offset terms) := by
  induction terms generalizing s offset with
  | nil => exact ⟨R.refl h, hx⟩
  | cons t terms ih =>
    obtain ⟨index, stride, strideValue⟩ := t
    obtain ⟨hi, hs⟩ := hterms _ (mem_cons_self ..)
    have hscale := R.scaleIndex h hi hs stride
    have hadd := hscale.andThen h fun h' =>
      R.number .add h' rfl (by decide) (by decide) (R.fit_mono h hscale.1 hx) hscale.2
    refine hadd.andThen h fun h' => ih h' hadd.2 fun t ht => ?_
    obtain ⟨hi, hs⟩ := hterms t (mem_cons_of_mem _ ht)
    exact ⟨R.fit_mono h hadd.1 hi, R.fit_mono h hadd.1 hs⟩

theorem elementOffset {terms : List (Value × Int64 × Value)} (h : R.Holds s)
    (hterms : ∀ t ∈ terms, R.Fit s t.1 ∧ R.Fit s t.2.2) :
    R.LeadsToFit s (s.elementOffset b terms) := by
  cases terms with
  | nil => exact ⟨R.refl h, R.fit_empty s⟩
  | cons t terms =>
    obtain ⟨index, stride, strideValue⟩ := t
    obtain ⟨hi, hs⟩ := hterms _ (mem_cons_self ..)
    have hscale := R.scaleIndex h hi hs stride
    refine hscale.andThen h fun h' => R.addIndices h' hscale.2 fun t ht => ?_
    obtain ⟨hi, hs⟩ := hterms t (mem_cons_of_mem _ ht)
    exact ⟨R.fit_mono h hscale.1 hi, R.fit_mono h hscale.1 hs⟩

/-- An address is the sum of the base of the array and another value. -/
theorem elementAddress_eq {a : ArrayInfo} {indices : List Value} (h : R.Holds s)
    (hbase : R.Fit s a.baseValue) (hterms : ∀ t ∈ indices.zip (a.strides.zip a.strideValues),
      R.Fit s t.1 ∧ R.Fit s t.2.2) :
    ∃ t x, s.elementAddress b a indices = t.numberAtEnd b .adda a.baseValue x {} ∧ R.Leads s t ∧
      R.Fit t a.baseValue ∧ R.Fit t x := by
  have hoffset := R.elementOffset h hterms
  have h₁ := R.holds h hoffset.1
  have hword := R.const h₁ (s.elementOffset b
    (indices.zip (a.strides.zip a.strideValues))).2.settings.wordSize
  have hscaled := R.number .mul (R.holds h₁ hword.1) rfl (by decide) (by decide)
    (R.fit_mono h₁ hword.1 hoffset.2) hword.2
  have hall := R.trans (R.trans hoffset.1 hword.1) hscaled.1
  exact ⟨_, _, rfl, hall, R.fit_mono h hall hbase, hscaled.2⟩

theorem elementAddress {a : ArrayInfo} {indices : List Value} (h : R.Holds s)
    (hbase : R.Fit s a.baseValue) (hterms : ∀ t ∈ indices.zip (a.strides.zip a.strideValues),
      R.Fit s t.1 ∧ R.Fit s t.2.2) :
    R.LeadsToFit s (s.elementAddress b a indices) := by
  obtain ⟨t, x, he, hl, hbase', hx⟩ := R.elementAddress_eq h hbase hterms
  rw [he]
  have hsum := R.number .adda (R.holds h hl) rfl (by decide) (by decide) hbase' hx
  exact ⟨R.trans hl hsum.1, hsum.2⟩

end Reckoning

end SingleAssignment.Builder
