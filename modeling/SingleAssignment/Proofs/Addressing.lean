import SingleAssignment.Proofs.Allotment
import SingleAssignment.Proofs.Numbering

/-!
# Addresses of elements

The address of an element is computed by a chain of instructions: products of the indices and
strides, their sums, the product with the word size, and the sum with the base. Each of them may be
one that is there already, found by its operands one way round or the other. `Respects` says which
words a valuation may give to instructions, and `State.Computes` that an instruction has a word in
terms of others, in the state and whatever is put in later. From there on each step of the chain has
a lemma, and together they give the address (`WellFormed.gives_elementAddress`). That the constants
of an array are what its base and strides say is an invariant of all calls (`backed_after`).
-/

namespace SingleAssignment

open Code

/-- Whether the first of two words is smaller, the same or greater. -/
def compareWords (x y : Int64) : Int64 :=
  if x < y then -1 else if y < x then 1 else 0

/-- What an arithmetic operation gives, if it gives anything. -/
def Code.Opcode.compute? : Opcode → Int64 → Int64 → Option Int64
  | add, x, y | adda, x, y => some (x + y)
  | sub, x, y => some (x - y)
  | mul, x, y => some (x * y)
  | div, x, y => if y = 0 then none else some (x / y)
  | cmp, x, y => some (compareWords x y)
  | _, _, _ => none

end SingleAssignment

namespace SingleAssignment.Builder

open Code List

/-- Words for the instructions of a state: a constant has its own, and an active sum, difference,
product or quotient of two instructions the one that is computed from theirs, if there is one. -/
structure Respects (ν : InstId → Int64) (s : State) : Prop where
  const : ∀ {id n}, s.IsNumber id n → ν id = n
  compute : ∀ {id i x y n}, s.inst? id = some i → i.active = true → i.op ≠ .cmp → i.x = .inst x →
    i.y = .inst y → i.op.compute? (ν x) (ν y) = some n → ν id = n

/-- Instructions were put in, and all that were there are as they were, but for empty ones. -/
structure Extends (s t : State) : Prop where
  advances : Advances s t
  stays : ∀ {id i}, s.inst? id = some i → i.op ≠ .empty → t.inst? id = some i

/-- An instruction has the word that `f` says, also after others are put in. -/
def State.Computes (s : State) (id : InstId) (f : (InstId → Int64) → Int64) : Prop :=
  ∀ t, Extends s t → ∀ ν, Respects ν t → ν id = f ν

section Steps

variable {s t u : State} {b : BlockId} {id : InstId} {f g : (InstId → Int64) → Int64}

open State

namespace Extends

theorem refl (h : WellFormed s) : Extends s s :=
  ⟨.refl h, fun hi _ => hi⟩

theorem trans (h : Extends s t) (h' : Extends t u) : Extends s u :=
  ⟨h.advances.trans h'.advances, fun hi hop => h'.stays (h.stays hi hop) hop⟩

theorem isSome_inst (h : Extends s t) (hid : (s.inst? id).isSome) : (t.inst? id).isSome := by
  obtain ⟨i, hi⟩ := Option.isSome_iff_exists.mp hid
  obtain ⟨i', hi', -⟩ := h.advances.inst hi
  rw [hi']
  rfl

theorem isNumber (h : Extends s t) {n : Int64} (hn : s.IsNumber id n) : t.IsNumber id n :=
  hn.mono h.advances.inst

/-- An instruction that is put in leaves all others alone. -/
theorem of_placed {d : Draft} (hp : Placed s t b d id) (hadv : Advances s u)
    (hu : ∀ id', id' ≠ id → u.inst? id' = t.inst? id') : Extends s u := by
  refine ⟨hadv, fun {id' i} hi hop => ?_⟩
  rw [hu id' fun he => hop (hp.fresh i (he ▸ hi)).2.1]
  exact hp.inst_eq hi hop

end Extends

theorem State.Computes.mono (h : s.Computes id f) (ht : Extends s t) : t.Computes id f :=
  fun u hu ν hν => h u (ht.trans hu) ν hν

theorem State.Computes.self (s : State) (id : InstId) : s.Computes id fun ν => ν id :=
  fun _ _ _ _ => rfl

theorem State.IsNumber.computes {n : Int64} (h : s.IsNumber id n) : s.Computes id fun _ => n :=
  fun _ ht _ hν => hν.const (ht.isNumber h)

theorem State.IsNumber.isSome {n : Int64} (h : s.IsNumber id n) : (s.inst? id).isSome := by
  obtain ⟨i, hi, -⟩ := h
  rw [hi]
  rfl

theorem id_ne_zero (h : (s.inst? id).isSome) : id ≠ 0 := by
  rintro rfl
  cases h

theorem operand_eq {v : Value} (h : v.id ≠ 0) : v.operand = .inst v.id :=
  if_neg h

/-! ## One instruction -/

theorem WellFormed.extends_const (h : WellFormed s) (n : Int64) : Extends s (s.const n).2 := by
  refine ⟨(h.const n).1, ?_⟩
  unfold State.const
  cases (s.entriesOf entryBlock).find? fun e => e.op == .const && e.x == .literal n &&
    s.isLive e.id with
  | some e => exact fun {_ _} hi _ => hi
  | none =>
    obtain ⟨blk, hb⟩ := Option.isSome_iff_exists.mp h.wired.entry
    have hp := h.place (d := { op := .const, x := .literal n }) hb
      (Listed.leadingRun_le_endOf entryBlock) (by intro he; cases he)
    exact fun {_ _} hi hop => (inst?_modifyBlock ..).trans (hp.inst_eq hi hop)

/-- A numbered operation at the end of a block, with any tag. -/
theorem WellFormed.numberAtEnd_spec (h : WellFormed s) (hb : (s.block? b).isSome) (op : Opcode)
    (hnum : op.isNumbered = true) (hconst : op ≠ .const) (x y : Value) (tag : MemoryTag) :
    Extends s (s.numberAtEnd b op x y tag).2 ∧
      ∃ swapped, IsValueAt (s.numberAtEnd b op x y tag).2 b op x.operand y.operand
        (s.numberAtEnd b op x y tag).1.id swapped := by
  have hadv := h.numberAtEnd hb op x y tag hnum hconst
  unfold State.numberAtEnd State.number at hadv ⊢
  cases hfind : s.find? b op x.operand y.operand tag (s.endOf b) with
  | some found => exact ⟨.refl h, found.2, h.isValueAt_of_find? hnum hfind⟩
  | none =>
    rw [hfind] at hadv
    dsimp only at hadv ⊢
    obtain ⟨i, hi, hactive, hop, hblock, hx, hy⟩ := (h.placeNumbered_spec hb
      (d := { op := op, x := x.operand, y := y.operand, srcX := x.src, srcY := y.src }) tag hnum
      (Listed.leadingRun_le_endOf b)).1
    obtain ⟨ds, hds⟩ := hadv.wellFormed.wired.dominatorsOf (hadv.isSome_block hb)
    refine ⟨?_, false, i, hi, hactive, hop, ?_, .inl ⟨rfl, hx, hy⟩⟩
    · obtain ⟨blk, hb⟩ := Option.isSome_iff_exists.mp hb
      have hp := h.place (d := { op := op, x := x.operand, y := y.operand, srcX := x.src,
                                 srcY := y.src }) hb
        (Listed.leadingRun_le_endOf b) (by rintro rfl; cases hnum)
      refine .of_placed hp hadv fun id' hne => ?_
      unfold State.placeNumbered
      dsimp only
      split
      · rw [inst?_modifyInst, if_neg hne]
        exact inst?_modifyBlock ..
      · exact inst?_modifyBlock ..
    · rw [hds, hblock]
      exact mem_cons_self ..

theorem compute?_comm {op : Opcode} (h : op.isCommutative = true) (m n : Int64) :
    op.compute? m n = op.compute? n m := by
  cases op with
  | add => exact congrArg some (Int64.add_comm m n)
  | mul => exact congrArg some (Int64.mul_comm m n)
  | _ => cases h

/-- A step puts instructions in and yields one that has the word that `f` says. -/
structure Gives (s : State) (r : Value × State) (f : (InstId → Int64) → Int64) : Prop where
  ext : Extends s r.2
  inst : (r.2.inst? r.1.id).isSome
  word : r.2.Computes r.1.id f

/-- An operation at the end of a block computes the word of its operands, be it there already or
not. -/
theorem WellFormed.gives_numberAtEnd (h : WellFormed s) (hb : (s.block? b).isSome) (op : Opcode)
    {F : Int64 → Int64 → Int64} (hF : ∀ m n, op.compute? m n = some (F m n))
    (hcmp : op ≠ .cmp) {x y : Value} (hx : (s.inst? x.id).isSome) (hy : (s.inst? y.id).isSome)
    (hf : s.Computes x.id f) (hg : s.Computes y.id g) : Gives s (s.numberAtEnd b op x y {})
    fun ν => F (f ν) (g ν) := by
  have hop : op.isNumbered = true ∧ op ≠ .const ∧ op ≠ .empty := by
    cases op with
    | add | sub | mul | cmp | adda => decide
    | div => cases (hF 0 0).symm.trans rfl
    | _ => cases hF 0 0
  obtain ⟨hext, swapped, i, hi, hactive, hiop, -, hoperands⟩ :=
    h.numberAtEnd_spec hb op hop.1 hop.2.1 x y {}
  refine ⟨hext, by rw [hi]; rfl, fun u hu ν hν => ?_⟩
  have hui := hu.stays hi (hiop ▸ hop.2.2)
  show ν _ = F (f ν) (g ν)
  rw [← hf u (hext.trans hu) ν hν, ← hg u (hext.trans hu) ν hν]
  rw [operand_eq (id_ne_zero hx), operand_eq (id_ne_zero hy)] at hoperands
  rcases hoperands with ⟨-, hix, hiy⟩ | ⟨-, hcomm, hix, hiy⟩
  · exact hν.compute hui hactive (hiop ▸ hcmp) hix hiy (hiop ▸ hF _ _)
  · exact hν.compute hui hactive (hiop ▸ hcmp) hix hiy
      (hiop ▸ (compute?_comm hcomm _ _).trans (hF _ _))

/-! ## The chain -/

theorem WellFormed.gives_scaleIndex (h : WellFormed s) (hb : (s.block? b).isSome)
    {index v : Value} {n : Int64} (hindex : (s.inst? index.id).isSome) (hf : s.Computes index.id f)
    (hn : s.IsNumber v.id n) : Gives s (s.scaleIndex b index n v) fun ν => f ν * n := by
  unfold State.scaleIndex
  split
  · rename_i hone
    refine ⟨.refl h, hindex, fun u hu ν hν => (hf u hu ν hν).trans ?_⟩
    rw [hone, Int64.mul_one]
  · exact h.gives_numberAtEnd hb .mul (fun _ _ => rfl) (by decide) hindex hn.isSome hf hn.computes

/-- An index is there, and its stride is known by a constant. -/
def State.IsTerm (s : State) (t : Value × Int64 × Value) : Prop :=
  (s.inst? t.1.id).isSome ∧ s.IsNumber t.2.2.id t.2.1

theorem State.IsTerm.mono {r : Value × Int64 × Value} (h : s.IsTerm r) (ht : Extends s t) :
    t.IsTerm r :=
  ⟨ht.isSome_inst h.1, ht.isNumber h.2⟩

/-- A number and indices are added up, each times its stride. -/
def sumTerms (ν : InstId → Int64) (terms : List (Value × Int64 × Value)) (n : Int64) : Int64 :=
  terms.foldl (fun n t => n + ν t.1.id * t.2.1) n

theorem WellFormed.gives_addIndices (h : WellFormed s) (hb : (s.block? b).isSome) {offset : Value}
    (hoffset : (s.inst? offset.id).isSome) (hf : s.Computes offset.id f)
    {terms : List (Value × Int64 × Value)} (hterms : ∀ t ∈ terms, s.IsTerm t) :
    Gives s (s.addIndices b offset terms) fun ν => sumTerms ν terms (f ν) := by
  induction terms generalizing s offset f with
  | nil => exact ⟨.refl h, hoffset, hf⟩
  | cons t terms ih =>
    obtain ⟨index, n, v⟩ := t
    obtain ⟨hindex, hn⟩ := hterms _ (mem_cons_self ..)
    have hscale := h.gives_scaleIndex hb hindex (.self s index.id) hn
    have hadd := hscale.ext.advances.wellFormed.gives_numberAtEnd
      (hscale.ext.advances.isSome_block hb) .add (fun _ _ => rfl) (by decide)
      (hscale.ext.isSome_inst hoffset) hscale.inst (hf.mono hscale.ext) hscale.word
    have hext := hscale.ext.trans hadd.ext
    have hrest := ih hext.advances.wellFormed (hext.advances.isSome_block hb) hadd.inst hadd.word
      fun t ht => (hterms t (mem_cons_of_mem _ ht)).mono hext
    exact ⟨hext.trans hrest.ext, hrest.inst, hrest.word⟩

theorem WellFormed.gives_elementOffset (h : WellFormed s) (hb : (s.block? b).isSome)
    {terms : List (Value × Int64 × Value)} (hne : terms ≠ []) (hterms : ∀ t ∈ terms, s.IsTerm t) :
    Gives s (s.elementOffset b terms) fun ν => sumTerms ν terms 0 := by
  cases terms with
  | nil => exact absurd rfl hne
  | cons t terms =>
    obtain ⟨index, n, v⟩ := t
    obtain ⟨hindex, hn⟩ := hterms _ (mem_cons_self ..)
    have hscale := h.gives_scaleIndex hb hindex (.self s index.id) hn
    have hrest := hscale.ext.advances.wellFormed.gives_addIndices
      (hscale.ext.advances.isSome_block hb) hscale.inst hscale.word
      fun t ht => (hterms t (mem_cons_of_mem _ ht)).mono hscale.ext
    refine ⟨hscale.ext.trans hrest.ext, hrest.inst, fun u hu ν hν => (hrest.word u hu ν hν).trans
      ?_⟩
    rw [sumTerms, sumTerms, foldl_cons, Int64.zero_add]

/-- The base and the word size times the offset are added up. -/
theorem WellFormed.gives_elementAddress (h : WellFormed s) (hb : (s.block? b).isSome)
    {a : ArrayInfo} {indices : List Value} (hbase : s.IsNumber a.baseValue.id a.base)
    (hne : indices.zip (a.strides.zip a.strideValues) ≠ [])
    (hterms : ∀ t ∈ indices.zip (a.strides.zip a.strideValues), s.IsTerm t) :
    Gives s (s.elementAddress b a indices) fun ν =>
      a.base + sumTerms ν (indices.zip (a.strides.zip a.strideValues)) 0 * s.settings.wordSize := by
  unfold State.elementAddress
  have hset : (s.elementOffset b (indices.zip (a.strides.zip a.strideValues))).2.settings =
    s.settings :=
    congrArg (·.1) (aside_holdings.elementOffset s b _)
  have hoffset := h.gives_elementOffset hb hne hterms
  generalize s.elementOffset b (indices.zip (a.strides.zip a.strideValues)) = r at *
  obtain ⟨offset, t⟩ := r
  dsimp only at hset ⊢
  rw [hset]
  have ht := hoffset.ext.advances.wellFormed
  have hword := (ht.const s.settings.wordSize).2.1
  have hconst := ht.extends_const s.settings.wordSize
  generalize t.const s.settings.wordSize = r at *
  obtain ⟨word, u⟩ := r
  dsimp only at *
  have hu := hoffset.ext.trans hconst
  have hmul := hconst.advances.wellFormed.gives_numberAtEnd (hu.advances.isSome_block hb) .mul
    (fun _ _ => rfl) (by decide) (hconst.isSome_inst hoffset.inst) hword.isSome
    (hoffset.word.mono hconst) hword.computes
  have hv := hu.trans hmul.ext
  have hadd := hmul.ext.advances.wellFormed.gives_numberAtEnd (hv.advances.isSome_block hb) .adda
    (fun _ _ => rfl) (by decide) (hv.isSome_inst hbase.isSome) hmul.inst (hbase.computes.mono hv)
    hmul.word
  exact ⟨hv.trans hadd.ext, hadd.inst, hadd.word⟩

end Steps

/-! ## The constants of arrays -/

/-- An array has a dimension, and constants for its base and for the stride of each dimension. -/
structure Backed (s : State) (a : ArrayInfo) : Prop where
  dims : a.dims ≠ []
  strides : a.strides = stridesOf a.dims
  base : s.IsNumber a.baseValue.id a.base
  stride : List.Forall₂ (fun n v => s.IsNumber v.id n) a.strides a.strideValues

section Backed

variable {s t : State} {a : ArrayInfo}

theorem Backed.mono (h : Backed s a)
    (ht : ∀ {id i}, s.inst? id = some i → ∃ i', t.inst? id = some i' ∧ Outlives i i') :
    Backed t a :=
  ⟨h.dims, h.strides, h.base.mono ht, h.stride.imp fun _ _ hn => hn.mono ht⟩

theorem Backed.layout : Backed s a.layout ↔ Backed s a :=
  ⟨fun h => ⟨h.dims, h.strides, h.base, h.stride⟩, fun h => ⟨h.dims, h.strides, h.base, h.stride⟩⟩

theorem WellFormed.forall₂_consts (h : WellFormed s) (ns : List Int64) :
    List.Forall₂ (fun n v => (s.consts ns).2.IsNumber v.id n) ns (s.consts ns).1 := by
  induction ns generalizing s with
  | nil => exact .nil
  | cons n ns ih =>
    have hconst := h.const n
    have hrest := hconst.1.wellFormed.consts ns
    exact .cons (hconst.2.1.mono hrest.inst) (ih hconst.1.wellFormed)

/-- A new array has its constants. -/
theorem WellFormed.backed_addArray (h : WellFormed s) (name : String) {dims : List Int64}
    (hdims : dims ≠ []) : Backed (s.addArray name dims).2 (s.addArray name dims).1 := by
  have hstart (n : Int64) : Advances s { s with nextAddress := n } := h.of_arenas rfl rfl rfl rfl
  specialize hstart (s.nextAddress + dims.foldl (· * ·) 1 * s.settings.wordSize)
  have hbase := hstart.wellFormed.const s.nextAddress
  have hstrides := hbase.1.wellFormed.consts (stridesOf dims)
  exact ⟨hdims, rfl, hbase.2.1.mono hstrides.inst, hbase.1.wellFormed.forall₂_consts
    (stridesOf dims)⟩

/-- The arrays of a builder have their constants, whatever calls it gets. -/
theorem backed_after (settings : Settings) (calls : List Call) :
    ∀ a ∈ (State.after settings calls).arrays, Backed (State.after settings calls) a := by
  induction calls using List.reverseRecOn with
  | nil => exact fun a ha => absurd ha not_mem_nil
  | append_singleton calls c ih =>
    rw [after_concat]
    have hw := wellFormed_after settings calls
    intro a ha
    rcases mem_arrays_run ha with ha | ⟨name, dims, hdims, hrun, rfl⟩
    · obtain ⟨a₀, ha₀, he⟩ := mem_map.mp ha
      rw [← Backed.layout, ← he, Backed.layout]
      exact (ih a₀ ha₀).mono (c.continues hw).inst
    · rw [hrun]
      exact hw.backed_addArray name hdims

/-- The offsets that indices and strides have, and the constants for the strides, go together. -/
theorem sumTerms_zip (ν : InstId → Int64) {indices vs : List Value} {ns : List Int64}
    {R : Int64 → Value → Prop} (h : List.Forall₂ R ns vs) (n : Int64) :
    sumTerms ν (indices.zip (ns.zip vs)) n = addUp n (indices.map fun v => ν v.id) ns := by
  induction h generalizing indices n with
  | nil => rw [zip_nil_left, zip_nil_right, addUp, zip_nil_right, sumTerms, foldl_nil, foldl_nil]
  | cons _ _ ih =>
    cases indices with
    | nil => rfl
    | cons index indices =>
      rw [zip_cons_cons, zip_cons_cons, sumTerms, foldl_cons, ← sumTerms, ih, map_cons]
      rfl

theorem Backed.isTerm (h : Backed s a) {indices : List Value}
    (hall : ∀ v ∈ indices, (s.inst? v.id).isSome) :
    ∀ t ∈ indices.zip (a.strides.zip a.strideValues), s.IsTerm t := by
  rintro ⟨index, n, v⟩ ht
  obtain ⟨hindex, hpair⟩ := of_mem_zip ht
  exact ⟨hall index hindex, (forall₂_iff_zip.mp h.stride).2 hpair⟩

/-- The chain of instructions for the address of an element computes it. -/
theorem WellFormed.gives_address (h : WellFormed s) {b : BlockId} (hb : (s.block? b).isSome)
    (ha : Backed s a) {indices : List Value} (hlen : indices.length = a.dims.length)
    (hall : ∀ v ∈ indices, (s.inst? v.id).isSome) :
    Gives s (s.elementAddress b a indices) fun ν =>
      Int64.ofInt (a.exactAddress s.settings.wordSize (indices.map fun v => ν v.id)) := by
  have hne : indices.zip (a.strides.zip a.strideValues) ≠ [] := by
    obtain ⟨d, dims, hdims⟩ := exists_cons_of_ne_nil ha.dims
    have hstrides := ha.strides
    rw [hdims] at hlen hstrides
    obtain ⟨v, vs, -, -, hvs⟩ := forall₂_cons_left_iff.mp (hstrides ▸ ha.stride)
    obtain ⟨index, rest, rfl⟩ := exists_cons_of_length_eq_add_one hlen
    rw [hstrides, hvs]
    exact cons_ne_nil _ _
  obtain ⟨hext, hinst, hword⟩ := h.gives_elementAddress hb ha.base hne (ha.isTerm hall)
  refine ⟨hext, hinst, fun u hu ν hν => (hword u hu ν hν).trans ?_⟩
  show a.base + _ = _
  rw [ArrayInfo.ofInt_exactAddress, ArrayInfo.address, sumTerms_zip ν ha.stride]

end Backed

/-! ## Stores -/

theorem Block.getLast?_insertSlot {blk : Block} {pos : Nat} (h : blk.timeline.length ≤ pos)
    (x : Slot) : (blk.insertSlot pos x).timeline.getLast? = some x := by
  simp [insertSlot, drop_eq_nil_of_le h]

theorem Block.getLast?_moveSlot (blk : Block) (x : Slot) :
    (blk.moveSlot x blk.timeline.length).timeline.getLast? = some x := by
  unfold moveSlot
  cases hk : blk.timeline.findIdx? (· == x) with
  | none => exact getLast?_insertSlot (Nat.le_refl _) x
  | some k =>
    have hlt := (findIdx?_eq_some_iff_findIdx_eq.mp hk).1
    refine getLast?_insertSlot ?_ x
    show (blk.timeline.eraseIdx k).length ≤ _
    rw [if_pos hlt, length_eraseIdx_of_lt hlt]

section Stores

variable {s : State} {b : BlockId}

open State

/-- What is put at the end of a block comes last there. -/
theorem getLast?_place {blk : Block} (hb : s.block? b = some blk) (d : Draft) :
    ((s.place b d (s.endOf b)).2.timelineOf b).getLast? =
    some (.inst (s.place b d (s.endOf b)).1) := by
  have hnew {t : State} {blk' : Block} (ht : t.block? b = some blk')
    (htime : blk'.timeline = blk.timeline) :
      ((t.insertNew b d (s.endOf b)).2.timelineOf b).getLast? =
      some (.inst (t.insertNew b d (s.endOf b)).1) := by
    refine (congrArg List.getLast? ((timelineOf_modifyBlock (s := (t.alloc b d).2) ht b).trans
      (if_pos rfl))).trans ?_
    refine Block.getLast?_insertSlot ?_ _
    rw [htime, endOf, timelineOf_eq hb]
  unfold State.place
  cases (s.block? b).bind (·.placeholder) with
  | none => exact hnew hb rfl
  | some p =>
    have hclear : (s.modifyBlock b fun blk => { blk with placeholder := none }).block? b =
        some { blk with placeholder := none } := by
      rw [block?_modifyBlock, if_pos rfl, hb]
      rfl
    dsimp only
    split
    · exact hnew hb rfl
    · split
      · rw [overwrite_eq]
        refine (congrArg List.getLast?
          ((timelineOf_modifyBlock ((block?_modifyInst ..).trans hclear) b).trans
          (if_pos rfl))).trans ?_
        rw [endOf, timelineOf_eq hb]
        exact Block.getLast?_moveSlot { blk with placeholder := none } (.inst p)
      · exact hnew hclear rfl

/-- A store is the last instruction of its block, and was none before. -/
theorem WellFormed.storeAt_spec (h : WellFormed s) (hb : (s.block? b).isSome)
    (name : String) (epoch : Int) (v addr : Value) : Extends s (s.storeAt b name epoch v addr) ∧
    ∃ id i, ((s.storeAt b name epoch v addr).timelineOf b).getLast? = some (.inst id) ∧
      (∀ j, s.inst? id = some j → j.op = .empty) ∧ (s.storeAt b name epoch v addr).inst?
      id = some i ∧ i.active = true ∧ i.op = .store ∧ i.x = v.operand ∧ i.y = addr.operand := by
  have hadv := h.storeAt hb name epoch v addr
  obtain ⟨blk, hb⟩ := Option.isSome_iff_exists.mp hb
  have hp := h.place (d := ⟨.store, v.operand, addr.operand, v.src, addr.src⟩) hb
    (Listed.leadingRun_le_endOf b) (by intro he; cases he)
  have hlast := getLast?_place hb ⟨.store, v.operand, addr.operand, v.src, addr.src⟩
  have htime (c : BlockId) : (s.storeAt b name epoch v addr).timelineOf c =
      (s.place b ⟨.store, v.operand, addr.operand, v.src, addr.src⟩ (s.endOf b)).2.timelineOf c :=
    (timelineOf_forgetLoads ..).trans (timelineOf_modifyInst ..)
  have hinst (id : InstId) : (s.storeAt b name epoch v addr).inst? id =
      ((s.place b ⟨.store, v.operand, addr.operand, v.src, addr.src⟩ (s.endOf b)).2.modifyInst
        (s.place b ⟨.store, v.operand, addr.operand, v.src, addr.src⟩ (s.endOf b)).1
        fun i => { i with memory := some ⟨name, epoch⟩ }).inst? id := rfl
  generalize s.place b ⟨.store, v.operand, addr.operand, v.src, addr.src⟩ (s.endOf b) = r at *
  obtain ⟨i, hi, hop, hx, hy, -, hactive⟩ := hp.inst
  refine ⟨.of_placed hp hadv fun id hne => ?_, r.1, { i with memory := some ⟨name, epoch⟩ },
    htime b ▸ hlast, fun j hj => (hp.fresh j hj).2.1, ?_, hactive, hop, hx, hy⟩
  · rw [hinst, inst?_modifyInst, if_neg hne]
  · rw [hinst, inst?_modifyInst, if_pos rfl, hi, if_pos rfl]
    rfl

end Stores

section Calls

variable {s : State} {b : BlockId} {name : String} {a : ArrayInfo} {indices : List Value}

/-- A declared array is found in any block that may hold code. -/
theorem succeeds_accessedArray (hne : b ≠ entryBlock) (hb : (s.block? b).isSome)
    (ha : s.array? name = some a) :
    Ends (accessedArray b name) s (fun _ _ => False) fun r t => r = a ∧ t = s := by
  obtain ⟨blk, hb⟩ := Option.isSome_iff_exists.mp hb
  unfold accessedArray
  rw [if_neg hne]
  refine .bind (.bind (.get ?_))
  rw [hb]
  refine .pure (.bind (.get ?_))
  rw [ha]
  exact .pure ⟨rfl, rfl⟩

theorem succeeds_address (hlen : indices.length = a.dims.length) {P : Value → State → Prop}
    (h : P (s.elementAddress b a indices).1 (s.elementAddress b a indices).2) :
    Ends (address b a indices) s (fun _ _ => False) P := by
  unfold address
  rw [if_neg (not_not.mpr hlen)]
  exact ends_step h

theorem succeeds_loadElement (hne : b ≠ entryBlock) (hb : (s.block? b).isSome)
    (ha : s.array? name = some a) (hlen : indices.length = a.dims.length) :
    Ends (loadElement b name indices) s (fun _ _ => False) fun v t =>
      (v, t) = (s.elementAddress b a indices).2.numberAtEnd b .load (s.elementAddress b a indices).1
        {} ⟨name, a.epoch⟩ := by
  refine .bind ((succeeds_accessedArray hne hb ha).imp ?_)
  rintro _ _ ⟨rfl, rfl⟩
  exact .bind (succeeds_address hlen (ends_step rfl))

theorem succeeds_storeElement (hne : b ≠ entryBlock) (hb : (s.block? b).isSome)
    (ha : s.array? name = some a) (hlen : indices.length = a.dims.length) {v : Value}
    (hv : (s.inst? v.id).isSome) :
    Ends (storeElement b name indices v) s (fun _ _ => False) fun _ t =>
      t = (s.elementAddress b a indices).2.storeAt b name a.epoch v
          (s.elementAddress b a indices).1 := by
  obtain ⟨i, hi⟩ := Option.isSome_iff_exists.mp hv
  refine .bind ((succeeds_accessedArray hne hb ha).imp ?_)
  rintro _ _ ⟨rfl, rfl⟩
  refine .bind (.bind (.get ?_))
  rw [hi]
  exact .pure (.bind (succeeds_address hlen (.modify rfl)))

end Calls

/-! ## The address of an access -/

/-- Whatever calls a builder has got, an element of an array is read from and written to its own
address: the instructions that a load and a store take it from compute the base plus the word size
times the indices times the strides, modulo `2 ^ 64`, whichever of them were there before. -/
theorem accesses_exactAddress (settings : Settings) (calls : List Call) (b : BlockId)
    (name : String) (a : ArrayInfo) (indices : List Value) (hne : b ≠ entryBlock)
    (hb : ((State.after settings calls).block? b).isSome)
    (ha : (State.after settings calls).array? name = some a) (hlen : indices.length = a.dims.length)
    (hall : ∀ v ∈ indices, ((State.after settings calls).inst? v.id).isSome) :
    (∃ v t i addr, loadElement b name indices (State.after settings calls) = .ok v t ∧
      t.inst? v.id = some i ∧ i.active = true ∧ i.op = .load ∧ i.x = .inst addr ∧ ∀ ν,
        Respects ν t → ν addr = Int64.ofInt
          (a.exactAddress settings.wordSize (indices.map fun v => ν v.id))) ∧
    ∀ v : Value, ((State.after settings calls).inst? v.id).isSome →
      ∃ t store i addr, storeElement b name indices v (State.after settings calls) = .ok () t ∧
        (t.timelineOf b).getLast? = some (.inst store) ∧
        (∀ j, (State.after settings calls).inst? store = some j → j.op = .empty) ∧
        t.inst? store = some i ∧ i.active = true ∧ i.op = .store ∧ i.x = .inst v.id ∧
          i.y = .inst addr ∧
        ∀ ν, Respects ν t →
          ν addr = Int64.ofInt (a.exactAddress settings.wordSize
            (indices.map fun v => ν v.id)) := by
  have hw := wellFormed_after settings calls
  have hbacked := backed_after settings calls a (mem_of_find?_eq_some ha)
  have hsettings := (allotted_after settings calls).setup
  generalize State.after settings calls = s at *
  have hg := hw.gives_address hb hbacked hlen hall
  rw [hsettings] at hg
  have hw' := hg.ext.advances.wellFormed
  have hb' := hg.ext.advances.isSome_block hb
  constructor
  · obtain ⟨v, t, hok, hvt⟩ := (succeeds_loadElement hne hb ha hlen).exists_ok
    obtain ⟨hext, swapped, i, hi, hactive, hop, -, hoperands⟩ := hw'.numberAtEnd_spec hb' .load rfl
      (by decide) (s.elementAddress b a indices).1 {} ⟨name, a.epoch⟩
    rw [← hvt] at hext hi
    refine ⟨v, t, i, (s.elementAddress b a indices).1.id, hok, hi, hactive, hop, ?_,
      fun ν hν => hg.word t hext ν hν⟩
    rcases hoperands with ⟨-, hx, -⟩ | ⟨-, hcomm, -⟩
    · rw [hx, operand_eq (id_ne_zero hg.inst)]
    · cases hcomm
  · intro v hv
    obtain ⟨⟨⟩, t, hok, ht⟩ := (succeeds_storeElement hne hb ha hlen hv).exists_ok
    obtain ⟨hext, store, i, hlast, hfresh, hi, hactive, hop, hx, hy⟩ :=
      hw'.storeAt_spec hb' name a.epoch v (s.elementAddress b a indices).1
    rw [← ht] at hext hlast hi
    refine ⟨t, store, i, (s.elementAddress b a indices).1.id, hok, hlast, fun j hj => ?_, hi,
      hactive, hop, ?_, ?_, fun ν hν => hg.word t hext ν hν⟩
    · by_contra hj'
      exact hj' (hfresh j (hg.ext.stays hj hj'))
    · rw [hx, operand_eq (id_ne_zero hv)]
    · rw [hy, operand_eq (id_ne_zero hg.inst)]

/-- An array of two rows, and the constants `1`, which is one of its strides, and `2`. -/
def grid : List Call :=
  [.declareArray "a" [2, 3], .const 1, .const 2]

/-- A read of the last element of the second row. -/
theorem accesses_exactAddress_grid : ∃ a : ArrayInfo, (State.after {} grid).array? "a" = some a ∧
    ∃ v t i addr,
      loadElement startBlock "a" [{ id := 3 }, { id := 4 }] (State.after {} grid) = .ok v t ∧
      t.inst? v.id = some i ∧ i.active = true ∧ i.op = .load ∧ i.x = .inst addr ∧
      ∀ ν, Respects ν t → ν addr = Int64.ofInt (a.exactAddress 4 [ν 3, ν 4]) :=
  ⟨_, rfl, (accesses_exactAddress {} grid startBlock "a" _ [{ id := 3 }, { id := 4 }] (by decide)
    (by decide) rfl rfl (by decide)).1⟩

end SingleAssignment.Builder
