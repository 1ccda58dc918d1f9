import SingleAssignment.Proofs.Course

/-!
# Reused loads

Reading an element of an array may find a load that is there already. The load is then passed on
every way to the place where the element is read, and between the two no store to the array is
passed (`load_reused`), whatever was built before, behind and in between.

The load carries the current tag of its array where it is found, so all stores there are stand
before it, and so does the header of every loop. A store that is added later stands behind the
place. A way that passes one would have to come back through the header of a loop that is entered
behind the load.
-/

namespace SingleAssignment

open Code Builder List Builder.State

/-! ## Ways through a program -/

/-- A place in a program: a block, and the number of its instructions that were passed. -/
structure Point where
  block : BlockId
  index : Nat

namespace Program

/-- The instructions of a block in order, retired ones included. -/
def orderOf (p : Program) (b : BlockId) : List InstId :=
  ((p.block? b).map (·.order)).getD []

/-- The blocks that control may go to from the end of a block. -/
def childrenOf (p : Program) (b : BlockId) : List BlockId :=
  ((p.block? b).map (·.children)).getD []

/-- A way from one point to another, with the instructions that are passed. -/
inductive Path (p : Program) : Point → List InstId → Point → Prop
  | here (q : Point) : Path p q [] q
  | pass {b : BlockId} {k : Nat} {id : InstId} {ids : List InstId} {q : Point}
      (hid : (p.orderOf b)[k]? = some id) (rest : Path p ⟨b, k + 1⟩ ids q) :
      Path p ⟨b, k⟩ (id :: ids) q
  | jump {b c : BlockId} {ids : List InstId} {q : Point} (hc : c ∈ p.childrenOf b)
      (rest : Path p ⟨c, 0⟩ ids q) : Path p ⟨b, (p.orderOf b).length⟩ ids q

/-- An instruction is a store to an array. -/
def IsStore (p : Program) (array : String) (id : InstId) : Prop :=
  ∃ i, p.inst? id = some i ∧ i.op = .store ∧ i.memory.map (·.array) = some array

/-- The point where a block of an earlier state ended: behind the last instruction of the block that
was there. An empty instruction holds a place only and does not count. -/
def endOf (p : Program) (s : State) (b : BlockId) : Point :=
  let old := ((s.timelineOf b).filterMap Slot.inst?).filter fun id => s.isCode (.inst id)
  ⟨b, (p.orderOf b).length - (p.orderOf b).reverse.findIdx (old.contains ·)⟩

end Program

/-! ## Lists -/

/-- Where one element comes before another. -/
theorem lt_of_pair_sublist {α : Type} {l : List α} {x y : α} {i j : Nat} (hn : l.Nodup)
    (h : [x, y].Sublist l) (hx : l[i]? = some x) (hy : l[j]? = some y) : i < j := by
  have hj := (List.getElem?_eq_some_iff.mp hy).1
  have hl : l = l.take j ++ y :: l.drop (j + 1) := by
    rw [← (List.getElem?_eq_some_iff.mp hy).2, ← drop_eq_getElem_cons hj, take_append_drop]
  rw [hl] at h hn
  obtain ⟨i', hi', hx'⟩ := mem_iff_getElem.mp ((pair_sublist_iff hn).mp h)
  rw [length_take] at hi'
  rw [getElem_take] at hx'
  rw [← hl] at hn
  have hsame : i' = i := (getElem?_inj (by omega) hn).mp (by
    rw [hx, getElem?_eq_getElem (by omega), hx'])
  omega

/-- The length of a list up to its last element with a property. -/
theorem length_sub_findIdx_reverse {α : Type} (l : List α) (P : α → Bool) :
    (∀ j y, l[j]? = some y → P y = true → j < l.length - l.reverse.findIdx P) ∧
    ∀ k ≤ l.length, (∀ j y, l[j]? = some y → P y = true → j < k) →
      l.length - l.reverse.findIdx P ≤ k := by
  constructor
  · intro j y hj hy
    have hlt := (List.getElem?_eq_some_iff.mp hj).1
    have hrev : l.reverse[l.length - 1 - j]? = some y := by
      rw [getElem?_reverse (by omega)]
      rw [show l.length - 1 - (l.length - 1 - j) = j by omega]
      exact hj
    obtain ⟨hlt', hget⟩ := List.getElem?_eq_some_iff.mp hrev
    have hle : l.reverse.findIdx P ≤ l.length - 1 - j := by
      by_contra hgt
      have hnot : P l.reverse[l.length - 1 - j] = false := not_of_lt_findIdx (by omega)
      rw [hget, hy] at hnot
      cases hnot
    omega
  · intro k hk hall
    by_cases hlt : l.reverse.findIdx P < l.reverse.length
    · have hP := findIdx_getElem (p := P) (w := hlt)
      rw [length_reverse] at hlt
      have hget : l[l.length - 1 - l.reverse.findIdx P]? = some l.reverse[l.reverse.findIdx P] := by
        rw [← getElem?_reverse hlt]
        exact getElem?_eq_getElem _
      have := hall _ _ hget hP
      omega
    · rw [length_reverse] at hlt
      omega

/-! ## Programs and the states they were finished from -/

/-- A program holds the instructions and the blocks of a state. -/
structure Program.Holds (p : Program) (t : State) : Prop where
  insts : p.insts = t.insts
  blocks : p.blocks = t.blocks

namespace Program.Holds

variable {p : Program} {t : State}

theorem inst?_eq (h : p.Holds t) (id : InstId) : p.inst? id = t.inst? id := by
  rw [Program.inst?, State.inst?, h.insts]

theorem block?_eq (h : p.Holds t) (b : BlockId) : p.block? b = t.block? b := by
  rw [Program.block?, State.block?, h.blocks]

theorem orderOf_eq (h : p.Holds t) (b : BlockId) :
    p.orderOf b = (t.timelineOf b).filterMap Slot.inst? := by
  rw [Program.orderOf, h.block?_eq, State.timelineOf]
  cases t.block? b <;> rfl

theorem childrenOf_eq (h : p.Holds t) (b : BlockId) : p.childrenOf b = t.view.children b := by
  rw [Program.childrenOf, h.block?_eq]
  simp [View.children, State.view, Block.shape, Function.comp_def]

theorem nodup_orderOf (h : p.Holds t) (ht : Timelines t) (b : BlockId) : (p.orderOf b).Nodup := by
  rw [h.orderOf_eq]
  refine List.Pairwise.filterMap Slot.inst? (fun x y hxy id hx id' hy => ?_) (ht.nodup b)
  cases x with
  | mark v => cases hx
  | inst x =>
    cases y with
    | mark v => cases hy
    | inst y =>
      cases hx
      cases hy
      exact fun he => hxy (congrArg Slot.inst he)

/-- The order of code is the order of instructions. -/
theorem sublist_orderOf (h : p.Holds t) {b : BlockId} {x y : InstId}
    (hs : [Slot.inst x, Slot.inst y].Sublist (t.view.code b)) : [x, y].Sublist (p.orderOf b) := by
  rw [h.orderOf_eq]
  exact (hs.trans filter_sublist).filterMap Slot.inst?

theorem mem_orderOf (h : p.Holds t) {b : BlockId} {id : InstId} (hm : .inst id ∈ t.view.code b) :
    id ∈ p.orderOf b := by
  rw [h.orderOf_eq]
  exact mem_filterMap.mpr ⟨.inst id, (mem_filter.mp hm).1, rfl⟩

/-- What is passed on a way is in the code, or empty. -/
theorem mem_code (h : p.Holds t) {b : BlockId} {id : InstId} {i : Instruction}
    (hm : id ∈ p.orderOf b) (hi : t.inst? id = some i) (hop : i.op ≠ .empty) :
    .inst id ∈ t.view.code b := by
  rw [h.orderOf_eq] at hm
  obtain ⟨slot, hslot, hid⟩ := mem_filterMap.mp hm
  cases slot with
  | mark v => cases hid
  | inst id' =>
    cases hid
    refine mem_filter.mpr ⟨hslot, ?_⟩
    simpa [State.isCode, hi] using hop

end Program.Holds

namespace Lowering

open Source

/-! ## The way from a load to the place where it is reused -/

/-- A load that is found for a block of a state, and a later state that a program was finished
from. -/
structure Reused (p : Program) (s t : State) (b : BlockId) (name : String) (id : InstId)
    (i : Instruction) : Prop where
  holds : p.Holds t
  laid : ∃ floor, Laid floor t
  grows : View.Grows b s.view t.view
  valid : ∀ {c}, 0 ≤ c → c ≤ b → (s.view.graph c).isSome
  block : (s.view.graph b).isSome
  code : .inst id ∈ s.view.code i.block
  dom : i.block ∈ s.view.doms b
  stores : ∀ z, s.view.IsStore name z → s.view.Before z (.inst id)
  loops : ∀ h, s.view.join h = .loop → h ≤ i.block

namespace Reused

variable {p : Program} {s t : State} {b : BlockId} {name : String} {id : InstId} {i : Instruction}
  {k : Nat}

theorem graph (h : Reused p s t b name id i) : t.view.Graph := by
  obtain ⟨floor, hl⟩ := h.laid
  exact hl.layout.graph

theorem timelines (h : Reused p s t b name id i) : Timelines t := by
  obtain ⟨floor, hl⟩ := h.laid
  exact hl.timelines

/-- An instruction stands in one block. -/
theorem block_unique (h : Reused p s t b name id i) {z : InstId} {c d : BlockId}
    (hc : .inst z ∈ t.view.code c) (hd : .inst z ∈ t.view.code d) : c = d := by
  obtain ⟨floor, hl⟩ := h.laid
  obtain ⟨i₁, hi₁, rfl⟩ := hl.layout.owner hc
  obtain ⟨i₂, hi₂, rfl⟩ := hl.layout.owner hd
  cases hi₁.symm.trans hi₂
  rfl

/-- Where a way to the place can be: below the block of the load, behind the load in that block, and
not beyond the place. -/
def On (p : Program) (s t : State) (b : BlockId) (i : Instruction) (k : Nat) (q : Point) : Prop :=
  i.block ∈ t.view.doms q.block ∧ (q.block = i.block → k < q.index) ∧
    (q.block < b ∨ q.block = b ∧ q.index ≤ (p.endOf s b).index)

theorem on_end (h : Reused p s t b name id i) (hk : (p.orderOf i.block)[k]? = some id) :
    On p s t b i k (p.endOf s b) := by
  refine ⟨?_, fun hb => ?_, .inr ⟨rfl, Nat.le_refl _⟩⟩
  · show i.block ∈ t.view.doms b
    rw [h.grows.doms_eq h.block]
    exact h.dom
  · have hb : b = i.block := hb
    refine (length_sub_findIdx_reverse (p.orderOf b) _).1 k id (hb ▸ hk) ?_
    obtain ⟨hmem, hcode⟩ := mem_filter.mp (hb ▸ h.code)
    rw [contains_iff_mem]
    exact mem_filter.mpr ⟨mem_filterMap.mpr ⟨_, hmem, rfl⟩, hcode⟩

/-- A way to the place that does not pass the load stays where it can be. -/
theorem on_path (h : Reused p s t b name id i) (hk : (p.orderOf i.block)[k]? = some id)
    {x q : Point} {ids : List InstId} (hp : p.Path x ids q) (hq : On p s t b i k q)
    (hid : id ∉ ids) :
    On p s t b i k x ∧ ∀ z ∈ ids, ∃ c j, (p.orderOf c)[j]? = some z ∧ On p s t b i k ⟨c, j⟩ ∧
      On p s t b i k ⟨c, j + 1⟩ := by
  induction hp with
  | here q => exact ⟨hq, nofun⟩
  | @pass c j z ids q hz rest ih =>
    obtain ⟨hne, hids⟩ := not_or.mp (fun hor => hid (mem_cons.mpr hor))
    obtain ⟨hnext, hrest⟩ := ih hq hids
    have hx : On p s t b i k ⟨c, j⟩ := by
      obtain ⟨hdom, hself, hend⟩ := hnext
      refine ⟨hdom, fun hc => ?_, hend.imp_right fun ⟨hc, hle⟩ => ⟨hc, Nat.le_of_succ_le hle⟩⟩
      have hlt : k < j + 1 := hself hc
      have hkj : k ≠ j := by
        rintro rfl
        have hc : c = i.block := hc
        rw [hc, hk] at hz
        exact hne (Option.some.inj hz)
      show k < j
      omega
    refine ⟨hx, fun z' hz' => ?_⟩
    rcases mem_cons.mp hz' with rfl | hz'
    · exact ⟨c, j, hz, hx, hnext⟩
    · exact hrest z' hz'
  | @jump c d ids q hd rest ih =>
    obtain ⟨⟨hdom, hself, hend⟩, hrest⟩ := ih hq hid
    refine ⟨?_, hrest⟩
    dsimp only at hdom hself hend
    rw [h.holds.childrenOf_eq] at hd
    obtain ⟨hvalid, -, habove, hback⟩ := h.graph.edge hd
    -- the way would pass the load if it came to its block from above
    have hne : d ≠ i.block := fun hd => absurd (hself hd) (Nat.not_lt_zero _)
    have hmem : i.block ∈ t.view.above d := by
      rw [h.graph.doms_eq hvalid] at hdom
      exact (mem_cons.mp hdom).resolve_left (Ne.symm hne)
    have hle : d ≤ b := by
      rcases hend with hlt | ⟨rfl, -⟩
      · exact Int.le_of_lt hlt
      · exact Int.le_refl _
    -- and the header of a loop that is entered behind the load if it came back
    have hlt : c < d := by
      by_contra hge
      have hjoin := hback (Int.not_lt.mp hge)
      have hbounds := h.graph.lt hmem
      rw [h.grows.join_eq (h.valid (Int.le_of_lt (Int.lt_of_le_of_lt hbounds.1 hbounds.2))
        hle)] at hjoin
      exact absurd (h.loops d hjoin) (Int.not_le.mpr hbounds.2)
    refine ⟨habove _ hmem, fun hc => ?_, .inl (Int.lt_of_lt_of_le hlt hle)⟩
    have hc : c = i.block := hc
    show k < (p.orderOf c).length
    rw [hc]
    exact (List.getElem?_eq_some_iff.mp hk).1

/-- No store to the array is passed between the load and the place. -/
theorem not_isStore (h : Reused p s t b name id i) (hk : (p.orderOf i.block)[k]? = some id)
    {ids : List InstId} (hp : p.Path ⟨i.block, k + 1⟩ ids (p.endOf s b)) (hid : id ∉ ids) :
    ∀ z ∈ ids, ¬ p.IsStore name z := by
  rintro z hz ⟨iz, hiz, hop, hmem⟩
  obtain ⟨-, hids⟩ := h.on_path hk hp (h.on_end hk) hid
  obtain ⟨c, j, hj, ⟨hdom, hself, -⟩, -, -, hend⟩ := hids z hz
  dsimp only at hdom hself hend
  rw [h.holds.inst?_eq] at hiz
  have hne : iz.op ≠ .empty := by
    rw [hop]
    nofun
  have hcode : .inst z ∈ t.view.code c := h.holds.mem_code (mem_of_getElem? hj) hiz hne
  have hstore : t.view.IsStore name (.inst z) :=
    ⟨z, face iz, rfl, view_of_inst? hiz hne, hop, hmem⟩
  have hnodup := h.holds.nodup_orderOf h.timelines
  have hkc : .inst id ∈ t.view.code i.block := (h.grows.code _).mem h.code
  rcases h.grows.store hstore with hold | ⟨c', hb, hc', hlast⟩
  · -- a store that was there comes before the load
    obtain ⟨d, d', hzd, hid', hlt⟩ := h.stores _ hold
    cases h.block_unique ((h.grows.code d').mem hid') hkc
    cases h.block_unique ((h.grows.code d).mem hzd) hcode
    rcases hlt with hlt | ⟨rfl, hs⟩
    · exact absurd (h.graph.le_of_mem_doms hdom).2 (Int.not_le.mpr hlt)
    · have hjk := lt_of_pair_sublist (hnodup _)
        (h.holds.sublist_orderOf (hs.trans (h.grows.code _))) hj hk
      exact absurd (hself rfl) (Nat.not_lt.mpr (Nat.le_of_lt hjk))
  · -- a later store stands behind the place
    cases h.block_unique hc' hcode
    have hcb : c = b := (hend.resolve_left (Int.not_lt.mpr hb)).1
    subst hcb
    have hjq := (hend.resolve_left (Int.lt_irrefl _)).2
    have hle : (p.endOf s c).index ≤ j := by
      refine (length_sub_findIdx_reverse (p.orderOf c) _).2 j
        (Nat.le_of_lt (List.getElem?_eq_some_iff.mp hj).1) fun j' y hy hold => ?_
      rw [contains_iff_mem] at hold
      obtain ⟨hmem', hcode'⟩ := mem_filter.mp hold
      obtain ⟨slot, hslot, hy'⟩ := mem_filterMap.mp hmem'
      cases slot with
      | mark v => cases hy'
      | inst y' =>
        cases hy'
        have hs := hlast rfl (.inst y) (mem_filter.mpr ⟨hslot, hcode'⟩)
        exact lt_of_pair_sublist (hnodup _) (h.holds.sublist_orderOf hs) hy hj
    exact absurd hle (Nat.not_le.mpr hjq)

/-- Every way from the start to the place passes the load. -/
theorem mem_of_path (h : Reused p s t b name id i) (hk : (p.orderOf i.block)[k]? = some id)
    {ids : List InstId} (hp : p.Path ⟨entryBlock, 0⟩ ids (p.endOf s b)) : id ∈ ids := by
  by_contra hid
  obtain ⟨⟨hdom, hself, -⟩, -⟩ := h.on_path hk hp (h.on_end hk) hid
  obtain ⟨h0, hle⟩ := h.graph.le_of_mem_doms hdom
  exact absurd (hself (Int.le_antisymm h0 hle)) (Nat.not_lt_zero _)

end Reused

/-- A load that a read of an element finds carries the array and the address, is known in a
dominator of the block, and is active. -/
theorem found_of_loadElement {F : BlockId} {w : Walk} {name : String} {indices : List Value}
    {v : Value} {s : State} (h : Ready F w)
    (hindices : ∀ v ∈ indices, w.builder.view.BoundedSource v.src)
    (hrun : loadElement w.current name indices w.builder = .ok v s)
    (hold : ∃ i, w.builder.inst? v.id = some i ∧ i.op = .load) :
    ∃ a addr i, w.builder.array? name = some a ∧
      w.builder.elementAddress w.current a indices = (addr, s) ∧ Laid (floorAt F w.builder) s ∧
      s.view.size = w.builder.view.size ∧ s.view.epoch name = some a.epoch ∧
      s.inst? v.id = some i ∧ i.active = true ∧ i.op = .load ∧ i.memory = some ⟨name, a.epoch⟩ ∧
      i.x = .inst addr.id ∧ i.block ∈ s.view.doms w.current := by
  obtain ⟨a, ha, -, hv⟩ := yields_loadElement _ _ hrun
  have haddr := h.sound.laid.layout.arrays (mem_of_find?_eq_some ha)
  obtain ⟨hw, -, iaddr, hiaddr⟩ := h.sound.laid.elementAddress h.newest haddr hindices
  obtain ⟨i₀, hi₀, hop₀⟩ := hold
  have hepoch : w.builder.view.epoch name = some a.epoch := Option.map_eq_some_iff.mpr ⟨a, ha, rfl⟩
  generalize haddr' : w.builder.elementAddress w.current a indices = r at hw hv hiaddr
  obtain ⟨addr, s₁⟩ := r
  dsimp only at hw hv hiaddr
  have hepoch₁ : s₁.view.epoch name = some a.epoch := by
    rw [← hepoch]
    show (s₁.arrays.find? _).map _ = _
    rw [arrays_of_frame hw.frame]
    rfl
  obtain ⟨i₁, hi₁, hop₁, -⟩ := (hw.grows 0).inst
    (view_of_inst? hi₀ (by rw [hop₀]; intro he; cases he))
  have hcases := Laid.numberAtEnd_cases s₁ w.current .load addr {} ⟨name, a.epoch⟩
  rw [← hv] at hcases
  rcases hcases with ⟨swapped, hf, rfl⟩ | ⟨-, hplace⟩
  · obtain ⟨d, hd, e, heid, hlive, hmatch, i, hi, hblock, hop, hxy, hmem⟩ := hw.laid.find?_spec hf
    obtain ⟨hopE, htag, hx⟩ := Laid.matches?_spec hmatch
    obtain ⟨hx, -⟩ := hx.resolve_right fun hc => by cases hc.1
    rw [heid] at hi
    obtain ⟨i', hi', -, rfl⟩ := inst?_of_view hi
    have hne : addr.id ≠ 0 := by
      intro h0
      obtain ⟨j, hj, -⟩ := inst?_of_view hiaddr
      rw [h0] at hj
      cases hj
    refine ⟨a, addr, i', ha, haddr', hw.laid, hw.size, hepoch₁, hi', ?_, hop.trans hopE, ?_, ?_, ?_⟩
    · simpa [State.isLive, hi'] using hlive
    · exact (hmem hopE).trans (congrArg some (htag rfl))
    · have hface : (face i').x = e.x := (hxy (by rw [hopE]; intro he; cases he)).2.1
      have hbr : i'.isTarget .x = false := by
        simp [Instruction.isTarget, Opcode.isBranch, Opcode.isConditional,
          show i'.op = .load from hop.trans hopE]
      rw [show (face i').x = i'.x by simp [face, hbr]] at hface
      rw [hface, hx, Value.operand, if_neg hne]
    · rw [← dominatorsOf_eq]
      exact (show i'.block = d from hblock) ▸ hd
  · -- a new load takes no id of a load that is there
    obtain ⟨blk, hblk⟩ := isSome_view_graph.mp
      (hw.laid.valid_newest (b := w.current) (hw.size ▸ h.newest))
    obtain ⟨hfresh, -⟩ := @Timelines.placeNumbered s₁ w.current blk
      ⟨.load, addr.operand, ({} : Value).operand, addr.src, ({} : Value).src⟩ (s₁.endOf w.current)
      hw.laid.timelines hblk (by intro he; cases he) ⟨name, a.epoch⟩
    rw [← hplace] at hfresh
    cases hi₁.symm.trans hfresh

/-- A reused load skips no store: it is an active load of the array at the address that was just
computed, in a block that dominates the current one. In the finished program every way to the place
where the element is read passes it, and no way from it to the place that does not come back to it
passes a store to the array. -/
theorem load_reused {settings : Settings} {c : Computation} {p : Program}
    (hlower : lower settings c = .ok p) {w : Walk} {name : String} {indices : List Value}
    {v : Value} {s : State} (hmoment : .load w name indices ∈ moments settings c)
    (hrun : loadElement w.current name indices w.builder = .ok v s)
    (hold : ∃ i, w.builder.inst? v.id = some i ∧ i.op = .load) :
    ∃ a addr i k, w.builder.array? name = some a ∧
      w.builder.elementAddress w.current a indices = (addr, s) ∧
      s.inst? v.id = some i ∧ i.active = true ∧ i.op = .load ∧
      i.memory.map (·.array) = some name ∧ i.x = .inst addr.id ∧
      i.block ∈ s.dominatorsOf w.current ∧ (p.orderOf i.block)[k]? = some v.id ∧
      (∀ ids, p.Path ⟨entryBlock, 0⟩ ids (p.endOf s w.current) → v.id ∈ ids) ∧
      ∀ ids, p.Path ⟨i.block, k + 1⟩ ids (p.endOf s w.current) → v.id ∉ ids →
        ∀ z ∈ ids, ¬ p.IsStore name z := by
  obtain ⟨wt, hready, hinsts, hblocks, hseen⟩ := lower_seen hlower
  obtain ⟨⟨F, h⟩, hindices, -, hgrows⟩ := hseen _ hmoment
  obtain ⟨a, addr, i, ha, haddr, hlaid, hsize, hepoch, hi, hactive, hop, hmem, hx, hdom⟩ :=
    found_of_loadElement h hindices hrun hold
  have hview := view_of_inst? hi (by rw [hop]; nofun)
  have htag : ⟨name, a.epoch⟩ ∈ s.view.tagsAt (floorAt F w.builder) (.inst v.id) := by
    simp [View.tagsAt, hview, instTags, face, hop, hmem]
  have hcode := (hlaid.layout.listed hview).2.1
  obtain ⟨hstores, hloops⟩ := hlaid.layout.current hcode htag hepoch
  have hnewest : w.current + 1 = (s.view.size : BlockId) := hsize ▸ h.newest
  have hreused : Reused p s wt.builder w.current name v.id i :=
    { holds := ⟨hinsts, hblocks⟩
      laid := ⟨_, hready.sound.laid⟩
      grows := hgrows v s hrun
      valid := fun h0 hle => (hlaid.layout.graph.valid _).mpr ⟨h0, by lia⟩
      block := hlaid.valid_newest hnewest
      code := hcode
      dom := hdom
      stores := hstores
      loops := hloops }
  obtain ⟨k, hk⟩ := getElem?_of_mem
    (hreused.holds.mem_orderOf ((hreused.grows.code i.block).mem hcode))
  refine ⟨a, addr, i, k, ha, haddr, hi, hactive, hop, by rw [hmem]; rfl, hx, ?_, hk,
    fun ids => hreused.mem_of_path hk, fun ids => hreused.not_isStore hk⟩
  rw [dominatorsOf_eq]
  exact hdom

/-- An element is read in front of an `if` that stores to another array, and read again behind
it. -/
def rereadBehindIf : Computation where
  vars := []
  arrays := [⟨"a", [2], .start⟩, ⟨"b", [2], .start⟩]
  body :=
    let first : Expr := .element "a" [.num 1] .start
    [.assign ⟨"x", [], .start⟩ first .start,
      .ifThen ⟨.less, .element "x" [] .start, .num 1⟩
        [.assign ⟨"b", [.num 0], .start⟩ (.element "x" [] .start) .start] .start,
      .assign ⟨"y", [], .start⟩ first .start]

/-- Whether a moment reads an element and finds a load in another block. -/
def Moment.reusesAbove : Moment → Bool
  | .repair .. => false
  | .load w name indices =>
    match loadElement w.current name indices w.builder with
    | .ok v _ => (w.builder.inst? v.id).any fun i => i.op == .load && i.block != w.current
    | .error _ _ => false

theorem load_reused_behind_if : ∃ p w name indices v s, lower {} rereadBehindIf = .ok p ∧
    .load w name indices ∈ moments {} rereadBehindIf ∧
    loadElement w.current name indices w.builder = .ok v s ∧
    (∃ i, w.builder.inst? v.id = some i ∧ i.op = .load ∧ i.block ≠ w.current) ∧
    ∃ i k, s.inst? v.id = some i ∧ (p.orderOf i.block)[k]? = some v.id ∧
      ∀ ids, p.Path ⟨i.block, k + 1⟩ ids (p.endOf s w.current) → v.id ∉ ids →
        ∀ z ∈ ids, ¬ p.IsStore name z := by
  have hok : (lower {} rereadBehindIf).isOk = true := by decide +kernel
  have hany : (moments {} rereadBehindIf).any Moment.reusesAbove = true := by decide +kernel
  cases hp : lower {} rereadBehindIf with
  | error r =>
    rw [hp] at hok
    cases hok
  | ok p =>
    obtain ⟨m, hm, hreuse⟩ := any_eq_true.mp hany
    cases m with
    | repair s header => cases hreuse
    | load w name indices =>
      cases hrun : loadElement w.current name indices w.builder with
      | error e s => simp [Moment.reusesAbove, hrun] at hreuse
      | ok v s =>
        obtain ⟨i₀, hi₀, hop, hblock⟩ : ∃ i, w.builder.inst? v.id = some i ∧ i.op = .load ∧
            i.block ≠ w.current := by
          simpa [Moment.reusesAbove, hrun, Option.any_eq_true] using hreuse
        obtain ⟨-, -, i, k, -, -, hi, -, -, -, -, -, hk, -, hpath⟩ :=
          load_reused hp hm hrun ⟨i₀, hi₀, hop⟩
        exact ⟨p, w, name, indices, v, s, rfl, hm, hrun, ⟨i₀, hi₀, hop, hblock⟩, i, k,
          hi, hk, hpath⟩

end Lowering

end SingleAssignment
