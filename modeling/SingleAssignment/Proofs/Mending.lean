import SingleAssignment.Proofs.Operation
import SingleAssignment.Proofs.Repairing

/-!
# Repairs are changes

A repair of a loop is a sequence of changes (`Change`) in the blocks of the loop (`Repair.mending`,
`Repairable.changes`).
What is put in stands at a slot of the loop, so nothing that ends a block is before it; what is
outdated is a value or a phi of the loop, so no effect is retired, and no version outside the loop
was computed from it (`Repair.rebindOutside_eq`). A variable is given the value zero only at a join
of the loop where it was merged already, and only if no version of it from before the loop reaches
there.
-/

namespace SingleAssignment.Builder

open Code List State

theorem isTerminator_of_isNumbered {op : Opcode} (h : op.isNumbered = true) :
    op.isTerminator = false := by
  cases op <;> first | rfl | cases h

namespace State.Tidy

variable {s : State} {b : BlockId} {x : Slot}

/-- Nothing that ends a block stands before a slot of it, unless it is a version in the first block
with code. -/
theorem before (h : s.Tidy) (hx : x ∈ s.timelineOf b) (hb : b ≠ startBlock) :
    ∀ y ∈ (s.timelineOf b).take ((s.timelineOf b).idxOf x), s.isEnd y = false := by
  intro y hy
  have hlt := idxOf_lt_length_iff.mpr hx
  have hsplit : s.timelineOf b = (s.timelineOf b).take ((s.timelineOf b).idxOf x) ++
      x :: (s.timelineOf b).drop ((s.timelineOf b).idxOf x + 1) := by
    have hget : (s.timelineOf b)[(s.timelineOf b).idxOf x] = x := getElem_idxOf hlt
    conv => lhs; rw [← take_append_drop ((s.timelineOf b).idxOf x) (s.timelineOf b),
      drop_eq_getElem_cons hlt, hget]
  have hpair := h.last b
  rw [hsplit] at hpair
  have hyx := (pairwise_append.mp hpair).2.2 y hy x (mem_cons_self ..)
  cases he : s.isEnd y with
  | false => rfl
  | true => exact absurd (hyx he).1 hb

end State.Tidy

namespace Repair

/-- The blocks of a loop are those from `F` on, and the first block with code is none of them. -/
structure Region (floor F : BlockId) (loop : List BlockId) : Prop where
  start : startBlock < F
  floor_le : floor ≤ F
  loop_le : ∀ b ∈ loop, F ≤ b

/-- An instruction of the loop that has no effect. -/
def IsValue (F : BlockId) (s : State) (id : InstId) : Prop :=
  ∃ i, s.inst? id = some i ∧ F ≤ i.block ∧ i.op.hasEffect = false ∧ i.op ≠ .empty

/-- What a repair notes: only values of the loop are outdated, and all that stands in for something
was issued. -/
structure Noted (F : BlockId) (r : Repair) : Prop where
  outdated : ∀ id ∈ r.outdated, IsValue F r.base id
  subst : ∀ q ∈ r.subst, r.base.Issued q.2
  memo : ∀ q ∈ r.memo, r.base.Issued q.2

/-- What is known of a repair on its way: the code is laid out well, variables are merged only where
that is wanted, versions and notes name what was issued, and the loop records only its own
versions. -/
structure Consistent (floor F : BlockId) (W : Want → Prop) (r : Repair) : Prop where
  laid : Laid floor r.base
  wanted : Wanted F W r.base
  issued : r.base.AllIssued
  secluded : r.base.Secluded F
  noted : Noted F r

/-- A repair goes on by changes. -/
structure Mends (floor F : BlockId) (W : Want → Prop) (r r' : Repair) : Prop where
  works : AddsCode floor r.base r'.base
  changes : Changes F W r.base r'.base
  noted : Noted F r'

variable {floor F : BlockId} {W : Want → Prop} {r r' r'' : Repair} {loop : List BlockId}
  {p : Place}

theorem IsValue.mono {s t : State} {id : InstId} (h : IsValue F s id) (hs : Timelines s)
    (hc : Changes F W s t) : IsValue F t id := by
  obtain ⟨i, hi, hF, hop, hempty⟩ := h
  obtain ⟨i', hi', hb, hop'⟩ := (Changes.persists hc hs).inst hi
  rw [← hb] at hF
  rw [← hop' hempty] at hop hempty
  exact ⟨i', hi', hF, hop, hempty⟩

namespace Mends

theorem refl (h : Consistent floor F W r) : Mends floor F W r r :=
  ⟨.refl h.laid, .refl, h.noted⟩

theorem trans (h : Mends floor F W r r') (h' : Mends floor F W r' r'') : Mends floor F W r r'' :=
  ⟨h.works.trans h'.works, h.changes.trans h'.changes, h'.noted⟩

theorem consistent (m : Mends floor F W r r') (h : Consistent floor F W r) :
    Consistent floor F W r' :=
  ⟨m.works.laid, Changes.wanted m.changes h.laid.timelines h.wanted,
    Changes.allIssued m.changes h.laid.timelines h.issued, Changes.secluded m.changes
    h.laid.timelines h.secluded, m.noted⟩

theorem issued {id : InstId} (m : Mends floor F W r r') (h : Consistent floor F W r)
    (hid : r.base.Issued id) : r'.base.Issued id :=
  (Changes.persists m.changes h.laid.timelines).issued hid

/-- What comes after a step. -/
theorem andThen (h : Consistent floor F W r) (m : Mends floor F W r r')
    (next : Consistent floor F W r' → Mends floor F W r' r'') : Mends floor F W r r'' :=
  m.trans (next (m.consistent h))

end Mends

theorem mem_of_lookup {α : Type} [BEq α] [LawfulBEq α] {l : List (α × InstId)} {a : α} {id : InstId}
    (h : l.lookup a = some id) : (a, id) ∈ l := by
  obtain ⟨l₁, l₂, rfl, -⟩ := lookup_eq_some_iff.mp h
  exact mem_append_right _ (mem_cons_self ..)

namespace Consistent

/-- Changes that add code are all right for a repair. -/
theorem work (h : Consistent floor F W r) {s : State} (hw : AddsCode floor r.base s)
    (hc : Changes F W r.base s) (spliced : Nat) :
    Mends floor F W r { r with base := s, spliced := spliced } := by
  have hp := Changes.persists hc h.laid.timelines
  exact ⟨hw, hc, fun id hid => (h.noted.outdated id hid).mono h.laid.timelines hc,
    fun q hq => hp.issued (h.noted.subst q hq), fun q hq => hp.issued (h.noted.memo q hq)⟩

theorem forget (h : Consistent floor F W r) : Mends floor F W r r.forget :=
  ⟨.refl h.laid, .refl, h.noted.outdated, h.noted.subst, fun _ hq => by cases hq⟩

theorem remember (h : Consistent floor F W r) (v : VersionId) {id : InstId}
    (hid : r.base.Issued id) : Mends floor F W r (r.remember v id) := by
  refine ⟨.refl h.laid, .refl, h.noted.outdated, h.noted.subst, fun q hq => ?_⟩
  rcases mem_cons.mp hq with rfl | hq
  · exact hid
  · exact h.noted.memo q hq

theorem setStandIn (h : Consistent floor F W r) {old new : InstId} (hold : IsValue F r.base old)
    (hnew : r.base.Issued new) : Mends floor F W r (r.setStandIn old new) := by
  refine ⟨.refl h.laid, .refl, fun id hid => ?_, fun q hq => ?_, h.noted.memo⟩
  · rcases mem_cons.mp hid with rfl | hid
    · exact hold
    · obtain ⟨q, hq, rfl⟩ := mem_map.mp hid
      exact h.noted.outdated _ (mem_map_of_mem (mem_filter.mp hq).1)
  · rcases mem_cons.mp hq with rfl | hq
    · exact hnew
    · exact h.noted.subst q (mem_filter.mp hq).1

/-- What stands for an issued instruction was issued. -/
theorem issued_chase (h : Consistent floor F W r) {id : InstId} (hid : r.base.Issued id) :
    r.base.Issued (r.chase id) := by
  unfold chase
  generalize r.subst.length + 1 = fuel
  induction fuel generalizing id with
  | zero => exact hid
  | succ fuel ih =>
    unfold chaseFor
    split
    · exact hid
    · rename_i next hnext
      split
      · exact hid
      · exact ih (h.noted.subst _ (mem_of_lookup hnext))

end Consistent

/-! ## Steps -/

/-- What is put in front of the slot of a place stands behind nothing that ends a block. -/
theorem isEnd_of_carries {ts : List MemoryTag} (hstart : startBlock < F) (hF : F ≤ p.block)
    {s : State} (hp : p.Carries floor s ts) (ht : s.Tidy) :
    ∀ y ∈ (s.timelineOf p.block).take (p.position s), s.isEnd y = false := by
  obtain ⟨x, hx, hmem, -, -⟩ := hp
  have hpos : p.position s = (s.timelineOf p.block).idxOf x := by
    obtain ⟨b, anchor⟩ := p
    cases anchor <;> cases hx <;> rfl
  rw [hpos]
  exact ht.before (mem_filter.mp hmem).1 fun he => Int.not_le.mpr hstart (he ▸ hF)

theorem number_mends (hR : Region floor F loop) (h : Consistent floor F W r) {op : Opcode}
    {tag : MemoryTag} {x y : Value} (hop : op.isNumbered = true) (hF : F ≤ p.block)
    (hp : p.Carries floor r.base (tagsOf x.src ++ tagsOf y.src ++ if op = .load then [tag] else []))
    (spliced : Nat) :
    Mends floor F W r { r with base := (r.base.number p.block op x y tag (p.position r.base)).2,
                               spliced := spliced } ∧
      (r.base.number p.block op x y tag (p.position r.base)).2.Issued
        (r.base.number p.block op x y tag (p.position r.base)).1.1.id := by
  have hb := hp.valid h.laid
  have hheld : ∃ i, (r.base.number p.block op x y tag (p.position r.base)).2.view.insts
      (r.base.number p.block op x y tag (p.position r.base)).1.1.id = some i :=
      h.laid.number_holds hb hop
  obtain ⟨i, hi⟩ := hheld
  obtain ⟨i₀, hi₀, -⟩ := inst?_of_view hi
  exact ⟨h.work (h.laid.number hb hop (hp.admits h.laid).1)
    (.number h.laid.timelines (isSome_block hb) hop hF fun ht => isEnd_of_carries hR.start hF hp ht)
    _, issued_of_inst? hi₀⟩

theorem supersede_mends (hR : Region floor F loop) (h : Consistent floor F W r)
    (m : Mends floor F W r r') {id : InstId} {i : Instruction} (hi : r.base.inst? id = some i)
    (hop : i.op.isNumbered = true) (hF : F ≤ i.block)
    (hp : Place.Carries floor r'.base ⟨i.block, .inst id⟩ (instTags i)) (x y : Operand) :
    Mends floor F W r' (supersede i x y ⟨i.block, .inst id⟩ r') := by
  have h' := m.consistent h
  have hempty := ne_empty_of_isNumbered hop
  obtain ⟨i', hi', hb', hop'⟩ := (Changes.persists m.changes h.laid.timelines).inst hi
  have hop' := hop' hempty
  have hold : IsValue F r'.base i.id := by
    rw [h.laid.timelines.id_eq hi]
    exact ⟨i', hi', hb' ▸ hF, hop' ▸ Opcode.hasEffect_of_isNumbered hop, hop' ▸ hempty⟩
  have hworks := supersede_works (x := x) (y := y) h'.laid hop (fun hl => by
    simpa [face] using h.laid.layout.memory (view_of_inst? hi hempty) hl) hp
  unfold supersede at hworks ⊢
  dsimp only at hworks ⊢
  split
  · rename_i found swapped hfound
    obtain ⟨-, -, -, -, -, hlive, -⟩ := Laid.mem_of_find? hfound
    exact h'.setStandIn hold (issued_of_isLive hlive)
  · rename_i hnone
    rw [hnone] at hworks
    have hput : r'.base.Tidy → ∀ y ∈ (r'.base.timelineOf i.block).take
        (Place.position ⟨i.block, .inst id⟩ r'.base + 1), r'.base.isEnd y = false := by
      intro ht y hy
      rw [take_add_one, mem_append] at hy
      rcases hy with hy | hy
      · exact isEnd_of_carries hR.start hF hp ht y hy
      · -- right behind the outdated instruction, which ends no block
        obtain ⟨z, hz, hmem, -, -⟩ := hp
        cases hz
        have hlt := idxOf_lt_length_iff.mpr (mem_filter.mp hmem).1
        rw [Place.position, getElem?_eq_getElem hlt, getElem_idxOf hlt] at hy
        cases mem_singleton.mp hy
        refine isEnd_eq_false fun j hj => ?_
        cases hi'.symm.trans hj
        rw [hop']
        exact isTerminator_of_isNumbered hop
    have hblock := isSome_block (hp.valid h'.laid)
    have hc : Changes F W r'.base (r'.base.placeNumbered i.block ⟨i.op, x, y, i.srcX, i.srcY⟩
        (i.memory.getD {}) (Place.position ⟨i.block, .inst id⟩ r'.base + 1)).2 :=
      .placeNumbered h'.laid.timelines hblock hop hF hput
    exact (h'.work hworks hc (r'.spliced + 1)).andThen h' fun h'' => h''.setStandIn
      (hold.mono h'.laid.timelines hc) (h'.laid.timelines.issued_placeNumbered hblock hop _ _)

theorem setOperands_mends (h : Consistent floor F W r) (m : Mends floor F W r r') {id : InstId}
    {i : Instruction} (hi : r.base.inst? id = some i) (hop : i.op.isNumbered = false)
    (hempty : i.op ≠ .empty) (hF : F ≤ i.block) (x y : Operand) :
    Mends floor F W r' { r' with base := r'.base.modifyInst id fun i => { i with x := x,
                                                                                 y := y } } := by
  obtain ⟨i', hi', hb, hop'⟩ := (Changes.persists m.changes h.laid.timelines).inst hi
  refine (m.consistent h).work (setOperands_works m.works hi hop hempty x y)
    (.single (.inst (fun _ => rfl) (fun _ => rfl) (fun _ => rfl) ?_ (fun _ _ _ => rfl) ?_
    fun i _ => .same F i)) _
  · intro j hj he
    cases hi'.symm.trans hj
    exact absurd ((hop' hempty).symm.trans he) hempty
  · intro j hj
    cases hi'.symm.trans hj
    exact .inl (hb ▸ hF)

/-- What a merge retires is a phi of the join, and the first value stands in for it. -/
theorem isValue_of_retired {s : State} {j : BlockId} {name : String} {x y : Value}
    {above : Option InstId} (h : Laid floor s) (hF : F ≤ j) {phi value : InstId}
    (hr : (s.merge j name x y above).1.retired = some (phi, value)) : IsValue F s phi ∧
    value = x.id := by
  unfold State.merge at hr
  split at hr
  · rename_i head hhead
    obtain ⟨ver, hver, -, hblock, -⟩ := h.head_of_head? hhead
    split at hr
    · unfold State.settleHead at hr
      dsimp only at hr
      obtain ⟨phi', hphi', he⟩ := Option.map_eq_some_iff.mp hr
      cases he
      obtain ⟨hphi, hlive⟩ := Option.filter_eq_some_iff.mp hphi'
      rw [hver] at hphi
      obtain ⟨i, hi⟩ : ∃ i, s.inst? phi = some i := by
        cases hi : s.inst? phi with
        | none => simp [State.isLive, hi] at hlive
        | some i => exact ⟨i, rfl⟩
      obtain ⟨hop, hib⟩ := h.phi_of_version hver hphi hi
      refine ⟨⟨i, hi, hib ▸ hblock ▸ hF, ?_⟩, rfl⟩
      rw [hop]
      exact ⟨rfl, by decide⟩
    · split at hr
      · unfold State.refillPhi at hr
        dsimp only at hr
        split at hr <;> cases hr
      · cases hr
  · split at hr
    · cases hr
    · split at hr <;> cases hr

theorem note_mends (h : Consistent floor F W r) {merged : Merged}
    (hphi : ∀ phi value, merged.retired = some (phi, value) → IsValue F r.base phi ∧
      r.base.Issued value) :
    Mends floor F W r (r.note merged) := by
  have hforget : ∀ {r'}, Mends floor F W r r' → Mends floor F W r
    (if merged.changed then r'.forget else r') := by
    intro r' h'
    split
    · exact h'.andThen h fun h => h.forget
    · exact h'
  unfold note
  cases hr : merged.retired with
  | none => exact hforget (.refl h)
  | some retired => exact hforget (h.setStandIn (hphi _ _ hr).1 (hphi _ _ hr).2)

theorem merge_mends (hR : Region floor F loop) (h : Consistent floor F W r) {j : BlockId}
    {name : String} {x y : Value} (hj : (r.base.view.graph j).isSome) (hF : F ≤ j)
    (hmark : W (.mark j name)) (hx : tagsOf x.src = []) (hy : tagsOf y.src = [])
    (hxi : r.base.IssuedValue x) (above : Option InstId) :
    Mends floor F W r ({ r with base := (r.base.merge j name x y above).2 }.note
      (r.base.merge j name x y above).1) := by
  have hc : Changes F W r.base (r.base.merge j name x y above).2 :=
    h.laid.changes_merge hj hF (Int.lt_of_lt_of_le hR.start hF) hmark hx hy hxi
  have hmerge := h.work (h.laid.merge hj hx hy) hc r.spliced
  refine hmerge.trans (note_mends (hmerge.consistent h) fun phi value he => ?_)
  obtain ⟨hphi, rfl⟩ := isValue_of_retired h.laid hF he
  exact ⟨hphi.mono h.laid.timelines hc, hmerge.issued h hxi.id⟩

theorem rebind_mends (hR : Region floor F loop) (h : Consistent floor F W r)
    {v : VersionId} {id : InstId} (hid : r.base.Issued id)
    (hv : ∀ ver, r.base.versions[v]? = some ver → F ≤ ver.block) :
    Mends floor F W r (r.rebind v id) := by
  have hworks := rebind_works h.laid v id
  unfold rebind at hworks ⊢
  split
  · exact .refl h
  · rename_i ver hver
    rw [hver] at hworks
    dsimp only at hworks ⊢
    generalize (if ver.src.isReplayable && !(ver.history.map r.chase).isEmpty then
      (ver.history.map r.chase).dropLast ++ [id] else ver.history.map r.chase) = history at *
    have hF := hv ver hver
    have hvalue : r.base.IssuedValue ⟨id, ver.src⟩ := ⟨hid, (h.issued v ver hver).src⟩
    refine h.work hworks ?_ r.spliced
    split
    · rename_i hsame
      exact Changes.revise hver (fun _ => rfl) (fun _ => hvalue) hF hsame
    · exact Changes.repoint hver (fun _ => rfl) hvalue hF (Int.lt_of_lt_of_le hR.start hF)

theorem foldl_eq_self {α : Type} {f : Repair → α → Repair} {l : List α} (h : ∀ a ∈ l, f r a = r) :
    l.foldl f r = r := by
  induction l with
  | nil => rfl
  | cons a l ih =>
    rw [foldl_cons, h a (mem_cons_self ..)]
    exact ih fun b hb => h b (mem_cons_of_mem _ hb)

/-- No version outside the loop was computed from what is outdated, if the loop has all blocks from
`F` on. -/
theorem rebindOutside_eq (h : Consistent floor F W r)
    (hall : ∀ b, F ≤ b → (r.base.view.graph b).isSome → b ∈ loop) {old : InstId}
    (hold : IsValue F r.base old) : rebindOutside loop r old = r := by
  obtain ⟨i, hi, hF, -⟩ := hold
  unfold rebindOutside
  rw [hi, Option.map_some, Option.getD_some]
  refine foldl_eq_self fun ref href => ?_
  split
  · rfl
  · rename_i hout
    have hnone : r.base.block? ref.block = none := by
      by_contra hsome
      refine hout (contains_iff_mem.mpr (hall _ (h.secluded _ i hi hF ref href) ?_))
      simpa [State.view, Option.isSome_iff_ne_none] using hsome
    simp [State.versionsOf, State.tableOf, VersionTable.get, hnone]

theorem retire_mends (h : Consistent floor F W r) {id : InstId} (hid : IsValue F r.base id) :
    Mends floor F W r { r with base := retire r.base id } := by
  obtain ⟨i, hi, hF, hop, -⟩ := hid
  refine h.work (h.laid.retire id) (.single (.inst (fun _ => rfl) (fun _ => rfl) (fun _ => rfl)
    (fun _ _ _ => rfl) ?_ ?_ fun i _ => .same F i)) _
  · intro j hj he
    cases hi.symm.trans hj
    rw [hop] at he
    cases he
  · intro j hj
    cases hi.symm.trans hj
    exact .inl hF

theorem isSome_of_mem_versionsOf {s : State} {v : VersionId} {b : BlockId} {name : String}
    (hv : v ∈ s.versionsOf b name) : (s.view.graph b).isSome := by
  cases hb : s.block? b with
  | none => simp [State.versionsOf, State.tableOf, VersionTable.get, hb] at hv
  | some blk => exact isSome_view_graph.mpr ⟨blk, hb⟩

/-- A repair goes on by changes if the loop has all blocks from `F` on. -/
def mending (W : Want → Prop) (hR : Region floor F loop) : StepInvariant loop where
  Holds r := Consistent floor F W r ∧ ∀ b, F ≤ b → (r.base.view.graph b).isSome → b ∈ loop
  Leads r r' := Mends floor F W r r'
  Site s p ts := p.Carries floor s ts ∧ F ≤ p.block
  Known s id := s.Issued id
  Within b := F ≤ b
  Merges s j name ps := (s.view.graph j).isSome ∧ F ≤ j ∧ W (.mark j name) ∧
    ∀ p ∈ [ps.1, ps.2], s.Rooted p ∧ (p ≠ entryBlock → W (.zero none p name))
  Own s v := ∃ ver, s.versions[v]? = some ver ∧ F ≤ ver.block
  naming := ⟨fun h m => m.issued h.1, issued_zero,
    fun h hi => h.1.laid.timelines.id_eq hi ▸ issued_of_inst? hi, fun h => h.1.issued_chase,
    fun h hid => h.1.noted.memo _ (mem_of_lookup hid), fun h hv => ⟨(h.1.issued _ _ hv).id,
    (h.1.issued _ _ hv).src⟩⟩
  refl h := .refl h.1
  trans m m' := m.trans m'
  holds h m := ⟨m.consistent h.1, m.works.graph ▸ h.2⟩
  site_mono h m hp := ⟨hp.1.mono h.1.laid m.works, hp.2⟩
  site_weaken hp hsub := ⟨hp.1.weaken hsub, hp.2⟩
  site_mark h hver hhead hb :=
    ⟨carries_mark h.1.laid hver hhead (Int.le_trans hR.floor_le (hR.loop_le _ hb)), hR.loop_le _ hb⟩
  site_inst h hi hphi hsome hF := ⟨carries_inst h.1.laid hi (ne_empty_of_operands h.1.laid hi hsome)
    hphi, hF⟩
  within h hb hslot m hi' := by
    obtain ⟨i, hi, hblock⟩ := h.1.laid.timelines.owner hslot
    obtain ⟨i₁, hi₁, hb₁, -⟩ := (Changes.persists m.changes h.1.laid.timelines).inst hi
    cases hi'.symm.trans hi₁
    rw [hb₁, hblock]
    exact hR.loop_le _ hb
  remember h hid := h.1.remember _ hid
  forget h := h.1.forget
  const h n := ⟨h.1.work (h.1.laid.const n) (.const (isSome_block h.1.laid.valid_entry) n) _,
    (h.1.laid.holdsConst_const n).issuedValue.id⟩
  number h hop _ hp spliced := number_mends hR h.1 hop hp.2 hp.1 spliced
  supersede h m hi _ hop hF hp x y := supersede_mends hR h.1 m hi hop hF hp.1 x y
  setOperands h m hi hop hsome _ hF := setOperands_mends h.1 m hi hop
    (ne_empty_of_operands h.1.laid hi hsome) hF _ _
  merges := @fun r r' j blk name h hj hblk _ hname m => by
    have hF := hR.loop_le j hj
    have hname : name ∈ r.base.view.joinVars j := by simpa [State.view, hblk] using hname
    rw [joinParents_congr m.works.graph]
    refine ⟨m.works.isSome (isSome_view_graph.mpr ⟨blk, hblk⟩), hF, h.1.wanted.mark j name hname hF,
      fun p hp => ⟨(h.1.wanted.root j p hp).congr m.works.graph, h.1.wanted.zero j name
      hname hF p hp⟩⟩
  merges_mono h m hm := ⟨m.works.isSome hm.1, hm.2.1, hm.2.2.1, fun p hp =>
    ⟨(hm.2.2.2 p hp).1.congr m.works.graph, (hm.2.2.2 p hp).2⟩⟩
  read h hm hb := by
    obtain ⟨hroot, hwant⟩ := hm.2.2.2 _ hb
    obtain ⟨hid, hsrc⟩ := h.1.laid.issuedValue_readAtEnd h.1.issued hroot _ none
    exact ⟨h.1.work (h.1.laid.readAtEnd _ none).1 (h.1.laid.changes_readAtEnd hroot hwant) _, hid,
      hsrc⟩
  merge h hm hx hy hid hsrc above := merge_mends hR h.1 hm.1 hm.2.1 hm.2.2.1 hx hy ⟨hid, hsrc⟩ above
  own h hb hv m := by
    obtain ⟨ver, hver, hblock, -⟩ := h.1.laid.timelines.version_of_mem hv
    obtain ⟨ver', hver', href⟩ := (Changes.persists m.changes h.1.laid.timelines).version hver
    have hblock' : ver'.block = ver.block := congrArg (·.block) href
    exact ⟨ver', hver', by rw [hblock', hblock]; exact hR.loop_le _ hb⟩
  rebind h hv hid := rebind_mends hR h.1 hid fun ver hver => by
    obtain ⟨ver', hver', hF⟩ := hv
    cases hver.symm.trans hver'
    exact hF
  outside h hold hi href hout m hv _ := by
    -- what is outdated belongs to the loop, and records only versions of the loop
    obtain ⟨i', hi', hF, -⟩ := h.1.noted.outdated _ hold
    cases hi.symm.trans hi'
    refine absurd (h.2 _ (h.1.secluded _ _ hi hF _ href)
      (m.works.graph ▸ isSome_of_mem_versionsOf hv)) hout
  retire h hid := retire_mends h.1 (h.1.noted.outdated _ hid)

theorem mending_report (hR : Region floor F loop) (r : Repair) (e : Event)
    (h : (mending W hR).Holds r) : (mending W hR).Leads r { r with base := r.base.report e } :=
  h.1.work (h.1.laid.report e) (.report e) _

/-- Once the versions of the loop are pointed at their values, those outside are already. -/
theorem rebindOutside_rebindBlocks (hR : Region floor F loop) (h : Consistent floor F W r)
    (hall : ∀ b, F ≤ b → (r.base.view.graph b).isSome → b ∈ loop) {r' : Repair}
    (hr' : loop.foldl (rebindBlock loop) r.forget = r') :
    ∀ old ∈ r'.outdated, rebindOutside loop r' old = r' := by
  have hinside : Mends floor F W r r' := hr' ▸ (mending W hR).rebindBlocks ⟨h, hall⟩
  have h' := hinside.consistent h
  exact fun old hold => rebindOutside_eq h' (hinside.works.graph ▸ hall)
    (h'.noted.outdated old hold)

end Repair

/-- A loop can be repaired: no edge leaves the blocks from its header on, all of them are reached
from there, and they record only their own versions. -/
structure Repairable (floor header : BlockId) (s : State) : Prop where
  laid : Laid floor s
  issued : s.AllIssued
  low : floor ≤ header
  start : startBlock < header
  closed : ∀ b c, header ≤ b → c ∈ s.view.children b → header ≤ c
  reached : ∀ b, header ≤ b → (s.view.graph b).isSome → b ∈ s.reach header
  secluded : s.Secluded header
  root : ∀ j, ∀ p ∈ [(s.joinParents j).1, (s.joinParents j).2], s.Rooted p

namespace Repairable

variable {floor header : BlockId} {s : State} {W : Want → Prop}

theorem region (h : Repairable floor header s) : Repair.Region floor header (s.reach header) :=
  ⟨h.start, h.low, mem_reachFrom h.closed _ _ _ fun _ hb => mem_singleton.mp hb ▸ Int.le_refl _⟩

theorem consistent (h : Repairable floor header s) (hW : Wanted header W s) :
    Repair.Consistent floor header W { base := s } :=
  ⟨h.laid, hW, h.issued, h.secluded, fun id hid => absurd hid (by simp [Repair.outdated]),
      fun _ hq => (by cases hq),
    fun _ hq => (by cases hq)⟩

/-- A repair of a loop is a sequence of changes in the blocks from its header on. -/
theorem changes (h : Repairable floor header s) (hW : Wanted header W s) :
    Changes header W s (s.repairLoop header) :=
  ((Repair.mending W h.region).run (Repair.mending_report h.region) .listed header
    ⟨h.consistent hW, h.reached⟩).changes

end Repairable

end SingleAssignment.Builder
