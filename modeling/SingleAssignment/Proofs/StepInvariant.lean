import SingleAssignment.Proofs.Issued
import SingleAssignment.Proofs.Layout

/-!
# The walk of a repair

A repair replays operands and versions, merges joins again, and points versions at their values,
round after round. All that it does to a state on this way are steps of few kinds. A `StepInvariant`
says of these steps that each leads on, and of the facts that the steps rely on that they last; the
walk through the loop is then gone once for all of them (`StepInvariant.round`,
`StepInvariant.replay`, `StepInvariant.run`).
-/

namespace SingleAssignment.Builder

open Code List

namespace Repair

/-- Which instructions a repair may name: 0, those that are there, those that versions and notes of
the repair name, and what stands in for one. -/
structure Naming (Holds : Repair → Prop) (Leads : Repair → Repair → Prop)
    (Known : State → InstId → Prop) : Prop where
  mono {r r' id} : Holds r → Leads r r' → Known r.base id → Known r'.base id
  zero (s) : Known s 0
  inst {r id i} : Holds r → r.base.inst? id = some i → Known r.base i.id
  chase {r id} : Holds r → Known r.base id → Known r.base (r.chase id)
  memo {r v id} : Holds r → r.memo.lookup v = some id → Known r.base id
  version {r} {v : VersionId} {ver : Version} : Holds r → r.base.versions[v]? = some ver →
    Known r.base ver.inst ∧ ∀ id ∈ ver.src.ids, Known r.base id

/-- Every instruction may be named. -/
theorem Naming.all {Holds : Repair → Prop} {Leads : Repair → Repair → Prop} :
    Naming Holds Leads fun _ _ => True :=
  ⟨fun _ _ _ => trivial, fun _ => trivial, fun _ _ => trivial, fun _ _ => trivial,
    fun _ _ => trivial, fun _ _ => ⟨trivial, fun _ _ => trivial⟩⟩

/-- What a repair of a loop keeps to. `Holds` is known of it on its way, and `Leads` says how it may
go on. Code is put only at a `Site` for the memory tags that it carries, only instructions that are
`Known` are named, and only what is `Within` is replayed. `Merges` tells which variable is merged at
which block from which two, and `Own` which versions are pointed at their values. -/
structure StepInvariant (loop : List BlockId) where
  Holds : Repair → Prop
  Leads : Repair → Repair → Prop
  Site : State → Place → List MemoryTag → Prop
  Known : State → InstId → Prop
  Within : BlockId → Prop
  Merges : State → BlockId → String → BlockId × BlockId → Prop
  Own : State → VersionId → Prop
  refl {r} : Holds r → Leads r r
  trans {r r' r''} : Leads r r' → Leads r' r'' → Leads r r''
  holds {r r'} : Holds r → Leads r r' → Holds r'
  site_mono {r r' p ts} : Holds r → Leads r r' → Site r.base p ts → Site r'.base p ts
  site_weaken {s p ts ts'} : Site s p ts → (∀ t ∈ ts', t ∈ ts) → Site s p ts'
  site_mark {r} {v : VersionId} {ver : Version} : Holds r → r.base.versions[v]? = some ver →
    ver.isHead = false → ver.block ∈ loop → Site r.base ⟨ver.block, .mark v⟩ (tagsOf ver.src)
  site_inst {r id i} : Holds r → r.base.inst? id = some i → i.op ≠ .phi →
    ¬(i.x = .none ∧ i.y = .none) → Within i.block → Site r.base ⟨i.block, .inst id⟩ (instTags i)
  within {r r' b id i} : Holds r → b ∈ loop → .inst id ∈ r.base.timelineOf b → Leads r r' →
    r'.base.inst? id = some i → Within i.block
  naming : Naming Holds Leads Known
  remember {r v id} : Holds r → Known r.base id → Leads r (r.remember v id)
  forget {r} : Holds r → Leads r r.forget
  const {r} : Holds r → ∀ n, Leads r { r with base := (r.base.const n).2 } ∧
    Known (r.base.const n).2 (r.base.const n).1.id
  number {r p op x y tag} : Holds r → op.isNumbered = true → op ≠ .const →
    Site r.base p (tagsOf x.src ++ tagsOf y.src ++ if op = .load then [tag] else []) → ∀ spliced,
    Leads r { r with base := (r.base.number p.block op x y tag (p.position r.base)).2,
                     spliced := spliced } ∧
      Known (r.base.number p.block op x y tag (p.position r.base)).2
        (r.base.number p.block op x y tag (p.position r.base)).1.1.id
  supersede {r r' id i} : Holds r → Leads r r' → r.base.inst? id = some i → i.op ≠ .const →
    i.op.isNumbered = true → Within i.block → Site r'.base ⟨i.block, .inst id⟩ (instTags i) → ∀ x y,
    Leads r' (r'.supersede i x y ⟨i.block, .inst id⟩)
  setOperands {r r' id i x y} : Holds r → Leads r r' → r.base.inst? id = some i →
    i.op.isNumbered = false → ¬(i.x = .none ∧ i.y = .none) → ¬(x = .none ∧ y = .none) →
    Within i.block → Leads r' { r' with base := r'.base.modifyInst id fun i => { i with x := x,
                                                                                        y := y } }
  merges {r r' j blk name} : Holds r → j ∈ loop → r.base.block? j = some blk → blk.join ≠ .none →
    name ∈ blk.joinVars → Leads r r' → Merges r'.base j name (r'.base.joinParents j)
  merges_mono {r r' j name ps} : Holds r → Leads r r' → Merges r.base j name ps →
    Merges r'.base j name ps
  read {r j name ps b} : Holds r → Merges r.base j name ps → b ∈ [ps.1, ps.2] →
    Leads r { r with base := (r.base.readAtEnd b name none).2 } ∧
      Known (r.base.readAtEnd b name none).2 (r.base.readAtEnd b name none).1.id ∧
      ∀ id ∈ (r.base.readAtEnd b name none).1.src.ids, Known (r.base.readAtEnd b name none).2 id
  merge {r j name ps x y} : Holds r → Merges r.base j name ps → tagsOf x.src = [] →
    tagsOf y.src = [] → Known r.base x.id → (∀ id ∈ x.src.ids, Known r.base id) → ∀ above,
    Leads r ({ r with base := (r.base.merge j name x y above).2 }.note
    (r.base.merge j name x y above).1)
  own {r r' b name v} : Holds r → b ∈ loop → v ∈ r.base.versionsOf b name →
    Leads r r' → Own r'.base v
  rebind {r v id} : Holds r → Own r.base v → Known r.base id → Leads r (r.rebind v id)
  outside {r r' r'' old i ref v} : Holds r → old ∈ r.outdated → r.base.inst? old = some i →
    ref ∈ i.deps → ref.block ∉ loop → Leads r r' → v ∈ r'.base.versionsOf ref.block ref.var →
    Leads r' r'' → Leads r'' (r''.rebindChased v)
  retire {r id} : Holds r → id ∈ r.outdated → Leads r { r with base := Repair.retire r.base id }

theorem base_note (r : Repair) (m : Merged) : (r.note m).base = r.base := by
  unfold note
  dsimp only
  split <;> split <;> rfl

theorem snd_sweep {α : Type} (step : Repair → α → Bool × Repair) (l : List α) (r : Repair) :
    (sweep step l r).2 = l.foldl (fun r a => (step r a).2) r := by
  induction l generalizing r with
  | nil => rfl
  | cons a l ih => exact ih _

/-- A replayed operand carries no other tags than it did. -/
theorem tagsOf_operandValue (src : Provenance) (replay : Repair → InstId × Repair)
    (inst : InstId) (side : Side) (r : Repair) :
    ∀ t ∈ tagsOf (operandValue src replay inst side r).1.src, t ∈ tagsOf src := by
  unfold operandValue
  split
  · exact fun t ht => ht
  · exact fun t ht => by cases ht

/-- Replaying neither takes an operand away nor adds one. -/
theorem freshOperand_eq_none_iff (loop : List BlockId) (i : Instruction) (side : Side) (p : Place)
    (r : Repair) : (freshOperand loop i side p r).1 = .none ↔ i.slot side = .none := by
  unfold freshOperand
  split
  · rename_i ref href
    rw [href]
    split
    · simp
    · split <;> simp
  · rfl

theorem tagsOf_readAtEnd (s : State) (b : BlockId) (name : String) (cause : Option ZeroCause) :
    tagsOf (s.readAtEnd b name cause).1.src = [] := by
  have hread : ∀ (s : State) c, tagsOf (s.readVersion b name c).src = [] := fun s c => by
    unfold State.readVersion
    split <;> rfl
  unfold State.readAtEnd
  split
  · rfl
  · split <;> exact hread _ _

theorem outdated_rebindOutside (loop : List BlockId) (r : Repair) (old : InstId) :
    (rebindOutside loop r old).outdated = r.outdated := by
  have hrebind : ∀ (r : Repair) v id, (r.rebind v id).outdated = r.outdated := fun r v id => by
    unfold rebind
    split <;> rfl
  have hfold : ∀ {α : Type} {f : Repair → α → Repair}, (∀ r a, (f r a).outdated = r.outdated) →
      ∀ (l : List α) r, (l.foldl f r).outdated = r.outdated := by
    intro α f hf l
    induction l with
    | nil => exact fun _ => rfl
    | cons a l ih => exact fun r => (ih _).trans (hf r a)
  refine hfold (fun r ref => ?_) _ r
  split
  · rfl
  · exact hfold (fun r v => hrebind r v _) _ r

namespace StepInvariant

variable {loop : List BlockId} (R : StepInvariant loop) {r r' r'' : Repair} {p : Place}

/-- What comes after a step. -/
theorem andThen (h : R.Holds r) (hl : R.Leads r r') (next : R.Holds r' → R.Leads r' r'') :
    R.Leads r r'' :=
  R.trans hl (next (R.holds h hl))

/-- Steps for the elements of a list, each of which is good for its element wherever the steps
before it led. -/
theorem foldl {α : Type} {f : Repair → α → Repair} (l : List α) (h : R.Holds r)
    (hf : ∀ a ∈ l, ∀ r', R.Leads r r' → R.Holds r' → R.Leads r' (f r' a)) :
    R.Leads r (l.foldl f r) := by
  suffices ∀ l' ⊆ l, ∀ r', R.Leads r r' → R.Holds r' → R.Leads r' (l'.foldl f r') from
    this l (List.Subset.refl l) r (R.refl h) h
  intro l'
  induction l' with
  | nil => exact fun _ r' _ h' => R.refl h'
  | cons a l' ih =>
    intro hsub r' hl h'
    have hstep := hf a (hsub (mem_cons_self ..)) r' hl h'
    exact R.andThen h' hstep fun h'' => ih (fun b hb => hsub (mem_cons_of_mem _ hb)) _
      (R.trans hl hstep) h''

/-! ## Replaying -/

theorem recompute (h : R.Holds r) {op : Opcode} {inst : InstId} {tag : MemoryTag} {x y : Value}
    (hop : op.isNumbered = true) (hconst : op ≠ .const)
    (hp : R.Site r.base p (tagsOf x.src ++ tagsOf y.src ++ if op = .load then [tag] else [])) :
    R.Leads r (r.recompute op inst tag x y p).2 ∧
      R.Known (r.recompute op inst tag x y p).2.base (r.recompute op inst tag x y p).1 := by
  unfold Repair.recompute
  split
  · rename_i i hi
    exact ⟨R.refl h, R.naming.inst h (Option.filter_eq_some_iff.mp hi).1⟩
  · exact R.number h hop hconst hp _

theorem operandValue (src : Provenance) (inst : InstId) (side : Side)
    {replay : Repair → InstId × Repair} (h : R.Holds r) (hreplay : R.Leads r (replay r).2) :
    R.Leads r (operandValue src replay inst side r).2 := by
  unfold Repair.operandValue
  split
  · exact hreplay
  · exact R.refl h

theorem resolveWith {onVersion : VersionId → Repair → InstId × Repair}
    (hv : ∀ v r, R.Holds r → R.Leads r (onVersion v r).2 ∧ R.Known (onVersion v r).2.base
      (onVersion v r).1)
    (src : Provenance) (h : R.Holds r) (hp : R.Site r.base p (tagsOf src)) :
    R.Leads r (resolveWith onVersion src p r).2 ∧ ((∀ id ∈ src.ids, R.Known r.base id) →
      R.Known (resolveWith onVersion src p r).2.base (resolveWith onVersion src p r).1) := by
  induction src generalizing r with
  | absent => exact ⟨R.refl h, fun _ => R.naming.zero _⟩
  | unknown inst =>
    exact ⟨R.refl h, fun hsrc => R.naming.chase h (hsrc inst (mem_singleton_self inst))⟩
  | immediate n inst =>
    unfold Repair.resolveWith
    split
    · exact ⟨(R.const h n).1, fun _ => (R.const h n).2⟩
    · exact ⟨R.refl h, fun hsrc => R.naming.chase h (hsrc inst (mem_singleton_self inst))⟩
  | read name version block inst =>
    unfold Repair.resolveWith
    split
    · exact ⟨(hv _ r h).1, fun _ => (hv _ r h).2⟩
    · exact ⟨R.refl h, fun hsrc => R.naming.chase h (hsrc inst (mem_singleton_self inst))⟩
  | result op inst x y tag ihx ihy =>
    unfold Repair.resolveWith
    split
    · rename_i hrep
      simp only [Provenance.isReplayable, Bool.and_eq_true, bne_iff_ne] at hrep
      have hx := R.operandValue x inst .x h
        (ihx h (R.site_weaken hp fun t ht => mem_append_left _ (mem_append_left _ ht))).1
      have hxt := tagsOf_operandValue x (Repair.resolveWith onVersion x p) inst .x r
      dsimp only
      generalize Repair.operandValue x (Repair.resolveWith onVersion x p) inst .x r = rx at *
      obtain ⟨xv, r₁⟩ := rx
      have hy := R.operandValue y inst .y (R.holds h hx) (ihy (R.holds h hx)
        (R.site_weaken (R.site_mono h hx hp) fun t ht => mem_append_left _
        (mem_append_right _ ht))).1
      have hyt := tagsOf_operandValue y (Repair.resolveWith onVersion y p) inst .y r₁
      dsimp only at hx hy hxt hyt ⊢
      generalize Repair.operandValue y (Repair.resolveWith onVersion y p) inst .y r₁ = ry at *
      obtain ⟨yv, r₂⟩ := ry
      have hboth := R.trans hx hy
      have htags : ∀ t ∈ tagsOf xv.src ++ tagsOf yv.src ++ (if op = .load then [tag] else []),
          t ∈ tagsOf (.result op inst x y tag) := by
        intro t ht
        rcases mem_append.mp ht with ht | ht
        · refine mem_append_left _ ?_
          exact (mem_append.mp ht).elim (fun ht => mem_append_left _ (hxt t ht))
            fun ht => mem_append_right _ (hyt t ht)
        · exact mem_append_right _ ht
      obtain ⟨hlast, hid⟩ : R.Leads r₂ (r₂.recompute op inst tag xv yv p).2 ∧ R.Known _ _ :=
        R.recompute (R.holds h hboth) hrep.1.1 hrep.1.2
          (R.site_weaken (R.site_mono h hboth hp) htags)
      exact ⟨R.trans hboth hlast, fun _ => hid⟩
    · exact ⟨R.refl h, fun hsrc => R.naming.chase h (hsrc inst (mem_cons_self ..))⟩

theorem valueFor (fuel : Nat) (v : VersionId) (h : R.Holds r) :
    R.Leads r (valueFor loop fuel v r).2 ∧ R.Known (valueFor loop fuel v r).2.base
      (valueFor loop fuel v r).1 := by
  induction fuel generalizing v r with
  | zero =>
    refine ⟨R.refl h, R.naming.chase h ?_⟩
    cases hv : r.base.versions[v]? with
    | none => exact R.naming.zero _
    | some ver => exact (R.naming.version h hv).1
  | succ fuel ih =>
    unfold Repair.valueFor
    split
    · rename_i id _ hid
      exact ⟨R.refl h, R.naming.memo h hid⟩
    · exact ⟨R.refl h, R.naming.zero _⟩
    · rename_i ver hmemo hver
      dsimp only
      have hold := R.naming.chase h (R.naming.version h hver).1
      have hr := R.remember (v := v) h hold
      split
      · rename_i hcond
        simp only [Bool.and_eq_true, Bool.not_eq_true', contains_iff_mem] at hcond
        have h' := R.holds h hr
        obtain ⟨hsrc, hid⟩ := R.resolveWith (fun v r h => ih v h) ver.src h'
          (R.site_mark h' (v := v) hver hcond.1.1 hcond.2)
        have hid := hid (R.naming.version h hver).2
        exact ⟨R.trans hr (R.andThen h' hsrc fun h'' => R.remember h'' hid), hid⟩
      · exact ⟨hr, hold⟩

theorem value (v : VersionId) (h : R.Holds r) :
    R.Leads r (value loop v r).2 ∧ R.Known (value loop v r).2.base (value loop v r).1 :=
  R.valueFor _ v h

/-! ## A round -/

theorem freshOperand {i : Instruction} (side : Side) (h : R.Holds r)
    (hp : R.Site r.base p (tagsOf (i.source side))) :
    R.Leads r (freshOperand loop i side p r).2 := by
  unfold Repair.freshOperand
  split
  · split
    · exact R.refl h
    · split
      · exact (R.resolveWith (fun v r h => R.value v h) _ h hp).1
      · exact R.refl h
  · exact R.refl h

theorem refreshInst (h : R.Holds r) {id : InstId}
    (hid : ∀ i, r.base.inst? id = some i → R.Within i.block) :
    R.Leads r (refreshInst loop r id) := by
  unfold Repair.refreshInst
  split
  · exact R.refl h
  rename_i i hi
  split
  · exact R.refl h
  rename_i hskip
  simp only [Bool.or_eq_true, not_or, beq_iff_eq] at hskip
  obtain ⟨⟨⟨-, hphi⟩, hconst⟩, -⟩ := hskip
  dsimp only
  by_cases hnone : i.x = .none ∧ i.y = .none
  · -- there are no operands to replay
    simp only [Repair.freshOperand, Instruction.slot, hnone.1, hnone.2, BEq.rfl,
      Bool.and_self, if_true]
    exact R.refl h
  have hp := R.site_inst h hi hphi hnone (hid i hi)
  have hx := R.freshOperand (i := i) .x h
    (R.site_weaken hp fun t ht => mem_append_left _ (mem_append_left _ ht))
  have hxnone := freshOperand_eq_none_iff loop i .x ⟨i.block, .inst id⟩ r
  generalize Repair.freshOperand loop i .x ⟨i.block, .inst id⟩ r = rx at *
  obtain ⟨x, r₁⟩ := rx
  have hy := R.freshOperand (i := i) .y (R.holds h hx)
    (R.site_weaken (R.site_mono h hx hp) fun t ht => mem_append_left _ (mem_append_right _ ht))
  have hynone := freshOperand_eq_none_iff loop i .y ⟨i.block, .inst id⟩ r₁
  dsimp only at hx hy hxnone hynone ⊢
  generalize Repair.freshOperand loop i .y ⟨i.block, .inst id⟩ r₁ = ry at *
  obtain ⟨y, r₂⟩ := ry
  have hboth := R.trans hx hy
  dsimp only at hynone ⊢
  split
  · exact hboth
  · split
    · rename_i hnum
      exact R.trans hboth (R.supersede h hboth hi hconst hnum (hid i hi) (R.site_mono h hboth hp) x
        y)
    · rename_i hnum
      exact R.trans hboth (R.setOperands h hboth hi (Bool.eq_false_iff.mpr hnum) hnone
        (fun he => hnone ⟨hxnone.mp he.1, hynone.mp he.2⟩) (hid i hi))

theorem refreshBlock (h : R.Holds r) {b : BlockId} (hb : b ∈ loop) :
    R.Leads r (refreshBlock loop r b) := by
  refine R.foldl _ h fun id hid r' hl h' => R.refreshInst h' fun i hi => ?_
  obtain ⟨slot, hslot, hmem⟩ := mem_filterMap.mp hid
  cases slot with
  | mark v => cases hmem
  | inst id' =>
    cases hmem
    exact R.within h hb hslot hl hi

theorem refresh (h : R.Holds r) : R.Leads r (r.refresh loop) := by
  have hall : R.Leads r (loop.foldl (Repair.refreshBlock loop) r.forget) :=
    R.andThen h (R.forget h) fun h' => R.foldl loop h' fun b hb r' _ h'' => R.refreshBlock h'' hb
  exact R.andThen h hall R.forget

/-- A value that is read at the end of a block carries no memory tags, and all that it names is
known. -/
theorem readAtEnd (h : R.Holds r) {j b : BlockId} {name : String} {ps : BlockId × BlockId}
    (hm : R.Merges r.base j name ps) (hb : b ∈ [ps.1, ps.2]) :
    R.Leads r (Repair.readAtEnd loop b name r).2 ∧
      tagsOf (Repair.readAtEnd loop b name r).1.src = [] ∧
        R.Known (Repair.readAtEnd loop b name r).2.base (Repair.readAtEnd loop b name r).1.id ∧
      ∀ id ∈ (Repair.readAtEnd loop b name r).1.src.ids,
        R.Known (Repair.readAtEnd loop b name r).2.base id := by
  unfold Repair.readAtEnd
  split
  · obtain ⟨hl, hid, hsrc⟩ := R.read h hm hb
    exact ⟨hl, tagsOf_readAtEnd .., hid, hsrc⟩
  · rename_i v _
    obtain ⟨hl, hid⟩ := R.value v h
    exact ⟨hl, rfl, hid, fun id hmem => mem_singleton.mp hmem ▸ hid⟩

theorem visibleInst? (h : R.Holds r) (b : BlockId) (name : String) :
    R.Leads r (visibleInst? loop b name r).2 := by
  unfold Repair.visibleInst?
  split
  · exact R.refl h
  · exact (R.value _ h).1

theorem reconcile (h : R.Holds r) {j : BlockId} {name : String}
    (hm : R.Merges r.base j name (r.base.joinParents j)) :
    R.Leads r (reconcile loop j r name).2 := by
  unfold Repair.reconcile
  dsimp only
  generalize r.base.joinParents j = ps at *
  obtain ⟨hx, hxt, hxid, hxsrc⟩ := R.readAtEnd h hm (mem_cons_self ..)
  generalize Repair.readAtEnd loop ps.1 name r = rx at *
  obtain ⟨x, r₁⟩ := rx
  have h₁ := R.holds h hx
  dsimp only at hx hxt hxid hxsrc h₁ ⊢
  obtain ⟨hy, hyt, -, -⟩ := R.readAtEnd (b := ps.2) h₁ (R.merges_mono h hx hm) (by simp)
  generalize Repair.readAtEnd loop ps.2 name r₁ = ry at *
  obtain ⟨y, r₂⟩ := ry
  have hboth := R.trans hx hy
  have h₂ := R.holds h hboth
  dsimp only at hy hyt h₂ ⊢
  have habove : R.Leads r₂ (if x.id = y.id && (r₂.base.head? j name).isNone then
      Repair.visibleInst? loop (r₂.base.blockAbove j) name r₂ else (none, r₂)).2 := by
    split
    · exact R.visibleInst? h₂ _ name
    · exact R.refl h₂
  generalize (if x.id = y.id && (r₂.base.head? j name).isNone then
      Repair.visibleInst? loop (r₂.base.blockAbove j) name r₂ else (none, r₂)) = ra at *
  obtain ⟨above, r₃⟩ := ra
  dsimp only at habove ⊢
  have hlater := R.trans hy habove
  have hall := R.trans hx hlater
  exact R.trans hall (R.merge (R.holds h hall) (R.merges_mono h hall hm) hxt hyt
    (R.naming.mono h₁ hlater hxid) (fun id hid => R.naming.mono h₁ hlater (hxsrc id hid)) above)

theorem reconcileBlock (h : R.Holds r) {j : BlockId} (hj : j ∈ loop) :
    R.Leads r (reconcileBlock loop r j).2 := by
  unfold Repair.reconcileBlock
  split
  · exact R.refl h
  · rename_i blk hblk
    split
    · exact R.refl h
    · rename_i hjoin
      rw [snd_sweep]
      exact R.foldl _ h fun name hname r' hl h' => R.reconcile h'
        (R.merges h hj hblk hjoin hname hl)

theorem round (h : R.Holds r) : R.Leads r (round loop r).2 := by
  unfold Repair.round
  rw [snd_sweep]
  exact R.andThen h (R.refresh h) fun h' => R.foldl loop h' fun j hj r' _ h'' => R.reconcileBlock
    h'' hj

theorem rounds (hreport : ∀ r e, R.Holds r → R.Leads r { r with base := r.base.report e })
    (header : BlockId) (left done : Nat) (h : R.Holds r) :
    R.Leads r (rounds header loop left done r).2 := by
  induction left generalizing done r with
  | zero => exact R.refl h
  | succ left ih =>
    have hr := R.round h
    unfold Repair.rounds
    dsimp only
    split
    · exact hr
    · split
      · exact R.andThen h hr (hreport _ _)
      · exact R.andThen h hr fun h' => ih _ h'

/-! ## After the rounds -/

theorem rebindBlock (h : R.Holds r) {b : BlockId} (hb : b ∈ loop) :
    R.Leads r (rebindBlock loop r b) := by
  refine R.foldl _ h fun name _ r' _ h' => R.foldl _ h' fun v hv r'' hl h'' => ?_
  unfold Repair.rebindInside
  split
  · exact R.refl h''
  · rename_i ver hver
    dsimp only
    split
    · exact R.rebind h'' (R.own h' hb hv hl) (R.naming.chase h'' (R.naming.version h'' hver).1)
    · obtain ⟨hvalue, hid⟩ := R.value v h''
      exact R.andThen h'' hvalue fun h₃ => R.rebind h₃ (R.own h' hb hv (R.trans hl hvalue)) hid

theorem rebindBlocks (h : R.Holds r) : R.Leads r (loop.foldl (Repair.rebindBlock loop) r.forget) :=
  R.andThen h (R.forget h) fun h' => R.foldl loop h' fun _ hb _ _ h'' => R.rebindBlock h'' hb

theorem rebindOutside (h : R.Holds r) {old : InstId} (hold : old ∈ r.outdated) :
    R.Leads r (rebindOutside loop r old) := by
  unfold Repair.rebindOutside
  cases hi : r.base.inst? old with
  | none => exact R.refl h
  | some i =>
    refine R.foldl _ h fun ref href r' hl h' => ?_
    split
    · exact R.refl h'
    · rename_i hout
      rw [contains_iff_mem] at hout
      exact R.foldl _ h' fun v hv r'' hl' _ => R.outside h hold hi href hout hl
        (mem_filter.mp hv).1 hl'

theorem rebindOutsides (h : R.Holds r) {olds : List InstId}
    (holds : ∀ old ∈ olds, old ∈ r.outdated) :
    R.Leads r (olds.foldl (Repair.rebindOutside loop) r) := by
  induction olds generalizing r with
  | nil => exact R.refl h
  | cons old olds ih =>
    refine R.andThen h (R.rebindOutside h (holds old (mem_cons_self ..))) fun h' => ih h'
      fun old' hmem => ?_
    rw [outdated_rebindOutside]
    exact holds old' (mem_cons_of_mem _ hmem)

theorem retireStale (e : Enumeration) (h : R.Holds r) {olds : List InstId}
    (holds : ∀ id ∈ olds, id ∈ r.outdated) (fuel : Nat) :
    R.Leads r { r with base := retireStale e olds fuel r.base } := by
  have hpass : ∀ (l : List InstId) {r : Repair}, R.Holds r → (∀ id ∈ l, id ∈ r.outdated) →
      R.Leads r { r with base := l.foldl Repair.retire r.base } := by
    intro l
    induction l with
    | nil => exact fun h _ => R.refl h
    | cons id l ih =>
      intro r h hl
      exact R.andThen h (R.retire h (hl id (mem_cons_self ..))) fun h' =>
        ih h' fun id' hid => hl id' (mem_cons_of_mem _ hid)
  induction fuel generalizing r with
  | zero => exact R.refl h
  | succ fuel ih =>
    unfold Repair.retireStale
    split
    · exact R.refl h
    · exact R.andThen h (hpass _ h fun id hid => holds id
          ((e.perm ..).mem_iff.mp (mem_filter.mp hid).1))
        fun h' => ih h' holds

theorem replay (e : Enumeration) (h : R.Holds r) : R.Leads r (r.replay e loop) := by
  have hin := R.rebindBlocks h
  have hout := R.rebindOutsides (R.holds h hin) fun _ hold => (e.perm 0 _).mem_iff.mp hold
  have hboth := R.trans hin hout
  exact R.trans hboth (R.retireStale e (R.holds h hboth) (fun _ hid => hid) _)

theorem run (hreport : ∀ r e, R.Holds r → R.Leads r { r with base := r.base.report e })
    (e : Enumeration) (header : BlockId) (h : R.Holds r) : R.Leads r (r.run e header loop) := by
  have hr := R.rounds hreport header (2 * loop.length + 4) 0 h
  have hp := R.andThen h hr (R.replay e)
  exact R.trans hp (hreport _ _ (R.holds h hp))

end StepInvariant

end Repair

end SingleAssignment.Builder
