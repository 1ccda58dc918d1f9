import SingleAssignment.Proofs.Advance
import SingleAssignment.Proofs.Outline
import SingleAssignment.Proofs.Replay

/-!
# Edges and loop repair in well-formed states

Adding a block or an edge leaves a state well-formed (`WellFormed.addBlock`, `WellFormed.link`), and
so does the repair of a loop (`WellFormed.repairLoop`).

A repair puts instructions into the middle of blocks, lets versions stand for other instructions and
retires what is outdated. Each of these steps is work in the blocks as any other (`Advances`),
because only two things about a repair matter: what it replaces is neither a constant nor an empty
instruction (`Repair.Sound`), and it puts instructions only where no phi and no head comes behind
(`Place.Anchored`). This is the invariant `Repair.soundly`.
-/

namespace SingleAssignment.Builder

open Code List
open Option (bind_eq_some_iff getD_some isSome_iff_exists isSome_map map_eq_some_iff map_some)

/-! ## Edges -/

section Edges

variable {s : State} {p c b : BlockId} {blk : Block}

open State

theorem View.mem_children_linked {x : BlockId} :
    x ∈ (linked p c b blk).children ↔ b = p ∧ x = c ∨ x ∈ blk.children := by
  rw [linked_children]
  split <;> simp_all [mem_addChild]

theorem View.mem_parents_linked {x : BlockId} :
    x ∈ (linked p c b blk).parents ↔ b = c ∧ x = p ∨ x ∈ blk.parents := by
  rw [linked_parents]
  split <;> simp_all [mem_addParent]

theorem View.nodup_linked (h : blk.parents.Nodup ∧ blk.children.Nodup) :
    (linked p c b blk).parents.Nodup ∧ (linked p c b blk).children.Nodup := by
  have hadd : ∀ {l : List BlockId} {x : BlockId}, l.Nodup →
      (if l.contains x then l else l ++ [x]).Nodup := by
    intro l x hl
    split
    · exact hl
    · rename_i hx
      rw [contains_iff_mem] at hx
      exact nodup_append.mpr ⟨hl, by simp, fun y hy z hz he =>
        hx (mem_singleton.mp hz ▸ he ▸ hy)⟩
  rw [linked_parents, linked_children]
  unfold Block.addChild Block.addParent
  constructor
  · split
    · simpa only [apply_ite Block.parents] using hadd h.1
    · exact h.1
  · split
    · simpa only [apply_ite Block.children] using hadd h.2
    · exact h.2

theorem isSome_block?_link : ((s.link p c).block? b).isSome = (s.block? b).isSome := by
  rw [block?_link, isSome_map]

theorem Wired.link (h : Wired s) (hp : (s.block? p).isSome) (hc : (s.block? c).isSome) :
    Wired (s.link p c) := by
  have hrest := View.linked_rest p c
  refine ⟨isSome_block?_link.trans h.entry, isSome_block?_link.trans h.start, fun {b blk} hb => ?_,
    fun {b blk} hb => ?_, fun {b blk} hfirst hb => ?_, fun {q d P} hq hd => ?_,
    fun {q d C} hd hq => ?_, fun {b blk} hb => ?_⟩
  · rw [block?_link] at hb
    obtain ⟨blk₀, hb₀, rfl⟩ := map_eq_some_iff.mp hb
    exact (hrest b blk₀).1.trans (h.id_eq hb₀)
  · rw [block?_link] at hb
    obtain ⟨blk₀, hb₀, rfl⟩ := map_eq_some_iff.mp hb
    rw [(hrest b blk₀).2.1]
    exact h.doms hb₀
  · rw [block?_link] at hb
    obtain ⟨blk₀, hb₀, rfl⟩ := map_eq_some_iff.mp hb
    exact (hrest b blk₀).2.2.trans (h.first hfirst hb₀)
  · rw [block?_link] at hq
    obtain ⟨P₀, hP₀, rfl⟩ := map_eq_some_iff.mp hq
    rw [block?_link]
    rcases View.mem_children_linked.mp hd with ⟨rfl, rfl⟩ | hd
    · obtain ⟨C, hC⟩ := isSome_iff_exists.mp hc
      exact ⟨_, by rw [hC]; rfl, View.mem_parents_linked.mpr (.inl ⟨rfl, rfl⟩)⟩
    · obtain ⟨C, hC, hmem⟩ := h.child hP₀ hd
      exact ⟨_, by rw [hC]; rfl, View.mem_parents_linked.mpr (.inr hmem)⟩
  · rw [block?_link] at hd
    obtain ⟨C₀, hC₀, rfl⟩ := map_eq_some_iff.mp hd
    rw [block?_link]
    rcases View.mem_parents_linked.mp hq with ⟨rfl, rfl⟩ | hq
    · obtain ⟨P, hP⟩ := isSome_iff_exists.mp hp
      exact ⟨_, by rw [hP]; rfl, View.mem_children_linked.mpr (.inl ⟨rfl, rfl⟩)⟩
    · obtain ⟨P, hP, hmem⟩ := h.parent hC₀ hq
      exact ⟨_, by rw [hP]; rfl, View.mem_children_linked.mpr (.inr hmem)⟩
  · rw [block?_link] at hb
    obtain ⟨blk₀, hb₀, rfl⟩ := map_eq_some_iff.mp hb
    exact View.nodup_linked (h.nodup hb₀)

theorem State.Fenced.of_link (h : (s.link p c).Fenced) : s.Fenced := by
  have hblock : ∀ {b blk}, s.block? b = some blk → (s.link p c).block?
    b = some (View.linked p c b blk) := by
    intro b blk hb
    rw [block?_link, hb, map_some]
  refine ⟨fun blk hb => ?_, fun blk hb q hq => ?_, fun b blk hb hne => ?_⟩
  · have hno := h.entry _ (hblock hb)
    exact eq_nil_iff_forall_not_mem.mpr fun q hq => by
      have := View.mem_parents_linked (p := p) (c := c) (b := entryBlock) |>.mpr (.inr hq)
      rw [hno] at this
      cases this
  · exact h.start _ (hblock hb) q (View.mem_parents_linked.mpr (.inr hq))
  · have := h.dominates b _ (hblock hb) hne
    rwa [(View.linked_rest p c b blk).2.1] at this

theorem WellFormed.link (h : WellFormed s) (hp : (s.block? p).isSome) (hc : (s.block? c).isSome) :
    WellFormed (s.link p c) := by
  have hmap : ∀ {α : Type} (f : Block → α), (∀ b blk, f (View.linked p c b blk) = f blk) →
      ∀ b, ((s.link p c).block? b).map f = (s.block? b).map f :=
    fun f hf b => map_block?_link f (hf b)
  have hentries : ∀ b, (s.link p c).entriesOf b = s.entriesOf b := by
    intro b
    rw [entriesOf, hmap _ fun b blk => (linked_same p c b blk).2.1]
    rfl
  have hinst : ∀ id, (s.link p c).inst? id = s.inst? id := fun id => by
    simp only [State.link, inst?_modifyBlock]
  have hdeferrals : (s.link p c).deferrals = s.deferrals := by
    simp only [State.link, deferrals_modifyBlock]
  refine h.rewire (h.wired.link hp hc) .of_link (fun b hb => isSome_block?_link.trans hb) ⟨hinst,
    by simp only [State.link, versions_modifyBlock], fun b => ?_,
    fun b => congrArg (Option.getD · []) (hmap (·.table) (table_linked p c) b), fun b e he _ => .inl
    (by rwa [← hentries]),
    fun e he _ => by rwa [hentries], fun b q hq => .inl ?_,
    fun d hd => .inl (by rwa [← hdeferrals])⟩
  · rw [timelineOf, hmap _ fun b blk => (linked_same p c b blk).1]
    rfl
  · obtain ⟨blk, hb, hq⟩ := bind_eq_some_iff.mp hq
    have hsame := hmap (·.placeholder) (fun b blk => (linked_same p c b blk).2.2.2.1) b
    rw [hb, map_some, hq] at hsame
    obtain ⟨blk₀, hb₀, hq₀⟩ := map_eq_some_iff.mp hsame.symm
    exact bind_eq_some_iff.mpr ⟨blk₀, hb₀, hq₀⟩

theorem isSome_block?_push (hb : (s.block? b).isSome) :
    ({ s with blocks := s.blocks.push blk }.block? b).isSome := by
  rw [block?_push]
  split
  · rfl
  · exact hb

/-- A block without edges and without code is added. -/
theorem WellFormed.push (h : WellFormed s) {kind : BlockKind} {join : JoinKind} {ds : List BlockId}
    (hblk : blk = { id := s.blocks.size, kind := kind, join := join,
                    dominators := s.blocks.size :: ds }) :
    WellFormed { s with blocks := s.blocks.push blk } := by
  subst hblk
  have hlt : ∀ {b blk}, s.block? b = some blk → b ≠ s.blocks.size := by
    intro b blk hb he
    rw [he, block?_size] at hb
    cases hb
  have hold : ∀ {b blk new}, s.block? b = some blk →
      { s with blocks := s.blocks.push new }.block? b = some blk := by
    intro b blk new hb
    rw [block?_push, if_neg (hlt hb), hb]
  have hread : ∀ {α : Type} (f : Block → List α) {new b}, f new = [] →
      (({ s with blocks := s.blocks.push new }.block? b).map f).getD [] = ((s.block? b).map f).getD
      [] := by
    intro α f new b hf
    rw [block?_push]
    split
    · rename_i he
      rw [he, block?_size]
      exact hf
    · rfl
  refine h.rewire ⟨isSome_block?_push h.wired.entry, isSome_block?_push h.wired.start,
    fun {b blk} hb => ?_, fun {b blk} hb => ?_, fun {b blk} hfirst hb => ?_,
    fun {q d P} hq hd => ?_, fun {q d C} hd hq => ?_, fun {b blk} hb => ?_⟩
    (fun hf => ⟨fun blk hb => ?_, fun blk hb => ?_, fun b blk hb hne => ?_⟩)
    (fun _ => isSome_block?_push) ⟨fun _ => rfl, rfl, fun b => hread _ rfl, fun b => hread _ rfl,
    fun b e he _ => .inl ?_, fun e he _ => ?_, fun b q hq => .inl ?_, fun d hd => .inl hd⟩
  · rw [block?_push] at hb
    split at hb
    · cases hb
      exact Eq.symm ‹_›
    · exact h.wired.id_eq hb
  · rw [block?_push] at hb
    split at hb
    · cases hb
      exact ⟨ds, by rw [‹b = _›]⟩
    · exact h.wired.doms hb
  · rw [block?_push, if_neg] at hb
    · exact h.wired.first hfirst hb
    · have hsome : (s.block? b).isSome := hfirst.elim (· ▸ h.wired.entry) (· ▸ h.wired.start)
      obtain ⟨blk, hb⟩ := isSome_iff_exists.mp hsome
      exact hlt hb
  · rw [block?_push] at hq
    split at hq
    · cases hq
      cases hd
    · obtain ⟨C, hC, hmem⟩ := h.wired.child hq hd
      exact ⟨C, hold hC, hmem⟩
  · rw [block?_push] at hd
    split at hd
    · cases hd
      cases hq
    · obtain ⟨P, hP, hmem⟩ := h.wired.parent hd hq
      exact ⟨P, hold hP, hmem⟩
  · rw [block?_push] at hb
    split at hb
    · cases hb
      exact ⟨.nil, .nil⟩
    · exact h.wired.nodup hb
  · exact hf.entry blk (hold hb)
  · exact hf.start blk (hold hb)
  · exact hf.dominates b blk (hold hb) hne
  · rwa [entriesOf, hread _ rfl] at he
  · rwa [entriesOf, hread _ rfl]
  · rw [holderOf, block?_push] at hq
    split at hq
    · cases hq
    · exact hq

theorem WellFormed.links (h : WellFormed s) {ps : List BlockId}
    (hps : ∀ q ∈ ps, (s.block? q).isSome) (hc : (s.block? c).isSome) :
    WellFormed (ps.foldl (fun s q => s.link q c) s) := by
  induction ps generalizing s with
  | nil => exact h
  | cons q ps ih =>
    refine ih (h.link (hps q (mem_cons_self ..)) hc)
      (fun r hr => isSome_block?_link.trans (hps r (mem_cons_of_mem _ hr)))
      (isSome_block?_link.trans hc)

theorem WellFormed.addBlock (h : WellFormed s) {d : BlockDraft}
    (hps : ∀ q ∈ d.parents, (s.block? q).isSome) : WellFormed (s.addBlock d).2 :=
  (h.push rfl).links (fun q hq => isSome_block?_push (hps q hq))
    (by rw [block?_push, if_pos rfl]; rfl)

end Edges

/-! ## Places -/

/-- A place where an instruction may be put: by an instruction that is no phi, by a version that is
no head, or at the end. -/
def Place.Anchored (p : Place) (s : State) : Prop :=
  (s.block? p.block).isSome ∧
  match p.anchor with
  | .inst id => ∃ i, s.inst? id = some i ∧ i.block = p.block ∧ i.op ≠ .phi
  | .mark v => ∃ a, s.versions[v]? = some a ∧ a.block = p.block ∧ a.isHead = false
  | .blockEnd => True

section Places

variable {s t : State} {p : Place}

open State

theorem Advances.anchored (h : Advances s t) (hp : p.Anchored s) : p.Anchored t := by
  obtain ⟨b, anchor⟩ := p
  obtain ⟨hb, hp⟩ := hp
  refine ⟨h.isSome_block hb, ?_⟩
  cases anchor with
  | inst id =>
    obtain ⟨i, hi, hblock, hphi⟩ := hp
    obtain ⟨i', hi', ho⟩ := h.inst hi
    refine ⟨i', hi', ho.block.trans hblock, ?_⟩
    rcases ho.op with ⟨hop, -⟩ | ⟨-, -, hne⟩
    · exact hop ▸ hphi
    · exact hne
  | mark v =>
    obtain ⟨a, ha, hblock, hhead⟩ := hp
    obtain ⟨a', ha', -, -, hblock', hhead'⟩ := h.version ha
    exact ⟨a', ha', hblock'.trans hblock, hhead'.trans hhead⟩
  | blockEnd => trivial

/-- A slot of a block stands where it is found. -/
theorem Listed.getElem?_idxOf (h : Listed s) {x : Slot} {b : BlockId} (hx : s.ownerOf x = some b) :
    (s.timelineOf b)[(s.timelineOf b).idxOf x]? = some x := by
  have hlt := idxOf_lt_length_iff.mpr ((h.mem_iff b x).mpr hx)
  rw [getElem?_eq_getElem hlt, getElem_idxOf]

theorem Listed.isSome_block (h : Listed s) {x : Slot} {b : BlockId} (hx : s.ownerOf x = some b) :
    (s.block? b).isSome := by
  have hmem := (h.mem_iff b x).mpr hx
  rw [timelineOf] at hmem
  cases hb : s.block? b with
  | none =>
    rw [hb] at hmem
    cases hmem
  | some blk => rfl

theorem Place.Anchored.leadingRun_le (hp : p.Anchored s) (h : WellFormed s) :
    s.leadingRun p.block ≤ p.position s := by
  obtain ⟨b, anchor⟩ := p
  obtain ⟨-, hp⟩ := hp
  cases anchor with
  | inst id =>
    obtain ⟨i, hi, hblock, hphi⟩ := hp
    refine Listed.leadingRun_le (h.listed.getElem?_idxOf ?_) ?_
    · rw [ownerOf, hi, map_some, hblock]
    · simp [isLead, hi, hphi]
  | mark v =>
    obtain ⟨a, ha, hblock, hhead⟩ := hp
    refine Listed.leadingRun_le (h.listed.getElem?_idxOf ?_) ?_
    · rw [ownerOf, ha, map_some, hblock]
    · simp [isLead, ha, hhead]
  | blockEnd => exact Listed.leadingRun_le_endOf b

end Places

/-! ## Steps of a repair -/

/-- An instruction that another may stand in for: a phi, or a numbered one that is no constant. -/
def IsReplaceable (s : State) (id : InstId) : Prop :=
  ∃ i, s.inst? id = some i ∧ (i.op = .phi ∨ i.op.isNumbered = true ∧ i.op ≠ .const)

theorem Advances.isReplaceable {s t : State} (h : Advances s t) {id : InstId}
    (hid : IsReplaceable s id) : IsReplaceable t id := by
  obtain ⟨i, hi, hop⟩ := hid
  obtain ⟨i', hi', ho⟩ := h.inst hi
  have hempty : i.op ≠ .empty := by
    intro he
    rw [he] at hop
    rcases hop with hop | ⟨hop, -⟩ <;> cases hop
  rw [← ho.op_eq hempty] at hop
  exact ⟨i', hi', hop⟩

namespace Repair

/-- A repair of a well-formed state that replaces only what may be replaced. -/
structure Sound (r : Repair) : Prop where
  wellFormed : WellFormed r.base
  outdated : ∀ id ∈ r.outdated, IsReplaceable r.base id

/-- A repair goes on: it works in the blocks, and stays sound. -/
structure Proceeds (r r' : Repair) : Prop where
  advances : Advances r.base r'.base
  outdated : ∀ id ∈ r'.outdated, IsReplaceable r'.base id

variable {r r' r'' : Repair} {loop : List BlockId} {p : Place}

theorem Proceeds.sound (h : Proceeds r r') : Sound r' :=
  ⟨h.advances.wellFormed, h.outdated⟩

theorem Proceeds.refl (h : Sound r) : Proceeds r r :=
  ⟨.refl h.wellFormed, h.outdated⟩

theorem Proceeds.trans (h : Proceeds r r') (h' : Proceeds r' r'') : Proceeds r r'' :=
  ⟨h.advances.trans h'.advances, h'.outdated⟩

/-- Work in the blocks is all right for a repair. -/
theorem Sound.work (h : Sound r) {s : State} (hs : Advances r.base s)
    (memo : List (VersionId × InstId)) (spliced : Nat) :
    Proceeds r { r with base := s, memo := memo, spliced := spliced } :=
  ⟨hs, fun id hid => hs.isReplaceable (h.outdated id hid)⟩

theorem Sound.forget (h : Sound r) : Proceeds r r.forget :=
  h.work (.refl h.wellFormed) [] r.spliced

theorem Sound.remember (h : Sound r) (v : VersionId) (id : InstId) : Proceeds r (r.remember v id) :=
  h.work (.refl h.wellFormed) _ r.spliced

theorem Sound.setStandIn (h : Sound r) {old : InstId} (hold : IsReplaceable r.base old)
    (new : InstId) : Proceeds r (r.setStandIn old new) := by
  refine ⟨.refl h.wellFormed, fun id hid => ?_⟩
  rcases mem_cons.mp hid with rfl | hid
  · exact hold
  · obtain ⟨q, hq, rfl⟩ := mem_map.mp hid
    exact h.outdated _ (mem_map_of_mem (mem_filter.mp hq).1)

theorem chase_of_not_outdated {id : InstId} (h : id ∉ r.outdated) : r.chase id = id := by
  have hnone : r.standIn? id = none := by
    rw [standIn?, lookup_eq_none_iff]
    intro q hq
    exact bne_iff_ne.mpr fun he => h (mem_map.mpr ⟨q, hq, he.symm⟩)
  rw [chase, chaseFor, hnone]

theorem Sound.supersede (h : Sound r) {i : Instruction} (hi : IsReplaceable r.base i.id)
    (hnum : i.op.isNumbered = true) (hconst : i.op ≠ .const) (x y : Operand)
    (hp : p.Anchored r.base) : Proceeds r (supersede i x y p r) := by
  unfold Repair.supersede
  dsimp only
  split
  · exact h.setStandIn hi _
  · have hset := h.setStandIn hi (r.base.placeNumbered p.block
      { op := i.op, x := x, y := y, srcX := i.srcX, srcY := i.srcY } (i.memory.getD {})
      (p.position r.base + 1)).1
    refine hset.trans (hset.sound.work (h.wellFormed.placeNumbered hp.1 hnum hconst ?_) _ _)
    exact Nat.le_succ_of_le (hp.leadingRun_le h.wellFormed)

/-- The operands of an instruction with an effect change where they stand. -/
theorem Sound.setOperands (h : Sound r) {id : InstId} {i : Instruction} {x y : Operand}
    (hi : ∀ i', r.base.inst? id = some i' → Outlives i i') (hnum : i.op.isNumbered = false)
    (hsome : i.op = .empty → ¬IsBlank i ∧ ¬(x = .none ∧ y = .none)) :
    Proceeds r { r with base := r.base.modifyInst id fun i => { i with x := x, y := y } } := by
  refine h.work (h.wellFormed.modifyInst fun i' hi' => ?_) _ _
  have ho := hi i' hi'
  have hop : i'.op = i.op := ho.op.elim (·.1) fun he => absurd he.2.1 (hsome he.1).1
  have hnum : i'.op.isNumbered ≠ true := by
    rw [hop, hnum]
    exact Bool.false_ne_true
  refine ⟨rfl, rfl, rfl, fun h => absurd h hnum, fun _ => ⟨rfl, rfl⟩, fun _ h => h,
    fun _ => rfl, fun he => ?_⟩
  · have hempty := hop.symm.trans he
    refine iff_of_false (fun hblank => (hsome hempty).2 ⟨hblank.1, hblank.2.1⟩)
      fun hblank => (hsome hempty).1 ?_
    exact ho.op.elim (fun hkept => hkept.2 hempty hblank) fun hother => hother.2.1

theorem Sound.note (h : Sound r) {merged : Merged}
    (hphi : ∀ phi value, merged.retired = some (phi, value) → IsReplaceable r.base phi) :
    Proceeds r (r.note merged) := by
  have hforget : ∀ {r'}, Proceeds r r' → Proceeds r (if merged.changed then r'.forget else r') := by
    intro r' h'
    split
    · exact h'.trans h'.sound.forget
    · exact h'
  unfold Repair.note
  cases hr : merged.retired with
  | none => exact hforget (.refl h)
  | some retired => exact hforget (h.setStandIn (hphi _ _ hr) _)

theorem Sound.merge (h : Sound r) {j : BlockId} (hj : (r.base.block? j).isSome)
    (name : String) (x y : Value) (above : Option InstId) :
    Proceeds r ({ r with base := (r.base.merge j name x y above).2 }.note
      (r.base.merge j name x y above).1) := by
  obtain ⟨hmerge, hretired⟩ := h.wellFormed.merge hj name x y above
  have hwork := h.work hmerge r.memo r.spliced
  refine hwork.trans (hwork.sound.note fun phi value he => hmerge.isReplaceable ?_)
  obtain ⟨i, hi, hop⟩ := hretired phi value he
  exact ⟨i, hi, .inl hop⟩

theorem Sound.rebind (h : Sound r) {v : VersionId} {id : InstId}
    (hzero : r.base.Fenced → ∀ a, r.base.versions[v]? = some a → a.number = 0 →
      r.base.IsConst a.inst → r.base.IsConst id) : Proceeds r (r.rebind v id) := by
  unfold Repair.rebind
  split
  · exact .refl h
  · rename_i ver hver
    dsimp only
    have hset : ∀ history, Advances r.base
        (r.base.modifyVersion v fun ver => { ver with history := history, inst := id }) :=
      fun history => h.wellFormed.modifyVersion fun a ha =>
        ⟨rfl, rfl, rfl, rfl, fun _ hphi => .inl hphi, fun hf => hzero hf a ha⟩
    refine h.work ?_ _ _
    split
    · exact hset _
    · exact (hset _).depend v

/-- A version that is not version 0, at least while the first block with code is entered once. -/
def IsLater (v : VersionId) (s : State) : Prop :=
  ∃ a, s.versions[v]? = some a ∧ (s.Fenced → a.number ≠ 0)

theorem IsLater.advances {s t : State} {v : VersionId} (ha : Advances s t) (h : IsLater v s) :
    IsLater v t := by
  obtain ⟨a, hv, hne⟩ := h
  obtain ⟨a', hv', -, hnumber, -⟩ := ha.version hv
  exact ⟨a', hv', fun hf => hnumber ▸ hne (hf.congr ha.graph)⟩

theorem Sound.rebindLater (h : Sound r) {v : VersionId} {id : InstId} (hv : IsLater v r.base) :
    Proceeds r (r.rebind v id) := by
  obtain ⟨a, hv, hne⟩ := hv
  refine h.rebind fun hf a' hv' hz => ?_
  cases hv.symm.trans hv'
  exact absurd hz (hne hf)

theorem Sound.rebindChased (h : Sound r) (v : VersionId) : Proceeds r (r.rebindChased v) := by
  refine h.rebind fun _ a ha _ hconst => ?_
  rw [ha, map_some, getD_some, chase_of_not_outdated]
  · exact hconst
  · -- A constant is never replaced.
    intro hmem
    obtain ⟨i, hi, hphi | ⟨-, hne⟩⟩ := h.outdated _ hmem <;> obtain ⟨c, hc, hop⟩ := hconst <;>
      cases hi.symm.trans hc
    · cases hphi.symm.trans hop
    · exact hne hop

theorem WellFormed.retire {s : State} (h : WellFormed s) {id : InstId} (hid : IsReplaceable s id) :
    Advances s (retire s id) := by
  obtain ⟨i, hi, hop⟩ := hid
  refine h.modifyInst fun i' hi' => ?_
  cases hi.symm.trans hi'
  refine ⟨rfl, rfl, rfl, fun _ => ⟨rfl, rfl⟩, fun _ => ⟨rfl, rfl⟩, fun _ ha => absurd ha
    Bool.false_ne_true, ?_, fun he => ?_⟩
  · rintro (hc | ⟨hnum, hphi, -⟩)
    · rw [hc] at hop
      rcases hop with hop | ⟨-, hop⟩
      · cases hop
      · exact absurd rfl hop
    · rcases hop with hop | ⟨hop, -⟩
      · exact absurd hop hphi
      · rw [hnum] at hop
        cases hop
  · rw [he] at hop
    rcases hop with hop | ⟨hop, -⟩ <;> cases hop

/-- The repair of a loop is sound if the first block with code is none of the loop, as long as that
is entered once. -/
def soundly (loop : List BlockId) : StepInvariant loop where
  Holds r := Sound r ∧ (r.base.Fenced → startBlock ∉ loop)
  Leads r r' := Proceeds r r'
  Site s p _ := p.Anchored s
  Known _ _ := True
  Within _ := True
  Merges s j _ ps := (s.block? j).isSome ∧ ∀ b ∈ [ps.1, ps.2], b ≠ entryBlock → (s.block? b).isSome
  Own s v := IsLater v s
  naming := .all
  refl h := .refl h.1
  trans hp hp' := hp.trans hp'
  holds h hp := ⟨hp.sound, fun hf => h.2 (hf.congr hp.advances.graph)⟩
  site_mono _ hp hs := hp.advances.anchored hs
  site_weaken hs _ := hs
  site_mark h hver hhead _ :=
    ⟨h.1.wellFormed.listed.isSome_block (x := .mark _) (by rw [State.ownerOf, hver, map_some]), _,
      hver, rfl, hhead⟩
  site_inst h hi hphi _ _ :=
    ⟨h.1.wellFormed.listed.isSome_block (x := .inst _) (by rw [State.ownerOf, hi, map_some]), _,
      hi, rfl, hphi⟩
  within _ _ _ _ _ := trivial
  remember h _ := h.1.remember _ _
  forget h := h.1.forget
  const h n := ⟨h.1.work (h.1.wellFormed.const n).1 _ _, trivial⟩
  number h hnum hconst hs spliced :=
    ⟨h.1.work (h.1.wellFormed.number hs.1 _ _ _ hnum hconst (hs.leadingRun_le h.1.wellFormed)) _ _,
      trivial⟩
  supersede h hp hi hconst hnum _ hs _ _ := by
    refine hp.sound.supersede (hp.advances.isReplaceable ⟨_, ?_, .inr ⟨hnum, hconst⟩⟩)
      hnum hconst _ _ hs
    rw [h.1.wellFormed.listed.id_eq hi, hi]
  setOperands _ hp hi hnum hsome hnew _ := hp.sound.setOperands (fun i' hi' => by
    obtain ⟨i'', hi'', ho⟩ := hp.advances.inst hi
    cases hi'.symm.trans hi''
    exact ho) hnum fun _ => ⟨fun hblank => hsome ⟨hblank.1, hblank.2.1⟩, hnew⟩
  merges _ _ hblk _ _ hp := by
    obtain ⟨hx, hy⟩ := hp.sound.wellFormed.isSome_joinParents _
    exact ⟨hp.advances.isSome_block
      (by rw [hblk]; rfl), by simp only [forall_mem_cons]; exact ⟨hx, hy, by simp⟩⟩
  merges_mono _ hp hm := ⟨hp.advances.isSome_block hm.1, fun b hb hne => hp.advances.isSome_block
    (hm.2 b hb hne)⟩
  read h hm hb := ⟨h.1.work (h.1.wellFormed.readAtEnd _ (hm.2 _ hb) none) _ _, trivial,
    fun _ _ => trivial⟩
  merge h hm _ _ _ _ above := h.1.merge hm.1 _ _ _ above
  own h hb hv hp := by
    obtain ⟨a, ha, hblock, -⟩ := h.1.wellFormed.mem_versionsOf.mp hv
    refine IsLater.advances hp.advances ⟨a, ha, fun hf hz => h.2 hf ?_⟩
    rw [← (h.1.wellFormed.versioned.least ha |>.2 hz).1, hblock]
    exact hb
  rebind h hv _ := h.1.rebindLater hv
  outside _ _ _ _ _ _ _ hp := hp.sound.rebindChased _
  retire h hid := h.1.work (WellFormed.retire h.1.wellFormed (h.1.outdated _ hid)) _ _

end Repair

/-! ## The blocks of a loop -/

section Reach

variable {s : State} {b c : BlockId}

open State

/-- A walk along edges does not come back to the first two blocks if these are not entered. -/
theorem Wired.startBlock_not_mem_reach (h : Wired s) {blk : Block} (hb : s.block? b = some blk)
    (hjoin : blk.join ≠ .none) (hf : s.Fenced) : startBlock ∉ s.reach b := by
  intro hmem
  refine (State.mem_reachFrom (P := fun c => c ≠ entryBlock ∧ c ≠ startBlock) (fun d c hd hc => ?_)
    _ _ _ (fun c hc => ?_) _ hmem).2 rfl
  · obtain ⟨P, hP, hchild⟩ : ∃ P, s.block? d = some P ∧ c ∈ P.children := by
      cases hP : s.block? d with
      | none => simp [View.children, State.view, hP] at hc
      | some P => exact ⟨P, rfl, by simpa [View.children, State.view, Block.shape, hP] using hc⟩
    obtain ⟨C, hC, hparent⟩ := h.child hP hchild
    constructor
    · rintro rfl
      rw [hf.entry C hC] at hparent
      cases hparent
    · rintro rfl
      exact hd.1 (hf.start C hC d hparent)
  · rw [mem_singleton.mp hc]
    exact ⟨fun he => hjoin (h.first (.inl he) hb), fun he => hjoin (h.first (.inr he) hb)⟩

theorem WellFormed.repairLoop (h : WellFormed s) {blk : Block} (hb : s.block? b = some blk)
    (hjoin : blk.join ≠ .none) : Advances s (s.repairLoop b) := by
  have hsound : Repair.Sound { base := s } :=
    ⟨h, fun _ hid => absurd hid (by simp [Repair.outdated])⟩
  exact ((Repair.soundly (s.reach b)).run
    (fun _ _ h => h.1.work ((Advances.refl h.1.wellFormed).report _) _ _) .listed b
    ⟨hsound, h.wired.startBlock_not_mem_reach hb hjoin⟩).advances

end Reach

end SingleAssignment.Builder
