import SingleAssignment.Proofs.Arena
import SingleAssignment.Proofs.Reuse

/-!
# No value is computed twice

In a program without loops code is only ever added to the newest block, or to the block of the
constants. So when an operation is looked for along the dominators of its block, everything that
will ever dominate it is there, and an instruction is made only if none of these computes the same.

`Shares b s` is what each step keeps, `b` being the newest block: the instructions that compute are
active and known to value numbering, and no two of them that compute the same lie one above the
other. Only numbering an operation can break it (`Shares.numberAtEnd`); all else adds no such
instruction (`Spares`). The walk over the syntax tree then carries it to the finished program
(`lower_shares`).
-/

namespace SingleAssignment.Builder

open Code List State
open Option (getD_some isSome_iff_exists isSome_map map_some)

/-! ## Finding what is there -/

section Find

variable {s : State} {b d : BlockId} {e : Entry} {op : Opcode} {x y : Operand}

theorem Entry.matches?_ne_none (tag : MemoryTag) (hop : e.op = op) (hload : op ≠ .load)
    (hxy : e.x = x ∧ e.y = y ∨ op.isCommutative = true ∧ e.x = y ∧ e.y = x) :
    e.matches? op x y tag ≠ none := by
  rcases hxy with ⟨hx, hy⟩ | ⟨hcomm, hx, hy⟩
  · simp [Entry.matches?, hop, hload, hx, hy]
  · by_cases he : y = x <;> simp [Entry.matches?, hop, hload, hx, hy, hcomm, he]

theorem State.findEntry_ne_none {entries : List Entry} {tag : MemoryTag} (he : e ∈ entries)
    (hlive : s.isLive e.id = true) (hmatch : e.matches? op x y tag ≠ none) :
    s.findEntry [] op x y tag entries ≠ none := by
  intro hnone
  have := findSome?_eq_none_iff.mp hnone e he
  simp only [hlive, contains_nil, Bool.not_false, Bool.and_self, if_true,
    Option.map_eq_none_iff] at this
  exact hmatch this

/-- At the end of a block, all that its dominators know is found. -/
theorem WellFormed.find?_ne_none (h : WellFormed s) {tag : MemoryTag} (hd : d ∈ s.dominatorsOf b)
    (he : e ∈ s.entriesOf d) (hlive : s.isLive e.id = true)
    (hmatch : e.matches? op x y tag ≠ none) : s.find? b op x y tag (s.endOf b) ≠ none := by
  obtain ⟨blk, hb⟩ := isSome_iff_exists.mp (isSome_block_of_dominatorsOf hd)
  obtain ⟨ds, hds⟩ := h.wired.doms hb
  have hdoms : s.dominatorsOf b = b :: ds := by
    rw [State.dominatorsOf, hb, map_some, getD_some, hds]
  have hend : (s.timelineOf b).drop (s.endOf b) = [] := drop_length
  rw [hdoms] at hd
  simp only [State.find?, hdoms, hend, ne_eq, Option.or_eq_none_iff, not_and]
  intro hnone
  rcases mem_cons.mp hd with rfl | hd
  · exact absurd hnone (findEntry_ne_none he hlive hmatch)
  · exact fun hall => findEntry_ne_none he hlive hmatch (findSome?_eq_none_iff.mp hall d hd)

theorem hasOperands_iff {i : Instruction} : Repair.hasOperands i x y = true ↔
    i.x = x ∧ i.y = y ∨ i.op.isCommutative = true ∧ i.x = y ∧ i.y = x := by
  simp [Repair.hasOperands, and_assoc]

end Find

/-! ## What each step keeps -/

/-- Block `b` is the newest, and no value is computed where it is there already. -/
structure Shares (b : BlockId) (s : State) : Prop where
  wellFormed : WellFormed s
  here : (s.block? b).isSome
  newest : ∀ b', (s.block? b').isSome → b' ≤ b
  rising : ∀ b' d, d ∈ s.dominatorsOf b' → d ≤ b'
  known : ∀ {id i}, s.inst? id = some i → i.op.isArithmetic = true →
    i.active = true ∧ ∃ e ∈ s.entriesOf i.block, e.op = i.op ∧ e.id = id
  apart : ∀ {id id' i i'}, s.inst? id = some i → s.inst? id' = some i' → i.op.isArithmetic = true →
    i'.op = i.op → Repair.hasOperands i i'.x i'.y = true → i.block ∈ s.dominatorsOf i'.block →
    id = id'

theorem sparable_arithmetic : Sparable (fun _ => false) Opcode.isArithmetic :=
  ⟨rfl, fun _ h => h⟩

namespace Shares

variable {b : BlockId} {s t : State}

/-- Instructions that compute are neither added nor changed, and blocks keep their dominators. -/
theorem known_spared (h : Shares b s) (hsp : Spares (fun _ => false) Opcode.isArithmetic s t)
    {id : InstId} {i : Instruction} (hi : t.inst? id = some i) (hop : i.op.isArithmetic = true) :
    i.active = true ∧ ∃ e ∈ t.entriesOf i.block, e.op = i.op ∧ e.id = id := by
  obtain ⟨i₀, hi₀, hplain⟩ := hsp.back hi hop
  obtain ⟨hop₀, -, -, hblock, hactive₀⟩ := of_plain hplain
  obtain ⟨hactive, e, he, heop, hid⟩ := h.known hi₀ (hop₀ ▸ hop)
  exact ⟨hactive₀.trans hactive, e, hblock ▸ hsp.entry he (by rwa [heop, ← hop₀]),
    heop.trans hop₀.symm, hid⟩

theorem apart_spared (h : Shares b s) (hsp : Spares (fun _ => false) Opcode.isArithmetic s t)
    (hdoms : ∀ b, (s.block? b).isSome → t.dominatorsOf b = s.dominatorsOf b) {id id' : InstId}
    {i i' : Instruction} (hi : t.inst? id = some i) (hi' : t.inst? id' = some i')
    (hop : i.op.isArithmetic = true) (hop' : i'.op = i.op)
    (hxy : Repair.hasOperands i i'.x i'.y = true) (hdom : i.block ∈ t.dominatorsOf i'.block) :
    id = id' := by
  obtain ⟨i₀, hi₀, hp⟩ := hsp.back hi hop
  obtain ⟨i₁, hi₁, hp'⟩ := hsp.back hi' (hop'.symm ▸ hop)
  obtain ⟨hop₀, hx₀, hy₀, hblock₀, -⟩ := of_plain hp
  obtain ⟨hop₁, hx₁, hy₁, hblock₁, -⟩ := of_plain hp'
  have hsome := h.wellFormed.listed.isSome_block (x := .inst id')
    (by rw [State.ownerOf, hi₁, map_some])
  rw [hblock₀, hblock₁, hdoms _ hsome] at hdom
  rw [hop₀, hop₁] at hop'
  rw [hasOperands_iff, hop₀, hx₀, hy₀, hx₁, hy₁] at hxy
  exact h.apart hi₀ hi₁ (hop₀ ▸ hop) hop' (hasOperands_iff.mpr hxy) hdom

/-- Work that adds no block and no instruction that computes. -/
theorem spare (h : Shares b s) (ht : WellFormed t)
    (hblocks : ∀ b, (t.block? b).map (·.dominators) = (s.block? b).map (·.dominators))
    (hsp : Spares (fun _ => false) Opcode.isArithmetic s t) : Shares b t := by
  have hdoms : ∀ b, t.dominatorsOf b = s.dominatorsOf b :=
    fun b => congrArg (Option.getD · []) (hblocks b)
  have hsome : ∀ b, (t.block? b).isSome = (s.block? b).isSome := fun b => by
    simpa using congrArg Option.isSome (hblocks b)
  exact ⟨ht, (hsome b).trans h.here, fun b' hb' => h.newest b' (hsome b' ▸ hb'),
    fun b' d hd => h.rising b' d (hdoms b' ▸ hd), h.known_spared hsp, h.apart_spared hsp
    fun b _ => hdoms b⟩

theorem advance (h : Shares b s) (ha : Advances s t)
    (hsp : Spares (fun _ => false) Opcode.isArithmetic s t) : Shares b t :=
  h.spare ha.wellFormed ha.map_dominators hsp

/-- A new block is the newest, and nothing is in it yet. -/
theorem addBlock (h : Shares b s) {d : BlockDraft} (hps : ∀ q ∈ d.parents, (s.block? q).isSome)
    (hd : ∀ x ∈ d.dominators, x ≤ b) : Shares (s.addBlock d).1 (s.addBlock d).2 := by
  have hblocks := s.map_dominators_addBlock d
  have hsome : ∀ b', ((s.addBlock d).2.block? b').isSome → b' = s.blocks.size ∨
    (s.block? b').isSome := by
    intro b' hb'
    have := congrArg Option.isSome (hblocks b')
    rw [isSome_map, hb'] at this
    split at this
    · exact .inl ‹_›
    · exact .inr (by rw [← isSome_map, ← this])
  have hlt : ∀ b', (s.block? b').isSome → b' < s.blocks.size := fun b' hb' => by
    obtain ⟨blk, hb'⟩ := isSome_iff_exists.mp hb'
    exact (lt_size_of_block? hb').2
  refine ⟨h.wellFormed.addBlock hps, ?_, fun b' hb' => ?_, fun b' x hx => ?_,
    h.known_spared (Sparable.addBlock d), h.apart_spared (Sparable.addBlock d) fun b' hb' => ?_⟩
  · have := congrArg Option.isSome (hblocks s.blocks.size)
    rwa [if_pos rfl, isSome_map] at this
  · rcases hsome b' hb' with rfl | hb'
    · exact Int.le_refl _
    · exact Int.le_of_lt (hlt b' hb')
  · rw [State.dominatorsOf, hblocks] at hx
    split at hx
    · rename_i he
      rcases mem_cons.mp hx with rfl | hx
      · exact Int.le_of_eq he.symm
      · exact he ▸ Int.le_of_lt (Int.lt_of_le_of_lt (hd x hx) (hlt b h.here))
    · exact h.rising b' x hx
  · rw [State.dominatorsOf, hblocks, if_neg (Int.ne_of_lt (hlt b' hb'))]
    rfl

/-- What an operation computes is not there yet if it was not found. -/
theorem not_computed (h : Shares b s) {op : Opcode} {x y : Operand} {tag : MemoryTag}
    (hload : op ≠ .load) (hnone : s.find? b op x y tag (s.endOf b) = none) {id : InstId}
    {i : Instruction} (hi : s.inst? id = some i) (hop : i.op = op)
    (harith : i.op.isArithmetic = true) (hdom : i.block ∈ s.dominatorsOf b) :
    ¬ (i.x = x ∧ i.y = y ∨ op.isCommutative = true ∧ i.x = y ∧ i.y = x) := by
  obtain ⟨hactive, e, he, heop, hid⟩ := h.known hi harith
  have hphi : e.op ≠ .phi := by
    intro hphi
    rw [← heop, hphi] at harith
    cases harith
  obtain ⟨i', hi', -, -, -, hx, hy⟩ := h.wellFormed.known.entry he hphi
  cases hi.symm.trans (hid ▸ hi')
  intro hxy
  refine h.wellFormed.find?_ne_none hdom he ?_ (Entry.matches?_ne_none tag (heop.trans hop)
    hload ?_) hnone
  · rw [State.isLive, hid, hi, Option.any_some, hactive]
  · rwa [← hx, ← hy]

/-- An operation is numbered at the end of the newest block. -/
theorem numberAtEnd (h : Shares b s) {op : Opcode} (hnum : op.isNumbered = true)
    (hconst : op ≠ .const) (x y : Value) (tag : MemoryTag) :
    Shares b (s.numberAtEnd b op x y tag).2 := by
  have hadv := h.wellFormed.numberAtEnd h.here op x y tag hnum hconst
  by_cases hload : op = .load
  · exact h.advance hadv (sparable_arithmetic.number (by rw [hload]; rfl) ..)
  have hop : op.isArithmetic = true := by
    cases op <;> first | rfl | exact absurd rfl hconst | exact absurd rfl hload | cases hnum
  unfold State.numberAtEnd State.number at *
  cases hnone : s.find? b op x.operand y.operand tag (s.endOf b) with
  | some found => exact h
  | none =>
    rw [hnone] at hadv
    obtain ⟨blk, hb⟩ := isSome_iff_exists.mp h.here
    have hp := h.wellFormed.place (d := ⟨op, x.operand, y.operand, x.src, y.src⟩) hb
      (Listed.leadingRun_le_endOf b) (by rintro rfl; cases hop)
    obtain ⟨blk', hb'⟩ := isSome_iff_exists.mp ((isSome_of_shape hp.graph b).trans h.here)
    simp only [State.placeNumbered, beq_iff_eq, hload, if_false] at hadv ⊢
    generalize s.place b ⟨op, x.operand, y.operand, x.src, y.src⟩ (s.endOf b) = r at *
    obtain ⟨id, t⟩ := r
    dsimp only at hp hb' hadv ⊢
    obtain ⟨j, hinst, hjop, hjx, hjy, hjb, hja⟩ := hp.inst
    have hcases : ∀ {id' i}, (t.record b ⟨op, id, x.operand, y.operand, tag⟩).inst? id' = some i →
        id' = id ∧ i = j ∨ s.inst? id' = some i := by
      intro id' i hi
      rw [State.record, inst?_modifyBlock, hinst] at hi
      split at hi
      · exact .inl ⟨‹_›, (Option.some.inj hi).symm⟩
      · exact .inr hi
    have hentries := entriesOf_record hb' ⟨op, id, x.operand, y.operand, tag⟩
    have hdoms := hadv.dominatorsOf_eq
    refine ⟨hadv.wellFormed, (isSome_of_shape hadv.graph b).trans h.here,
      fun b' hb' => h.newest b' (isSome_of_shape hadv.graph b' ▸ hb'),
      fun b' d hd => h.rising b' d (hdoms b' ▸ hd), fun {id' i} hi harith => ?_,
      fun {id₁ id₂ i₁ i₂} hi₁ hi₂ harith hop' hxy hdom => ?_⟩
    · rw [hentries]
      rcases hcases hi with ⟨rfl, rfl⟩ | hi
      · exact ⟨hja, _, by rw [if_pos hjb]; exact mem_cons_self .., hjop.symm, rfl⟩
      · obtain ⟨hactive, e, he, hrest⟩ := h.known hi harith
        refine ⟨hactive, e, ?_, hrest⟩
        rw [hp.entries, hp.entries]
        split
        · rename_i heq
          exact mem_cons_of_mem _ (heq ▸ he)
        · exact he
    · rw [hdoms] at hdom
      rw [hasOperands_iff] at hxy
      rcases hcases hi₁ with ⟨rfl, rfl⟩ | hold₁ <;> rcases hcases hi₂ with ⟨rfl, rfl⟩ | hold₂
      · rfl
      · -- the block of the other is no newer than this one, so it is this one
        have hle := h.newest i₂.block (isSome_block_of_dominatorsOf hdom)
        have hge := h.rising _ _ hdom
        have heq : i₂.block = b := Int.le_antisymm hle (hjb ▸ hge)
        refine absurd ?_ (h.not_computed hload hnone hold₂ (hop'.trans hjop) (hop' ▸ harith) ?_)
        · rw [hjop, hjx, hjy] at hxy
          rcases hxy with ⟨hx, hy⟩ | ⟨hcomm, hx, hy⟩
          · exact .inl ⟨hx.symm, hy.symm⟩
          · exact .inr ⟨hcomm, hy.symm, hx.symm⟩
        · rw [heq, hjb] at hdom
          rwa [heq]
      · rw [hjb] at hdom
        rw [← hop', hjop, hjx, hjy] at hxy
        exact absurd hxy (h.not_computed hload hnone hold₁ (hop'.symm.trans hjop) harith hdom)
      · exact h.apart hold₁ hold₂ harith hop' (hasOperands_iff.mpr hxy) hdom

theorem const (h : Shares b s) (n : Int64) : Shares b (s.const n).2 :=
  h.advance (h.wellFormed.const n).1 (sparable_arithmetic.const n)

/-- Any values are computed with. -/
def reckoning (b : BlockId) : Reckoning b where
  Holds := Shares b
  Leads _ t := Shares b t
  Fit _ _ := True
  refl h := h
  trans _ h := h
  holds _ h := h
  fit_mono _ _ _ := trivial
  fit_empty _ := trivial
  const h n := ⟨h.const n, trivial⟩
  number _ h hop hconst _ _ _ := ⟨h.numberAtEnd hop hconst .., trivial⟩

theorem elementAddress (h : Shares b s) (a : ArrayInfo) (indices : List Value) :
    Shares b (s.elementAddress b a indices).2 :=
  ((reckoning b).elementAddress h trivial fun _ _ => ⟨trivial, trivial⟩).1

theorem isSome_of_le (h : Shares b s) {q : BlockId} (hq : 0 ≤ q) (hle : q ≤ b) :
    (s.block? q).isSome := by
  obtain ⟨blk, hb⟩ := isSome_iff_exists.mp h.here
  have hlt := (lt_size_of_block? hb).2
  rw [State.block?, if_pos hq, Array.getElem?_eq_getElem (by lia)]
  rfl

theorem nonneg (h : Shares b s) : 0 ≤ b := by
  obtain ⟨blk, hb⟩ := isSome_iff_exists.mp h.here
  exact (lt_size_of_block? hb).1

theorem le_addBlock (h : Shares b s) (d : BlockDraft) : b ≤ (s.addBlock d).1 := by
  obtain ⟨blk, hb⟩ := isSome_iff_exists.mp h.here
  exact Int.le_of_lt (lt_size_of_block? hb).2

theorem openJoin (h : Shares b s) (kind : JoinKind) : Shares b (s.openJoin kind) :=
  h.advance (h.wellFormed.of_arenas rfl rfl rfl rfl) (.of_arenas rfl rfl)

theorem defer (h : Shares b s) {id : InstId} (hid : IsBranchAt s id) (side : Side)
    {target : BlockId} (ht : (s.block? target).isSome) : Shares b (s.defer id side target) :=
  h.spare (h.wellFormed.defer hid side ht) (fun _ => congrArg _ (block?_modifyInst ..))
    ((sparable_arithmetic.aim (fun _ _ => rfl) hid side _).trans (.of_arenas rfl rfl))

theorem resolveBranches (h : Shares b s) : Shares b s.resolveBranches :=
  h.advance h.wellFormed.resolveBranches (sparable_arithmetic.resolveBranches
    (fun _ _ => rfl) h.wellFormed)

end Shares

end SingleAssignment.Builder

namespace SingleAssignment

open Code Builder Source List Builder.State

mutual

/-- Whether there is no loop in a statement. -/
def Source.Stmt.isLoopFree : Stmt → Bool
  | .ifThen _ thenPart _ => areLoopFree thenPart
  | .ifElse _ thenPart elsePart _ => areLoopFree thenPart && areLoopFree elsePart
  | .loop .. => false
  | .assign .. | .call .. | .hole => true

/-- Whether there is no loop in statements. -/
def Source.areLoopFree : List Stmt → Bool
  | [] => true
  | s :: ss => s.isLoopFree && areLoopFree ss

end

theorem Program.Holds.inst?_of_active {p : Program} {t : State} (h : p.Holds t) {i : Instruction}
    (hi : i ∈ p.active) : ∃ id, t.inst? id = some i := by
  obtain ⟨blk, -, hi⟩ := mem_flatMap.mp hi
  obtain ⟨id, -, hid⟩ := mem_filterMap.mp (mem_filter.mp hi).1
  exact ⟨id, h.inst?_eq id ▸ hid⟩

namespace Lowering

/-! ## The walk -/

/-- Lowering went on: it stands in the newest block, and no value was computed that was there. -/
structure KeepsShared (w w' : Walk) : Prop where
  shares : Shares w'.current w'.builder
  current : w.current ≤ w'.current

theorem KeepsShared.trans {w w' w'' : Walk} (h : KeepsShared w w') (h' : KeepsShared w' w'') :
    KeepsShared w w'' :=
  ⟨h'.shares, Int.le_trans h.current h'.current⟩

section

variable {w : Walk}

theorem shared_of {s : State} (h : Shares w.current s) : KeepsShared w { w with builder := s } :=
  ⟨h, Int.le_refl _⟩

theorem shared_of_eq {α : Type} {r : α × State} {a : α} {s : State} (hr : (a, s) = r)
    (h : Shares w.current r.2) : KeepsShared w { w with builder := s } := by
  subst hr
  exact shared_of h

theorem shared_emitHere (h : Shares w.current w.builder) (op : Opcode) (hphi : op ≠ .phi)
    {x y : Value} : Yields (emitHere op x y) w fun _ w' => KeepsShared w w' := by
  refine (yields_emitHere op hphi).imp ?_
  rintro v w' ⟨s, rfl, ⟨hnum, hconst, hv⟩ | ⟨-, n, -, -, hv⟩ | ⟨hnum, hv⟩⟩ <;>
    refine shared_of_eq hv ?_
  · exact h.numberAtEnd hnum hconst ..
  · exact h.const n
  · refine h.advance (h.wellFormed.emitEffect h.here op x y hnum hphi).1
      (sparable_arithmetic.emitEffect ?_ x y)
    rw [Opcode.isNumbered, Bool.or_eq_false_iff] at hnum
    exact hnum.2

theorem shared_lowerCall (h : Shares w.current w.builder) {fn : Builtin} {pos : Position}
    {argument : Lower Value} (harg : Yields argument w fun _ w' => KeepsShared w w') :
    Yields (lowerCall fn pos argument) w fun _ w' => KeepsShared w w' := by
  cases fn with
  | inputNum => exact shared_emitHere h .read (by decide)
  | outputNum =>
    exact .bind (harg.imp fun v w₁ h₁ => (shared_emitHere h₁.shares .write (by decide)).imp
      fun _ _ => h₁.trans)
  | outputNewLine => exact shared_emitHere h .writeNL (by decide)
  | other name => exact .throw trivial

mutual

theorem shared_lowerExpr (scope : Scope) : ∀ (e : Expr) {w : Walk}, Shares w.current w.builder →
    Yields (lowerExpr scope e) w fun _ w' => KeepsShared w w'
  | .num n, w, h => yields_build (ends_step (shared_of (h.const n)))
  | .element name [] pos, w, h => by
    refine .bind (yields_within (yields_checkScalar fun _ => .bind (yields_current (yields_build
      (yields_lookup.imp ?_)))) _)
    rintro v s ⟨-, hv⟩
    refine shared_of_eq hv ?_
    exact h.advance (h.wellFormed.readAtEnd name (fun _ => h.here) _)
      (sparable_arithmetic.readAtEnd name _)
  | .element name (e :: es) pos, w, h => by
    refine .bind (yields_within ((shared_lowerIndices scope (e :: es) h).imp
      fun indices w₁ h₁ => ?_) _)
    refine .bind (yields_current (yields_located (yields_within (yields_callBuilder
      (yields_loadElement.imp ?_)) _) _ _))
    rintro v s ⟨a, -, -, hv⟩
    exact h₁.trans (shared_of_eq hv ((h₁.shares.elementAddress a indices).numberAtEnd rfl
      (by decide) ..))
  | .binary op left right, w, h => by
    refine .bind (yields_within ((shared_lowerExpr scope left h).imp fun x w₁ h₁ => ?_) _)
    refine .bind (yields_within ((shared_lowerExpr scope right h₁.shares).imp fun y w₂ h₂ => ?_) _)
    exact yields_within ((shared_emitHere h₂.shares _ (operation_ne op).1).imp
      fun _ _ h₃ => (h₁.trans h₂).trans h₃) _
  | .call fn args pos, w, h =>
    yields_within (shared_lowerCall h (shared_lowerArgument scope args h)) _
  | .hole, _, _ => .throw trivial

theorem shared_lowerIndices (scope : Scope) : ∀ (es : List Expr) {w : Walk},
    Shares w.current w.builder → Yields (lowerIndices scope es) w fun _ w' => KeepsShared w w'
  | [], w, h => .pure (shared_of h)
  | e :: es, w, h => by
    refine .bind (yields_within ((shared_lowerExpr scope e h).imp fun v w₁ h₁ => ?_) _)
    exact .bind ((shared_lowerIndices scope es h₁.shares).imp fun vs w₂ h₂ => .pure (h₁.trans h₂))

theorem shared_lowerArgument (scope : Scope) : ∀ (es : List Expr) {w : Walk},
    Shares w.current w.builder → Yields (lowerArgument scope es) w fun _ w' => KeepsShared w w'
  | [], _, _ => .throw trivial
  | e :: _, _, h => yields_within (shared_lowerExpr scope e h) _

end

theorem shared_lowerRelation (scope : Scope) (r : Relation) (h : Shares w.current w.builder) :
    Yields (lowerRelation scope r) w fun _ w' => KeepsShared w w' := by
  refine .bind (yields_within ((shared_lowerExpr scope r.left h).imp fun x w₁ h₁ => ?_) _)
  refine .bind (yields_within ((shared_lowerExpr scope r.right h₁.shares).imp fun y w₂ h₂ => ?_) _)
  refine .bind ((shared_emitHere h₂.shares .cmp (by decide)).imp fun c w₃ h₃ => ?_)
  exact .bind (yields_within ((shared_emitHere h₃.shares _ (negated_ne r.op).1).imp fun br w₄ h₄ =>
    .pure ((h₁.trans h₂).trans (h₃.trans h₄))) _)

theorem shared_lowerAssign (scope : Scope) (d : Designator) (v : Value)
    (h : Shares w.current w.builder) :
    Yields (lowerAssign scope d v) w fun _ w' => KeepsShared w w' := by
  unfold lowerAssign
  split
  · refine .bind (yields_within (yields_checkScalar fun _ => .bind
      (yields_current (.discard (yields_build (yields_assign.imp ?_))))) _)
    rintro _ s ⟨-, -, rfl⟩
    exact shared_of (h.advance (h.wellFormed.assign h.here v) (Sparable.assign d.name v))
  · refine .bind (yields_within ((shared_lowerIndices scope _ h).imp fun indices w₁ h₁ => ?_) _)
    refine .bind (yields_current (yields_located (yields_within (yields_callBuilder
      (yields_storeElement.imp ?_)) _) _ _))
    rintro _ s ⟨a, -, -, -, rfl⟩
    have haddr := h₁.shares.elementAddress a indices
    exact h₁.trans (shared_of (haddr.advance (haddr.wellFormed.storeAt haddr.here ..)
      (sparable_arithmetic.storeAt ..)))

/-- The end of an `if` merges variables in a new block, which makes phis and no values. -/
theorem shared_closeIf (h : Shares w.current w.builder) {d : BlockDraft}
    {branch : InstId} {slot : Int} (hps : ∀ q ∈ d.parents, 0 ≤ q ∧ q ≤ w.current)
    (hd : ∀ x ∈ d.dominators, x ≤ w.current) :
    Yields (closeIf d branch slot) w fun _ w' => KeepsShared w w' := by
  refine yields_closeIf fun r hr i side c rest hi hop hside hc => ?_
  subst hr
  have hadd := h.addBlock (fun q hq => h.isSome_of_le (hps q hq).1 (hps q hq).2) hd
  have hdefer := hadd.defer ⟨i, hi, hop⟩ side hadd.here
  have hclose := hdefer.advance (hdefer.wellFormed.close rest) (.of_arenas rfl rfl)
  have hmerge := hclose.advance (hclose.wellFormed.reconcileAll hclose.here c.touched)
    (sparable_arithmetic.reconcileAll rfl hclose.wellFormed hclose.here c.touched)
  exact ⟨hmerge.resolveBranches, h.le_addBlock d⟩

theorem shared_openIf (scope : Scope) (kind : JoinKind) (cond : Relation)
    (h : Shares w.current w.builder) :
    Yields (openIf scope kind cond) w fun f w' => KeepsShared w w' ∧ 0 ≤ f.pre ∧
      f.pre ≤ w'.current ∧ ∀ x ∈ f.dominators, x ≤ f.pre := by
  refine yields_openIf ((shared_lowerRelation scope cond h).imp fun branch w₁ h₁ doms hdoms r hr =>
    ?_)
  subst hr hdoms
  have hopen := h₁.shares.openJoin kind
  have hrising := h₁.shares.rising w₁.current
  have hle : w₁.current ≤ (w₁.builder.openJoin kind).blocks.size :=
    hopen.le_addBlock ⟨.thenPart, .none, [], []⟩
  refine ⟨⟨hopen.addBlock (fun q hq => ?_) hrising, Int.le_trans h₁.current hle⟩,
    h₁.shares.nonneg, hle, hrising⟩
  rw [mem_singleton.mp hq]
  exact hopen.here

theorem shared_lowerIfThen (scope : Scope) (cond : Relation) {thenPart : Lower Unit}
    (h : Shares w.current w.builder) (hthen : ∀ {w : Walk}, Shares w.current w.builder →
      Yields thenPart w fun _ w' => KeepsShared w w') :
    Yields (lowerIfThen scope cond thenPart) w fun _ w' => KeepsShared w w' := by
  refine .bind ((shared_openIf scope .ifThen cond h).imp ?_)
  rintro f w₁ ⟨h₁, hpre, hle, hdoms⟩
  refine .bind (yields_within ((hthen h₁.shares).imp fun _ w₂ h₂ => ?_) _)
  have hle₂ := Int.le_trans hle h₂.current
  refine .bind (yields_current ((shared_closeIf h₂.shares (fun q hq => ?_) fun x hx =>
    Int.le_trans (hdoms x hx) hle₂).imp fun _ _ h₃ => (h₁.trans h₂).trans h₃))
  simp only [mem_cons, not_mem_nil, or_false] at hq
  rcases hq with rfl | rfl
  · exact ⟨h₂.shares.nonneg, Int.le_refl _⟩
  · exact ⟨hpre, hle₂⟩

theorem shared_lowerIfElse (scope : Scope) (cond : Relation) {thenPart elsePart : Lower Unit}
    (h : Shares w.current w.builder)
    (hthen : ∀ {w : Walk}, Shares w.current w.builder → Yields thenPart w fun _ w' => KeepsShared w
      w')
    (helse : ∀ {w : Walk}, Shares w.current w.builder → Yields elsePart w fun _ w' => KeepsShared w
      w') :
    Yields (lowerIfElse scope cond thenPart elsePart) w fun _ w' => KeepsShared w w' := by
  refine .bind ((shared_openIf scope .ifElse cond h).imp ?_)
  rintro f w₁ ⟨h₁, hpre, hle, hdoms⟩
  refine .bind (yields_within ((hthen h₁.shares).imp fun _ w₂ h₂ => ?_) _)
  refine .bind (yields_openElse ((shared_emitHere h₂.shares .bra (by decide)).imp
    fun bra w₃ h₃ r hr i hi hop => ?_))
  subst hr
  have h₁₃ := (h₁.trans h₂).trans h₃
  have hle₃ := Int.le_trans hle (Int.le_trans h₂.current h₃.current)
  have hadd := h₃.shares.addBlock (d := { kind := .elsePart, dominators := f.dominators,
                                          parents := [f.pre] })
    (fun q hq => h₃.shares.isSome_of_le (mem_singleton.mp hq ▸ hpre) (mem_singleton.mp hq ▸ hle₃))
    fun x hx => Int.le_trans (hdoms x hx) hle₃
  have hnew := h₃.shares.le_addBlock { kind := .elsePart, dominators := f.dominators,
                                       parents := [f.pre] }
  refine .bind (yields_within ((helse (hadd.defer ⟨i, hi, hop⟩ .y hadd.here)).imp fun _ w₄ h₄ => ?_)
    _)
  have hle₄ := Int.le_trans hnew h₄.current
  refine .bind (yields_current ((shared_closeIf h₄.shares (fun q hq => ?_) fun x hx =>
    Int.le_trans (hdoms x hx) (Int.le_trans hle₃ hle₄)).imp fun _ _ h₅ =>
      ⟨h₅.shares, Int.le_trans h₁₃.current (Int.le_trans hle₄ h₅.current)⟩))
  simp only [mem_cons, not_mem_nil, or_false] at hq
  rcases hq with rfl | rfl
  · exact ⟨h₂.shares.nonneg, Int.le_trans h₃.current hle₄⟩
  · exact ⟨h₄.shares.nonneg, Int.le_refl _⟩

end

mutual

theorem shared_lowerStmt (scope : Scope) : ∀ (st : Stmt) {w : Walk}, st.isLoopFree = true →
    Shares w.current w.builder → Yields (lowerStmt scope st) w fun _ w' => KeepsShared w w'
  | .assign target value _, w, _, h => by
    refine .bind (yields_within ((shared_lowerExpr scope value h).imp fun v w₁ h₁ => ?_) _)
    exact yields_within ((shared_lowerAssign scope target v h₁.shares).imp fun _ _ => h₁.trans) _
  | .call fn args pos, w, _, h =>
    .discard (yields_within (shared_lowerCall h (shared_lowerArgument scope args h)) _)
  | .ifThen cond thenPart _, w, hfree, h =>
    yields_within (shared_lowerIfThen scope cond h fun h => shared_lowerStmts scope
      thenPart hfree h) _
  | .ifElse cond thenPart elsePart _, w, hfree, h => by
    obtain ⟨hthen, helse⟩ := Bool.and_eq_true_iff.mp hfree
    exact yields_within (shared_lowerIfElse scope cond h
      (fun h => shared_lowerStmts scope thenPart hthen h) fun h => shared_lowerStmts scope
      elsePart helse h) _
  | .loop .., _, hfree, _ => absurd hfree Bool.false_ne_true
  | .hole, _, _, _ => .throw trivial

theorem shared_lowerStmts (scope : Scope) : ∀ (sts : List Stmt) {w : Walk}, areLoopFree sts = true →
    Shares w.current w.builder → Yields (lowerStmts scope sts) w fun _ w' => KeepsShared w w'
  | [], w, _, h => .pure (shared_of h)
  | st :: sts, w, hfree, h => by
    obtain ⟨hst, hsts⟩ := Bool.and_eq_true_iff.mp hfree
    refine .bind (yields_within ((shared_lowerStmt scope st hst h).imp fun _ w₁ h₁ => ?_) _)
    exact (shared_lowerStmts scope sts hsts h₁.shares).imp fun _ _ => h₁.trans

end

theorem shared_declareArrays : ∀ (ds : List ArrayDecl) {w : Walk}, Shares w.current w.builder →
    Yields (declareArrays ds) w fun _ w' => KeepsShared w w'
  | [], w, h => .pure (shared_of h)
  | d :: ds, w, h => by
    refine .bind (yields_located (.discard (yields_build (yields_declareArray.imp ?_))) _ _)
    rintro a s ⟨-, -, -, hs⟩
    have hone := shared_of_eq hs (h.advance (h.wellFormed.addArray d.name d.dims)
      (sparable_arithmetic.addArray d.name d.dims))
    exact (shared_declareArrays ds hone.shares).imp fun _ _ => hone.trans

/-! ## Finished programs -/

theorem shares_new (settings : Settings) : Shares startBlock (.new settings) := by
  refine ⟨wellFormed_new settings, rfl, fun b hb => ?_, fun b d hd => ?_, fun {id i} hi => ?_,
    fun {id id' i i'} hi => ?_⟩
  · obtain ⟨blk, hb⟩ := Option.isSome_iff_exists.mp hb
    rcases cases_block?_new hb with ⟨rfl, -⟩ | ⟨rfl, -⟩ <;> decide
  · obtain ⟨blk, hb⟩ := Option.isSome_iff_exists.mp (isSome_block_of_dominatorsOf hd)
    rw [State.dominatorsOf, hb] at hd
    rcases cases_block?_new hb with ⟨rfl, rfl⟩ | ⟨rfl, rfl⟩ <;>
      simp only [Option.map_some, Option.getD_some, mem_cons, not_mem_nil, or_false] at hd
    · exact Int.le_of_eq hd
    · rcases hd with rfl | rfl <;> decide
  · rw [inst?_new] at hi
    cases hi
  · rw [inst?_new] at hi
    cases hi

/-- The state that a program without loops is finished from. -/
theorem shares_of_lower {settings : Settings} {c : Computation} {p : Program}
    (h : lower settings c = .ok p) (hfree : areLoopFree c.body = true) : ∃ b t, Shares b t ∧
    p.Holds t := by
  obtain ⟨w₁, w₂, w₃, e, h₁, h₂, h₃, rfl⟩ := lower_ok h
  have harrays := shared_declareArrays c.arrays (w := { builder := .new settings })
    (shares_new settings) _ _ h₁
  have hbody := (shared_lowerStmts _ c.body hfree harrays.shares _ _ h₂).shares
  obtain ⟨v, s, hs, -, hbuilder, hinsts, hblocks, -⟩ := yields_endProgram _ _ h₃
  have hhalt := (shared_of_eq hs (hbody.advance (hbody.wellFormed.emitEffect hbody.here .halt {} {}
    rfl (by decide)).1
    (sparable_arithmetic.emitEffect rfl {} {}))).shares
  have hend := hhalt.resolveBranches
  refine ⟨w₂.current, w₃.builder, ?_, hinsts, hblocks⟩
  rw [hbuilder]
  exact hend.advance ((Advances.refl hend.wellFormed).report _) (.of_arenas rfl rfl)

/-- Common subexpressions are eliminated: in the program of a computation without loops, two active
instructions with the same operation on the same operands, in either order if that does not matter,
are one, if the block of one dominates that of the other. -/
theorem lower_shares {settings : Settings} {c : Computation} {p : Program}
    (hfree : areLoopFree c.body = true) (h : lower settings c = .ok p) {i j : Instruction}
    (hi : i ∈ p.active) (hj : j ∈ p.active) (hkind : i.op = .const ∨ i.op.isArithmetic = true)
    (hop : j.op = i.op) (hxy : Repair.hasOperands i j.x j.y = true) {blk : Block}
    (hblk : p.block? j.block = some blk) (hdom : i.block ∈ blk.dominators) : i = j := by
  obtain ⟨b, t, ht, hp⟩ := shares_of_lower h hfree
  obtain ⟨id, hid⟩ := hp.inst?_of_active hi
  obtain ⟨id', hid'⟩ := hp.inst?_of_active hj
  have hsame : id = id' := by
    rcases hkind with hconst | harith
    · rw [hasOperands_iff, hconst] at hxy
      refine ht.wellFormed.known.const_inj hid hid' hconst (hop.trans hconst) ?_
      exact hxy.elim (·.1) fun h => by cases h.1
    · refine ht.apart hid hid' harith hop hxy ?_
      rwa [State.dominatorsOf, ← hp.block?_eq, hblk]
  subst hsame
  exact Option.some.inj (hid.symm.trans hid')

/-- A sum before an `if`, in its part and behind it, with its operands in both orders. -/
def sumAgain : Computation where
  vars := []
  arrays := []
  body :=
    let x : Expr := .element "x" [] .start
    let set (name : String) (e : Expr) : Stmt := .assign ⟨name, [], .start⟩ e .start
    [set "x" (.call .inputNum [] .start), set "y" (.binary .add x (.num 1)),
      .ifThen ⟨.less, x, .num 3⟩ [set "y" (.binary .add (.num 1) x)] .start,
      set "z" (.binary .add x (.num 1))]

theorem lower_shares_sumAgain : ∃ p i, lower {} sumAgain = .ok p ∧ i ∈ p.active ∧
    i.op = .add ∧ i.block = 1 ∧ ∀ j ∈ p.active, j.op = .add → Repair.hasOperands i j.x j.y = true →
      (p.block? j.block).any (·.dominators.contains 1) = true → i = j := by
  have hany : (lower {} sumAgain).toOption.any (fun p => p.active.any fun i => i.op == .add &&
    i.block == 1) = true := by
    decide +kernel
  cases hp : lower {} sumAgain with
  | error r => simp [hp, Except.toOption] at hany
  | ok p =>
    simp only [hp, Except.toOption, Option.any_some, any_eq_true, Bool.and_eq_true,
      beq_iff_eq] at hany
    obtain ⟨i, hi, hop, hblock⟩ := hany
    refine ⟨p, i, rfl, hi, hop, hblock, fun j hj hopj hxy hdom => ?_⟩
    rw [Option.any_eq_true] at hdom
    obtain ⟨blk, hblk, hdom⟩ := hdom
    exact lower_shares rfl hp hi hj (.inr (hop ▸ rfl)) (hopj.trans hop.symm) hxy hblk
      (hblock ▸ contains_iff_mem.mp hdom)

end Lowering

end SingleAssignment
