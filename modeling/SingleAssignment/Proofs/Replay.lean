import Mathlib.Data.List.Perm.Subperm
import SingleAssignment.Proofs.StepInvariant
import SingleAssignment.Proofs.AddsCode

/-!
# What a repair keeps

A repair puts code in the middle of blocks, where other code was built after. It still only adds
code (`Laid.repairLoop`): what is replayed at a slot carries no other memory tags than the slot
does, so the order of memory is kept wherever it is put (`Repair.adding`). This holds of every
repair, also of one that gives up.
-/

namespace SingleAssignment.Builder

open Code List State

/-- The slot that a place is attached to. -/
def Anchor.slot? : Anchor → Option Slot
  | .inst id => some (.inst id)
  | .mark v => some (.mark v)
  | .blockEnd => none

/-- A place is at a slot that carries the given tags and is no phi and no head. -/
def Place.Carries (floor : BlockId) (s : State) (p : Place) (ts : List MemoryTag) : Prop :=
  ∃ x, p.anchor.slot? = some x ∧ x ∈ s.view.code p.block ∧ s.view.isLead x = false ∧
    ∀ t ∈ ts, t ∈ s.view.tagsAt floor x

namespace View

variable {V V' : View} {floor b b₀ : BlockId} {x : Slot}

theorem Layout.holds (h : V.Layout floor) (hx : x ∈ V.code b) : V.Holds x := by
  cases x with
  | inst id =>
    obtain ⟨i, hi, -⟩ := h.owner hx
    exact ⟨i, hi⟩
  | mark v =>
    obtain ⟨ver, hv, -⟩ := h.marked hx
    exact ⟨ver, hv⟩

theorem Grows.isLead_eq (g : Grows b₀ V V') (hx : V.Holds x) : V'.isLead x = V.isLead x := by
  cases x with
  | inst id =>
    obtain ⟨i, hi⟩ := hx
    obtain ⟨i', hi', hop, -⟩ := g.inst hi
    simp only [isLead, hi, hi', Option.any_some, hop]
  | mark v =>
    obtain ⟨ver, hv⟩ := hx
    obtain ⟨ver', hv', -, -, hhead⟩ := g.version hv
    simp only [isLead, hv, hv', Option.any_some, hhead]

end View

namespace State

variable {s : State} {b : BlockId} {x : Slot}

/-- What is before a slot of the code and behind it. -/
theorem code_idxOf (hx : x ∈ s.view.code b) :
    s.codeFrom b ((s.timelineOf b).idxOf x) = x :: s.codeFrom b ((s.timelineOf b).idxOf x + 1) ∧
    s.codeBefore b ((s.timelineOf b).idxOf x + 1) =
      s.codeBefore b ((s.timelineOf b).idxOf x) ++ [x] := by
  obtain ⟨hmem, hcode⟩ := mem_filter.mp hx
  have hlt := idxOf_lt_length_iff.mpr hmem
  have hget : (s.timelineOf b)[(s.timelineOf b).idxOf x] = x := getElem_idxOf hlt
  unfold codeFrom codeBefore
  constructor
  · rw [drop_eq_getElem_cons hlt, hget, filter_cons_of_pos hcode]
  · rw [← take_append_getElem hlt, hget, filter_append, filter_cons_of_pos hcode, filter_nil]

end State

namespace Place.Carries

variable {floor : BlockId} {s t : State} {p : Place} {ts ts' : List MemoryTag}

theorem mono (h : p.Carries floor s ts) (hs : Laid floor s) (hw : AddsCode floor s t) :
    p.Carries floor t ts := by
  obtain ⟨x, hx, hmem, hlead, hts⟩ := h
  have hholds := hs.layout.holds hmem
  refine ⟨x, hx, ((hw.grows 0).code p.block).mem hmem, ?_, fun m hm => ?_⟩
  · rw [(hw.grows 0).isLead_eq hholds, hlead]
  · rw [hw.keeps.tagsAt_eq (hw.grows 0) hholds hlead]
    exact hts m hm

theorem weaken (h : p.Carries floor s ts) (hsub : ∀ t ∈ ts', t ∈ ts) : p.Carries floor s ts' := by
  obtain ⟨x, hx, hmem, hlead, hts⟩ := h
  exact ⟨x, hx, hmem, hlead, fun m hm => hts m (hsub m hm)⟩

/-- Right before the slot of a place and right behind it there may be what carries no other tags. -/
theorem admits (h : p.Carries floor s ts) (hs : Laid floor s) :
    s.view.Admits p.block (s.codeBefore p.block (p.position s)) (s.codeFrom p.block (p.position s))
      ts ∧
    s.view.Admits p.block (s.codeBefore p.block (p.position s + 1))
      (s.codeFrom p.block (p.position s + 1)) ts := by
  obtain ⟨x, hx, hmem, hlead, hts⟩ := h
  have hpos : p.position s = (s.timelineOf p.block).idxOf x := by
    obtain ⟨b, anchor⟩ := p
    cases anchor <;> cases hx <;> rfl
  obtain ⟨hfrom, hbefore⟩ := code_idxOf hmem
  have hcode := (s.codeBefore_append_codeFrom p.block ((s.timelineOf p.block).idxOf x)).symm
  rw [hfrom] at hcode
  rw [hpos, hfrom, hbefore]
  exact hs.layout.admits_site hcode hlead hts

theorem valid (h : p.Carries floor s ts) (hs : Laid floor s) : (s.view.graph p.block).isSome := by
  obtain ⟨x, -, hmem, -⟩ := h
  exact hs.layout.mem_block hmem

end Place.Carries

namespace Repair

variable {floor : BlockId} {r r' : Repair} {loop : List BlockId} {p : Place}

/-- A version that is replayed carries the tags of its provenance. -/
theorem carries_mark (h : Laid floor r.base) {v : VersionId} {ver : Version}
    (hver : r.base.versions[v]? = some ver) (hhead : ver.isHead = false) (hb : floor ≤ ver.block) :
    Place.Carries floor r.base ⟨ver.block, .mark v⟩ (tagsOf ver.src) := by
  have hview : r.base.view.versions v = some { ver with history := [] } := by
    simp [State.view, hver]
  refine ⟨.mark v, rfl, (h.layout.listedMark hview).1, ?_, fun t ht => ?_⟩
  · simp [View.isLead, hview, hhead]
  · simpa [View.tagsAt, hview, hhead, hb] using ht

/-- An instruction other than a phi carries its own tags. -/
theorem carries_inst (h : Laid floor r.base) {id : InstId} {i : Instruction}
    (hi : r.base.inst? id = some i) (hempty : i.op ≠ .empty) (hphi : i.op ≠ .phi) :
    Place.Carries floor r.base ⟨i.block, .inst id⟩ (instTags i) := by
  have hview := view_of_inst? hi hempty
  refine ⟨.inst id, rfl, (h.layout.listed hview).2.1, ?_, fun t ht => ?_⟩
  · simpa [View.isLead, hview, face] using hphi
  · simpa [View.tagsAt, hview, instTags, face] using ht

theorem supersede_works (h : Laid floor r.base) {i : Instruction} {x y : Operand}
    (hop : i.op.isNumbered = true) (hmem : i.op = .load → i.memory.isSome)
    (hp : p.Carries floor r.base (instTags i)) :
    AddsCode floor r.base (supersede i x y p r).base := by
  unfold supersede
  dsimp only
  split
  · exact .refl h
  · let d : State.Draft := { op := i.op, x := x, y := y, srcX := i.srcX, srcY := i.srcY }
    refine h.placeNumbered (d := d) (hp.valid h) hop ((hp.weaken fun t ht => ?_).admits h).2
    rcases mem_append.mp ht with ht | ht
    · exact mem_append_left _ ht
    · refine mem_append_right _ ?_
      split at ht
      · rename_i hl
        obtain ⟨tag, htag⟩ := Option.isSome_iff_exists.mp (hmem hl)
        rw [htag, Option.getD_some] at ht
        rw [if_pos (show i.op = .load from hl), htag]
        exact ht
      · cases ht

/-- The operands of an instruction with an effect change where they stand. -/
theorem setOperands_works (hw : AddsCode floor r.base r'.base) {id : InstId} {i : Instruction}
    (hi : r.base.inst? id = some i) (hop : i.op.isNumbered = false) (hempty : i.op ≠ .empty)
    (x y : Operand) :
    AddsCode floor r'.base (r'.base.modifyInst id fun i => { i with x := x, y := y }) := by
  refine hw.laid.modifyInst (fun _ => rfl) (fun _ => rfl) (fun _ => rfl) (fun _ => rfl)
    (fun i' hi' hnum => ?_) (fun _ _ ht => ht) fun _ _ _ => ⟨rfl, rfl⟩
  obtain ⟨i₀, hi₀, hop₀, -⟩ := (hw.grows 0).inst (view_of_inst? hi hempty)
  obtain ⟨i₁, hi₁, -, rfl⟩ := inst?_of_view hi₀
  cases hi'.symm.trans hi₁
  have hop₀ : i'.op = i.op := hop₀
  rw [hop₀, hop] at hnum
  exact (hnum.elim (fun hnum => by cases hnum) hempty).elim

theorem rebind_works (h : Laid floor r.base) (v : VersionId) (id : InstId) :
    AddsCode floor r.base (r.rebind v id).base := by
  unfold rebind
  split
  · exact .refl h
  · dsimp only
    have hm := fun history : List InstId => h.modifyVersion (v := v)
      (f := fun ver => { ver with history := history, inst := id }) (fun _ => rfl) (fun _ => rfl)
      (fun _ => rfl) fun _ _ => ⟨.inl rfl, .inr (.inr rfl)⟩
    split
    · exact hm _
    · exact (hm _).trans ((hm _).laid.depend v)

/-- An empty instruction has no operands. -/
theorem ne_empty_of_operands (h : Laid floor r.base) {id : InstId} {i : Instruction}
    (hi : r.base.inst? id = some i) (hsome : ¬(i.x = .none ∧ i.y = .none)) : i.op ≠ .empty := by
  intro hempty
  have hblank := h.timelines.blank hi hempty
  simp only [content, Prod.mk.injEq] at hblank
  exact hsome ⟨hblank.2.1, hblank.2.2⟩

/-- A repair only adds code. -/
def adding (hloop : ∀ b ∈ loop, floor ≤ b) : StepInvariant loop where
  Holds r := Laid floor r.base
  Leads r r' := AddsCode floor r.base r'.base
  Site s p ts := p.Carries floor s ts
  Known _ _ := True
  Within _ := True
  Merges s j _ _ := (s.view.graph j).isSome
  Own _ _ := True
  naming := .all
  refl h := .refl h
  trans hw hw' := hw.trans hw'
  holds _ hw := hw.laid
  site_mono h hw hp := hp.mono h hw
  site_weaken hp hsub := hp.weaken hsub
  site_mark h hver hhead hb := carries_mark h hver hhead (hloop _ hb)
  site_inst h hi hphi hsome _ := carries_inst h hi (ne_empty_of_operands h hi hsome) hphi
  within _ _ _ _ _ := trivial
  remember h _ := .refl h
  forget h := .refl h
  const h n := ⟨h.const n, trivial⟩
  number h hop _ hp _ := ⟨h.number (hp.valid h) hop (hp.admits h).1, trivial⟩
  supersede h hw hi _ hop _ hp _ _ := supersede_works hw.laid hop (fun hl => by
    simpa [face] using h.layout.memory (view_of_inst? hi (ne_empty_of_isNumbered hop)) hl) hp
  setOperands h hw hi hop hsome _ _ := setOperands_works hw hi hop (ne_empty_of_operands h hi hsome)
    _ _
  merges _ _ hblk _ _ hw := hw.isSome (isSome_view_graph.mpr ⟨_, hblk⟩)
  merges_mono _ hw hj := hw.isSome hj
  read h _ _ := ⟨(h.readAtEnd _ none).1, trivial, fun _ _ => trivial⟩
  merge h hj hx hy _ _ above := by
    rw [base_note]
    exact h.merge hj hx hy
  own _ _ _ _ := trivial
  rebind h _ _ := rebind_works h _ _
  outside _ _ _ _ _ hw _ hw' := rebind_works hw'.laid _ _
  retire h _ := h.retire _

end Repair

namespace State

variable {s : State} {F : BlockId}

theorem mem_newChildren {seen : List BlockId} {b c : BlockId} (hc : c ∈ s.newChildren seen b) :
    c ∈ s.view.children b := by
  have key : ∀ (l new : List BlockId), c ∈ l.foldl
      (fun new c => if seen.contains c || new.contains c then new else new ++ [c]) new →
      c ∈ new ∨ c ∈ l := by
    intro l
    induction l with
    | nil => exact fun new h => .inl h
    | cons a l ih =>
      intro new h
      rcases ih _ h with h | h
      · dsimp only at h
        split at h
        · exact .inl h
        · rcases mem_append.mp h with h | h
          · exact .inl h
          · exact .inr (mem_singleton.mp h ▸ mem_cons_self ..)
      · exact .inr (mem_cons_of_mem _ h)
  rcases key _ _ hc with h | h
  · cases h
  · simpa [View.children, view, Block.shape, Function.comp_def] using h

theorem mem_reachFrom {P : BlockId → Prop} (hP : ∀ b c, P b → c ∈ s.view.children b → P c)
    (fuel : Nat) (seen queue : List BlockId) (hq : ∀ b ∈ queue, P b) :
    ∀ b ∈ s.reachFrom fuel seen queue, P b := by
  induction fuel generalizing seen queue with
  | zero => exact fun b hb => (nomatch hb)
  | succ fuel ih =>
    cases queue with
    | nil => exact fun b hb => (nomatch hb)
    | cons b queue =>
      have hb := hq b (mem_cons_self ..)
      intro c hc
      rcases mem_cons.mp hc with rfl | hc
      · exact hb
      · refine ih _ _ (fun d hd => ?_) c hc
        rcases mem_append.mp hd with hd | hd
        · exact hq d (mem_cons_of_mem _ hd)
        · exact hP b d hb (mem_newChildren hd)

/-- With its new children, what was seen has all children of a block, and nothing twice. -/
theorem seen_newChildren {seen : List BlockId} (hseen : seen.Nodup) (b : BlockId) :
    (seen ++ s.newChildren seen b).Nodup ∧ ∀ c ∈ s.view.children b, c ∈ seen ++
    s.newChildren seen b := by
  have key : ∀ (l new : List BlockId), (seen ++ new).Nodup → ∀ new', l.foldl
      (fun new c => if seen.contains c || new.contains c then new else new ++ [c]) new = new' →
      (seen ++ new').Nodup ∧ new ⊆ new' ∧ ∀ c ∈ l, c ∈ seen ++ new' := by
    intro l
    induction l with
    | nil =>
      rintro new hnew _ rfl
      exact ⟨hnew, fun _ hc => hc, fun _ hc => by cases hc⟩
    | cons a l ih =>
      intro new hnew new' hfold
      rw [foldl_cons] at hfold
      split at hfold
      · rename_i hold
        obtain ⟨hnodup, hsub, hl⟩ := ih new hnew new' hfold
        refine ⟨hnodup, hsub, forall_mem_cons.mpr ⟨?_, hl⟩⟩
        rw [Bool.or_eq_true, contains_iff_mem, contains_iff_mem] at hold
        exact mem_append.mpr (hold.imp_right fun hmem => hsub hmem)
      · rename_i hfresh
        rw [Bool.or_eq_true, contains_iff_mem, contains_iff_mem, ← mem_append] at hfresh
        have hadd : (seen ++ (new ++ [a])).Nodup := by
          rw [← append_assoc, nodup_append]
          exact ⟨hnew, by simp, fun x hx y hy he => hfresh (mem_singleton.mp hy ▸ he ▸ hx)⟩
        obtain ⟨hnodup, hsub, hl⟩ := ih _ hadd new' hfold
        refine ⟨hnodup, fun c hc => hsub (mem_append_left _ hc), forall_mem_cons.mpr ⟨?_, hl⟩⟩
        exact mem_append_right _ (hsub (mem_append_right _ (mem_singleton_self a)))
  obtain ⟨hnodup, -, hall⟩ := key _ [] (by simpa using hseen) _ rfl
  refine ⟨hnodup, fun c hc => hall c ?_⟩
  simpa [View.children, view, Block.shape, Function.comp_def] using hc

/-- What is reached holds the queue and, with what was seen, all that edges lead to: the fuel is
enough, since a block is seen once. -/
theorem reachFrom_closed (hg : s.view.Graph) (fuel : Nat) {seen queue : List BlockId}
    (hseen : seen.Nodup) (hvalid : ∀ b ∈ seen, (s.view.graph b).isSome) (hqueue : queue ⊆ seen)
    (hfuel : s.blocks.size + queue.length ≤ seen.length + fuel)
    (hdone : ∀ b ∈ seen, b ∈ queue ∨ ∀ c ∈ s.view.children b, c ∈ seen) :
    queue ⊆ s.reachFrom fuel seen queue ∧ ∀ b, b ∈ seen ∨ b ∈ s.reachFrom fuel seen queue →
      ∀ c ∈ s.view.children b, c ∈ seen ∨ c ∈ s.reachFrom fuel seen queue := by
  induction fuel generalizing seen queue with
  | zero =>
    have hall : seen ⊆ (List.range s.blocks.size).map Int.ofNat := fun b hb => by
      obtain ⟨hpos, hlt⟩ := (hg.valid b).mp (hvalid b hb)
      exact mem_map.mpr ⟨b.toNat, mem_range.mpr (by simp only [view] at hlt; lia),
        Int.toNat_of_nonneg hpos⟩
    have hlength := (hseen.subperm hall).length_le
    rw [length_map, length_range] at hlength
    cases eq_nil_of_length_eq_zero (show queue.length = 0 by lia)
    simpa [reachFrom] using hdone
  | succ fuel ih =>
    cases queue with
    | nil => simpa [reachFrom] using hdone
    | cons b queue =>
      obtain ⟨hnodup, hchildren⟩ := seen_newChildren (s := s) hseen b
      have hnew : ∀ c ∈ s.newChildren seen b, (s.view.graph c).isSome :=
        fun c hc => (hg.edge (mem_newChildren hc)).1
      rw [reachFrom]
      generalize s.newChildren seen b = new at *
      obtain ⟨hq, hclosed⟩ := @ih (seen ++ new) (queue ++ new) hnodup (by grind) (by grind)
        (by simp only [length_append, length_cons] at *; lia) (by grind)
      grind

/-- From a block all is reached that edges lead to. -/
theorem reach_closed (hg : s.view.Graph) {b : BlockId} (hb : (s.view.graph b).isSome) :
    b ∈ s.reach b ∧ ∀ p ∈ s.reach b, ∀ c ∈ s.view.children p, c ∈ s.reach b := by
  obtain ⟨hq, hclosed⟩ := @reachFrom_closed s hg s.blocks.size [b] [b] (by simp)
    (fun _ hc => mem_singleton.mp hc ▸ hb) (List.Subset.refl _) (Nat.le_of_eq (Nat.add_comm ..))
    fun c hc => .inl hc
  have hmem : b ∈ s.reach b := hq (mem_singleton_self b)
  refine ⟨hmem, fun p hp c hc => (hclosed p (.inr hp) c hc).elim (fun hc => ?_) fun hc => hc⟩
  exact mem_singleton.mp hc ▸ hmem

end State

/-- A repair only adds code, if no edge leaves the blocks whose versions may be replayed. -/
theorem Laid.repairLoop {floor header : BlockId} {s : State} (h : Laid floor s)
    (hheader : floor ≤ header) (hclosed : ∀ b c, floor ≤ b → c ∈ s.view.children b → floor ≤ c) :
    AddsCode floor s (s.repairLoop header) :=
  have hloop : ∀ b ∈ s.reach header, floor ≤ b :=
    mem_reachFrom hclosed _ _ _ fun _ hb => mem_singleton.mp hb ▸ hheader
  (Repair.adding hloop).run (r := { base := s }) (fun _ e h => h.report e) .listed header h

end SingleAssignment.Builder
