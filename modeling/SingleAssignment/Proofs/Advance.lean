import SingleAssignment.Proofs.Reckoning
import SingleAssignment.Proofs.WellFormed

/-!
# Work in well-formed states

Every operation of a builder on the blocks there are leaves a well-formed state well-formed
(`Advances`). An operation is a sequence of few kinds of changes: an instruction is placed, a fact
of an instruction or a version is changed, a version is added, or books are kept. What each kind
needs is said once here; the operations then only have to keep to it.
-/

namespace SingleAssignment.Builder

open Code List
open Option (bind_eq_some_iff getD_some isSome_iff_exists map_eq_some_iff map_some)

/-! ## Changing an instruction or a version -/

/-- An instruction is changed where it may be: no value number depends on the change. -/
structure Edits (i i' : Instruction) : Prop where
  id : i'.id = i.id
  op : i'.op = i.op
  block : i'.block = i.block
  operands : i.op.isNumbered = true → i'.x = i.x ∧ i'.y = i.y
  sources : i.op.isNumbered = true → i'.srcX = i.srcX ∧ i'.srcY = i.srcY
  retired : i.op.isNumbered = true → i'.active = true → i.active = true
  lasting : i.op = .const ∨ i.op.isNumbered = false ∧ i.op ≠ .phi ∧ i.op ≠ .empty →
    i'.active = i.active
  blank : i.op = .empty → (IsBlank i' ↔ IsBlank i)

/-- What is known about an instruction besides its code. -/
theorem Edits.note (i : Instruction) (deps : List VersionRef) (memory : Option MemoryTag) :
    Edits i { i with deps := deps, memory := memory } :=
  ⟨rfl, rfl, rfl, fun _ => ⟨rfl, rfl⟩, fun _ => ⟨rfl, rfl⟩, fun _ h => h, fun _ => rfl,
      fun _ => .rfl⟩

theorem Edits.refl (i : Instruction) : Edits i i :=
  .note i i.deps i.memory

theorem Edits.outlives {i i' : Instruction} (h : Edits i i') : Outlives i i' :=
  ⟨h.block, h.operands, h.sources, h.retired, fun hnum hphi hempty => h.lasting
    (.inr ⟨hnum, hphi, hempty⟩), .inl ⟨h.op, fun he => (h.blank he).mp⟩⟩

/-- A version is changed where it may be: it may stand for another instruction. While the first
block with code is entered once, version 0 stays a constant. -/
structure Rebinds (s : State) (a a' : Version) : Prop where
  var : a'.var = a.var
  number : a'.number = a.number
  block : a'.block = a.block
  isHead : a'.isHead = a.isHead
  phi : ∀ id, a'.phi = some id → a.phi = some id ∨ ∃ i, s.inst? id = some i ∧ i.op = .phi
  zero : s.Fenced → a.number = 0 → s.IsConst a.inst → s.IsConst a'.inst

theorem Rebinds.refl (s : State) (a : Version) : Rebinds s a a :=
  ⟨rfl, rfl, rfl, rfl, fun _ h => .inl h, fun _ _ h => h⟩

/-- What related entries have in common can be read off either. -/
theorem map_eq_of_related {α β : Type} {R : α → α → Prop} {o o' : Option α}
    (hfrom : ∀ {a'}, o' = some a' → ∃ a, o = some a ∧ R a a')
    (hto : ∀ {a}, o = some a → ∃ a', o' = some a' ∧ R a a') {g : α → β}
    (hg : ∀ a a', R a a' → g a' = g a) : o'.map g = o.map g := by
  cases o with
  | none =>
    cases o' with
    | none => rfl
    | some a' =>
      obtain ⟨a, ha, -⟩ := hfrom rfl
      cases ha
  | some a =>
    obtain ⟨a', rfl, ha⟩ := hto rfl
    rw [map_some, map_some, hg a a' ha]

section ModifyInst

variable {s : State} {id : InstId} {f : Instruction → Instruction}
    (hf : ∀ i, s.inst? id = some i → Edits i (f i))

open State

include hf

theorem edits_of_modifyInst {id' : InstId} {i' : Instruction}
    (hi' : (s.modifyInst id f).inst? id' = some i') : ∃ i, s.inst? id' = some i ∧ Edits i i' := by
  rw [inst?_modifyInst] at hi'
  split at hi'
  · rename_i he
    obtain ⟨i, hi, rfl⟩ := map_eq_some_iff.mp hi'
    exact ⟨i, he ▸ hi, hf i hi⟩
  · exact ⟨i', hi', .refl i'⟩

theorem exists_edits_modifyInst {id' : InstId} {i : Instruction} (hi : s.inst? id' = some i) :
    ∃ i', (s.modifyInst id f).inst? id' = some i' ∧ Edits i i' := by
  rw [inst?_modifyInst]
  split
  · rename_i he
    subst he
    exact ⟨f i, by rw [hi]; rfl, hf i hi⟩
  · exact ⟨i, hi, .refl i⟩

theorem Listed.modifyInst (h : Listed s) : Listed (s.modifyInst id f) := by
  have hmap : ∀ {α : Type} (g : Instruction → α), (∀ i i', Edits i i' → g i' = g i) → ∀ id',
      ((s.modifyInst id f).inst? id').map g = (s.inst? id').map g := fun g hg id' =>
    map_eq_of_related (edits_of_modifyInst hf) (exists_edits_modifyInst hf) hg
  refine h.congr (fun {id' i'} hi' => ?_) (timelineOf_modifyInst s id f) (fun x => ?_) (fun x => ?_)
    (h.tabled.congr (filing_modifyInst s id f) fun v => by rw [versions_modifyInst])
  · obtain ⟨i, hi, he⟩ := edits_of_modifyInst hf hi'
    exact he.id.trans (h.id_eq hi)
  · cases x with
    | inst id' => exact hmap (·.block) (fun _ _ he => he.block) id'
    | mark v => simp only [ownerOf, versions_modifyInst]
  · cases x with
    | inst id' =>
      have hop := congrArg (·.any (· == .phi)) (hmap (·.op) (fun _ _ he => he.op) id')
      simpa [isLead, Option.any_map, Function.comp_def] using hop
    | mark v => simp only [isLead, versions_modifyInst]

theorem Known.modifyInst (h : Known s) : Known (s.modifyInst id f) where
  entry := fun {b e} he hop => by
    rw [entriesOf_modifyInst] at he
    obtain ⟨i, hi, hblock, hopi, hnum, hx, hy⟩ := h.entry he hop
    obtain ⟨i', hi', hedit⟩ := exists_edits_modifyInst hf hi
    obtain ⟨hx', hy'⟩ := hedit.operands (hopi ▸ hnum)
    exact ⟨i', hi', hedit.block.trans hblock, hedit.op.trans hopi, hnum, hx'.trans hx, hy'.trans hy⟩
  const := fun {id' i'} hi' hc => by
    obtain ⟨i, hi, hedit⟩ := edits_of_modifyInst hf hi'
    have hc₀ := hedit.op.symm.trans hc
    obtain ⟨hblock, hactive, n, hn, e, he, hop, hid, hx⟩ := h.const hi hc₀
    obtain ⟨hx', -⟩ := hedit.operands (by rw [hc₀]; rfl)
    refine ⟨hedit.block.trans hblock, (hedit.lasting (.inl hc₀)).trans hactive, n, hx'.trans hn,
      e, ?_, hop, hid, hx.trans hx'.symm⟩
    rwa [entriesOf_modifyInst]
  const_inj := fun {id₁ id₂ i₁ i₂} h₁ h₂ hc₁ hc₂ hx => by
    obtain ⟨j₁, hj₁, he₁⟩ := edits_of_modifyInst hf h₁
    obtain ⟨j₂, hj₂, he₂⟩ := edits_of_modifyInst hf h₂
    have hc₁' := he₁.op.symm.trans hc₁
    have hc₂' := he₂.op.symm.trans hc₂
    refine h.const_inj hj₁ hj₂ hc₁' hc₂' ?_
    rw [← (he₁.operands (by rw [hc₁']; rfl)).1, ← (he₂.operands (by rw [hc₂']; rfl)).1, hx]
  holder := fun {b p} hp => by
    rw [holderOf, block?_modifyInst] at hp
    obtain ⟨i, hi, hblock, hblank⟩ := h.holder hp
    obtain ⟨i', hi', hedit⟩ := exists_edits_modifyInst hf hi
    refine ⟨i', hi', hedit.block.trans hblock, fun he => ?_⟩
    have he₀ := hedit.op.symm.trans he
    exact (hedit.blank he₀).mpr (hblank he₀)
  deferral := fun d hd => by
    rw [deferrals_modifyInst] at hd
    obtain ⟨hb, i, hi, hop⟩ := h.deferral d hd
    obtain ⟨i', hi', hedit⟩ := exists_edits_modifyInst hf hi
    exact ⟨by rwa [block?_modifyInst], i', hi', hedit.op ▸ hop⟩

end ModifyInst

open State in
theorem WellFormed.modifyInst {s : State} (h : WellFormed s) {id : InstId}
    {f : Instruction → Instruction} (hf : ∀ i, s.inst? id = some i → Edits i (f i)) :
    Advances s (s.modifyInst id f) := by
  have hgraph : ∀ b, ((s.modifyInst id f).block? b).map Block.shape = (s.block? b).map
    Block.shape := by
    intro b
    rw [block?_modifyInst]
  have houtlives : ∀ {id' i}, s.inst? id' = some i →
      ∃ i', (s.modifyInst id f).inst? id' = some i' ∧ Outlives i i' := by
    intro id' i hi
    obtain ⟨i', hi', he⟩ := exists_edits_modifyInst hf hi
    exact ⟨i', hi', he.outlives⟩
  have hversioned := h.versioned.mono (versions_modifyInst s id f) (.congr hgraph) houtlives
  exact ⟨⟨h.wired.congr hgraph, h.listed.modifyInst hf, hversioned, h.known.modifyInst hf⟩,
    hgraph, houtlives, fun {_ a} ha => ⟨a, by rwa [versions_modifyInst], rfl, rfl, rfl, rfl⟩⟩

section ModifyVersion

variable {s : State} {v : VersionId} {f : Version → Version}
    (hf : ∀ a, s.versions[v]? = some a → Rebinds s a (f a))

open State

include hf

theorem rebinds_of_modifyVersion {w : VersionId} {a' : Version}
    (ha' : (s.modifyVersion v f).versions[w]? = some a') :
    ∃ a, s.versions[w]? = some a ∧ Rebinds s a a' := by
  simp only [State.modifyVersion, Array.getElem?_modify] at ha'
  split at ha'
  · rename_i he
    obtain ⟨a, ha, rfl⟩ := map_eq_some_iff.mp ha'
    exact ⟨a, ha, hf a (he ▸ ha)⟩
  · exact ⟨a', ha', .refl s a'⟩

theorem exists_rebinds_modifyVersion {w : VersionId} {a : Version} (ha : s.versions[w]? = some a) :
    ∃ a', (s.modifyVersion v f).versions[w]? = some a' ∧ Rebinds s a a' := by
  simp only [State.modifyVersion, Array.getElem?_modify]
  split
  · rename_i he
    exact ⟨f a, by rw [ha]; rfl, hf a (he ▸ ha)⟩
  · exact ⟨a, ha, .refl s a⟩

theorem Listed.modifyVersion (h : Listed s) : Listed (s.modifyVersion v f) := by
  have hmap : ∀ {α : Type} (g : Version → α), (∀ a a', Rebinds s a a' → g a' = g a) →
    ∀ w : VersionId, ((s.modifyVersion v f).versions[w]?).map g = (s.versions[w]?).map g :=
    fun g hg w =>
    map_eq_of_related (rebinds_of_modifyVersion hf) (exists_rebinds_modifyVersion hf) hg
  refine h.congr h.id_eq (fun _ => rfl) (fun x => ?_) (fun x => ?_)
    (h.tabled.congr (fun _ => rfl) (hmap (·.var) fun _ _ he => he.var))
  · cases x with
    | inst id => rfl
    | mark w => exact hmap (·.block) (fun _ _ he => he.block) w
  · cases x with
    | inst id => rfl
    | mark w =>
      have hhead := congrArg (·.any id) (hmap (·.isHead) (fun _ _ he => he.isHead) w)
      simpa [isLead, Option.any_map, Function.comp_def] using hhead

theorem Versioned.modifyVersion (h : Versioned s) : Versioned (s.modifyVersion v f) where
  head := fun ha hc hha hhc hblock hvar => by
    obtain ⟨a₀, ha₀, hra⟩ := rebinds_of_modifyVersion hf ha
    obtain ⟨c₀, hc₀, hrc⟩ := rebinds_of_modifyVersion hf hc
    refine h.head ha₀ hc₀ (hra.isHead ▸ hha) (hrc.isHead ▸ hhc) ?_ ?_
    · rw [← hra.block, ← hrc.block, hblock]
    · rw [← hra.var, ← hrc.var, hvar]
  number := fun ha hc hblock hvar hnumber => by
    obtain ⟨a₀, ha₀, hra⟩ := rebinds_of_modifyVersion hf ha
    obtain ⟨c₀, hc₀, hrc⟩ := rebinds_of_modifyVersion hf hc
    rw [hra.number]
    refine h.number ha₀ hc₀ ?_ ?_ ?_
    · rw [← hra.block, ← hrc.block, hblock]
    · rw [← hra.var, ← hrc.var, hvar]
    · rw [← hra.number, ← hrc.number, hnumber]
  least := fun ha => by
    obtain ⟨a₀, ha₀, hra⟩ := rebinds_of_modifyVersion hf ha
    rw [hra.number, hra.block, hra.isHead]
    exact h.least ha₀
  phi := fun ha hid => by
    obtain ⟨a₀, ha₀, hra⟩ := rebinds_of_modifyVersion hf ha
    exact (hra.phi _ hid).elim (h.phi ha₀) fun hi => hi
  zero := fun hfenced {w a} ha hz => by
    have hfenced : s.Fenced := ⟨hfenced.entry, hfenced.start, hfenced.dominates⟩
    obtain ⟨a₀, ha₀, hra⟩ := rebinds_of_modifyVersion hf ha
    rw [hra.number] at hz
    exact hra.zero hfenced hz (h.zero hfenced ha₀ hz)
  zero_inj := fun hfenced {w w' a c} ha hc hza hzc hvar => by
    obtain ⟨a₀, ha₀, hra⟩ := rebinds_of_modifyVersion hf ha
    obtain ⟨c₀, hc₀, hrc⟩ := rebinds_of_modifyVersion hf hc
    rw [hra.number] at hza
    rw [hrc.number] at hzc
    refine h.zero_inj ⟨hfenced.entry, hfenced.start, hfenced.dominates⟩ ha₀ hc₀ hza hzc ?_
    rw [← hra.var, ← hrc.var, hvar]

end ModifyVersion

theorem WellFormed.modifyVersion {s : State} (h : WellFormed s) {v : VersionId}
    {f : Version → Version} (hf : ∀ a, s.versions[v]? = some a → Rebinds s a (f a)) :
    Advances s (s.modifyVersion v f) := by
  have hwired : Wired (s.modifyVersion v f) := h.wired.congr fun _ => rfl
  have hknown : Known (s.modifyVersion v f) :=
    ⟨h.known.entry, h.known.const, h.known.const_inj, h.known.holder, h.known.deferral⟩
  refine ⟨⟨hwired, h.listed.modifyVersion hf, h.versioned.modifyVersion hf, hknown⟩, fun _ => rfl,
    fun {_ i} hi => ⟨i, hi, .refl i⟩, fun {w a} ha => ?_⟩
  obtain ⟨a', ha', hr⟩ := exists_rebinds_modifyVersion hf ha
  exact ⟨a', ha', hr.var, hr.number, hr.block, hr.isHead⟩

/-! ## Adding a version -/

/-- A version may be added: behind the phis and heads, or as the only head of its variable, with a
number of its own. Version 0 goes to the first block with code, and while that is entered once it is
a constant and the only one. -/
structure Admissible (s : State) (a : Version) (pos : Nat) : Prop where
  behind : s.leadingRun a.block ≤ pos
  phi : a.phi = none
  head : a.isHead = true → pos = s.leadingRun a.block ∧ ∀ (w : VersionId) c,
    s.versions[w]? = some c → c.isHead = true → c.block = a.block → c.var ≠ a.var
  number : (0 < a.number ∧ ∀ (w : VersionId) c, s.versions[w]? = some c → c.block = a.block →
    c.var = a.var → c.number ≠ a.number) ∨ a.number = 0 ∧ a.block = startBlock ∧ a.isHead = false
  zero : s.Fenced → a.number = 0 → s.IsConst a.inst ∧ ∀ (w : VersionId) c, s.versions[w]? = some c →
    c.number = 0 → c.var ≠ a.var

section AddVersion

variable {s : State} {a : Version} {blk : Block} {pos : Nat}

open State

theorem Listed.addVersion (h : Listed s) (hb : s.block? a.block = some blk)
    (ha : Admissible s a pos) : Listed (s.addVersion a pos).2 := by
  have hversions := s.versions_addVersion a pos
  have hnew : s.ownerOf (.mark s.versions.size) = none := by
    simp [ownerOf]
  have hnot : .mark s.versions.size ∉ s.timelineOf a.block := by
    rw [h.mem_iff, hnew]
    exact fun he => by cases he
  refine h.insert (fun {id i} hi => h.id_eq (s.inst?_addVersion a pos id ▸ hi))
    (timelineOf_addVersion hb) ?_ (fun y => ?_) (fun c hc => ?_) (fun y hy => ?_) ?_ (fun hl => ?_)
    (fun _ i j _ hj => (by cases hj))
    (h.tabled.addVersion hb (timelineOf_eq hb ▸ h.nodup _) fun {b v} hv => ?_)
  · rw [take_append_drop, erase_of_not_mem hnot]
  · cases y with
    | inst id => simp [ownerOf, inst?_addVersion]
    | mark w =>
      simp only [ownerOf, hversions, Slot.mark.injEq]
      split <;> rfl
  · rw [hnew] at hc
    cases hc
  · cases y with
    | inst id => simp only [isLead, inst?_addVersion]
    | mark w =>
      have hw : w ≠ s.versions.size := fun he => hy (by rw [he])
      simp only [isLead, hversions, if_neg hw]
  · exact not_of_mem_drop (h.lead a.block) (leadingRun_eq_takeWhile s a.block ▸ ha.behind)
  · have hhead : a.isHead = true := by
      simpa [isLead, hversions] using hl
    intro y hy
    rw [(ha.head hhead).1, leadingRun_eq_takeWhile] at hy
    exact of_mem_take hy
  · obtain ⟨c, hc, -⟩ := map_eq_some_iff.mp ((h.mem_iff b _).mp hv)
    exact (Array.getElem?_eq_some_iff.mp hc).1

theorem Versioned.addVersion (h : Versioned s) (ha : Admissible s a pos)
    (hgraph : ∀ b, ((s.addVersion a pos).2.block? b).map Block.shape = (s.block? b).map
      Block.shape) :
    Versioned (s.addVersion a pos).2 := by
  have hcases : ∀ {w : VersionId} {c}, (s.addVersion a pos).2.versions[w]? = some c →
      (w = s.versions.size ∧ c = a) ∨ s.versions[w]? = some c := by
    intro w c hc
    rw [versions_addVersion] at hc
    split at hc
    · cases hc
      exact .inl ⟨‹_›, rfl⟩
    · exact .inr hc
  have hback : ∀ b, (s.block? b).map Block.shape = ((s.addVersion a pos).2.block? b).map
    Block.shape :=
    fun b => (hgraph b).symm
  have hconst : ∀ id, (s.addVersion a pos).2.IsConst id ↔ s.IsConst id := by
    intro id
    simp only [IsConst, inst?_addVersion]
  refine ⟨fun {v w c e} hc he => ?_, fun {v w c e} hc he => ?_, fun {v c} hc => ?_,
    fun {v c id} hc hid => ?_, fun hf {v c} hc hz => ?_, fun hf {v w c e} hc he hzc hze hvar => ?_⟩
  · rcases hcases hc with ⟨rfl, rfl⟩ | hc₀
    · rcases hcases he with ⟨rfl, rfl⟩ | he₀
      · intros
        rfl
      · intro hhc hhe hblock hvar
        exact absurd hvar.symm ((ha.head hhc).2 w e he₀ hhe hblock.symm)
    · rcases hcases he with ⟨rfl, rfl⟩ | he₀
      · intro hhc hhe hblock hvar
        exact absurd hvar ((ha.head hhe).2 v c hc₀ hhc hblock)
      · exact h.head hc₀ he₀
  · rcases hcases hc with ⟨rfl, rfl⟩ | hc₀
    · rcases hcases he with ⟨rfl, rfl⟩ | he₀
      · intros
        exact .inl rfl
      · intro hblock hvar hnumber
        rcases ha.number with ⟨-, hfresh⟩ | ⟨hz, -⟩
        · exact absurd hnumber.symm (hfresh w e he₀ hblock.symm hvar.symm)
        · exact .inr hz
    · rcases hcases he with ⟨rfl, rfl⟩ | he₀
      · intro hblock hvar hnumber
        rcases ha.number with ⟨-, hfresh⟩ | ⟨hz, -⟩
        · exact absurd hnumber (hfresh v c hc₀ hblock hvar)
        · exact .inr (hnumber.trans hz)
      · exact h.number hc₀ he₀
  · rcases hcases hc with ⟨rfl, rfl⟩ | hc₀
    · rcases ha.number with ⟨hpos, -⟩ | ⟨hz, hstart, hhead⟩
      · exact ⟨Int.le_of_lt hpos, fun hz => absurd hz (Int.ne_of_gt hpos)⟩
      · exact ⟨Int.le_of_eq hz.symm, fun _ => ⟨hstart, hhead⟩⟩
    · exact h.least hc₀
  · rw [inst?_addVersion]
    rcases hcases hc with ⟨rfl, rfl⟩ | hc₀
    · rw [ha.phi] at hid
      cases hid
    · exact h.phi hc₀ hid
  · rw [hconst]
    rcases hcases hc with ⟨rfl, rfl⟩ | hc₀
    · exact (ha.zero (.congr hgraph hf) hz).1
    · exact h.zero (.congr hgraph hf) hc₀ hz
  · have hf₀ := hf.congr hgraph
    rcases hcases hc with ⟨rfl, rfl⟩ | hc₀
    · rcases hcases he with ⟨rfl, rfl⟩ | he₀
      · rfl
      · exact absurd hvar.symm ((ha.zero hf₀ hzc).2 w e he₀ hze)
    · rcases hcases he with ⟨rfl, rfl⟩ | he₀
      · exact absurd hvar ((ha.zero hf₀ hze).2 v c hc₀ hzc)
      · exact h.zero_inj hf₀ hc₀ he₀ hzc hze hvar

theorem WellFormed.addVersion (h : WellFormed s) (pos : Nat) (hb : s.block? a.block = some blk)
    (ha : Admissible s a pos) : Advances s (s.addVersion a pos).2 := by
  have hmap : ∀ {α : Type} (g : Block → α), (∀ blk name v, g (blk.addVersion pos name v) = g blk) →
      ∀ b, ((s.addVersion a pos).2.block? b).map g = (s.block? b).map g :=
    fun _ hg => Timelines.map_block?_addVersion hb hg
  have hgraph := hmap Block.shape fun _ _ _ => rfl
  have hentries : ∀ b, (s.addVersion a pos).2.entriesOf b = s.entriesOf b := fun b =>
    congrArg (Option.getD · []) (hmap (·.entries) (fun _ _ _ => rfl) b)
  have hholder : ∀ b, (s.addVersion a pos).2.holderOf b = s.holderOf b :=
    holderOf_modifyBlock (s := { s with versions := s.versions.push a })
      (f := (·.addVersion pos a.var _)) fun _ => rfl
  have hdeferrals : (s.addVersion a pos).2.deferrals = s.deferrals :=
    deferrals_modifyBlock { s with versions := s.versions.push a } a.block _
  refine ⟨⟨h.wired.congr hgraph, h.listed.addVersion hb ha, h.versioned.addVersion ha hgraph, ?_⟩,
    hgraph, fun {id i} hi => ⟨i, (s.inst?_addVersion a pos id).trans hi, .refl i⟩,
    fun {w c} hc => ?_⟩
  · refine ⟨?_, ?_, ?_, fun {b p} hp => ?_, fun d hd => ?_⟩
    · simp only [inst?_addVersion, hentries]
      exact h.known.entry
    · simp only [inst?_addVersion, hentries]
      exact h.known.const
    · simp only [inst?_addVersion]
      exact h.known.const_inj
    · rw [hholder] at hp
      rw [inst?_addVersion]
      exact h.known.holder hp
    · rw [hdeferrals] at hd
      rw [inst?_addVersion, isSome_of_shape hgraph]
      exact h.known.deferral d hd
  · refine ⟨c, ?_, rfl, rfl, rfl, rfl⟩
    have hlt := (Array.getElem?_eq_some_iff.mp hc).1
    rw [versions_addVersion, if_neg (Nat.ne_of_lt hlt), hc]

end AddVersion

/-! ## Books -/

section Books

variable {s t : State} {b : BlockId} {blk : Block}

open State

/-- What is not an instruction, a block, a version or a deferred branch does not matter. -/
theorem WellFormed.of_arenas (h : WellFormed s) (hinsts : t.insts = s.insts)
    (hblocks : t.blocks = s.blocks) (hversions : t.versions = s.versions)
    (hdeferrals : t.deferrals = s.deferrals) : Advances s t := by
  have hinst : ∀ id, t.inst? id = s.inst? id := fun id => by rw [inst?, inst?, hinsts]
  have hblock : ∀ b, t.block? b = s.block? b := fun b => by rw [block?, block?, hblocks]
  have hentries : ∀ b, t.entriesOf b = s.entriesOf b :=
    fun b => by rw [entriesOf, entriesOf, hblock]
  refine ⟨h.congr (fun b => by rw [hblock])
    ⟨hinst, hversions, fun b => by rw [timelineOf, timelineOf, hblock],
    fun b => by rw [tableOf, tableOf, hblock],
    fun b e he _ => .inl (hentries b ▸ he),
    fun e he _ => (hentries _).symm ▸ he, fun b p hp => .inl ?_,
    fun d hd => .inl (hdeferrals ▸ hd)⟩, fun b => by rw [hblock],
    fun {id i} hi => ⟨i, (hinst id).trans hi, .refl i⟩,
    fun {_ a} ha => ⟨a, hversions ▸ ha, rfl, rfl, rfl, rfl⟩⟩
  rw [holderOf, ← hblock]
  exact hp

theorem Advances.report (h : Advances s t) (e : Event) : Advances s (t.report e) :=
  h.trans (h.wellFormed.of_arenas rfl rfl rfl rfl)

/-- A block keeps its books: its edges, its timeline and its table stay. -/
theorem WellFormed.modifyBlock {f : Block → Block} (h : WellFormed s)
    (hshape : ∀ blk, (f blk).shape = blk.shape) (htime : ∀ blk, (f blk).timeline = blk.timeline)
    (htable : ∀ blk, (f blk).table = blk.table)
    (hentries : ∀ blk, s.block? b = some blk → ∀ e ∈ (f blk).entries, e.op ≠ .phi → e ∈ blk.entries)
    (hconsts : ∀ blk, s.block? b = some blk → ∀ e ∈ blk.entries, e.op = .const →
      e ∈ (f blk).entries)
    (hholder : ∀ blk, s.block? b = some blk → ∀ p, (f blk).placeholder = some p →
      blk.placeholder = some p ∨ ∃ i, s.inst? p = some i ∧ i.block = b ∧
        (i.op = .empty → IsBlank i)) :
    Advances s (s.modifyBlock b f) := by
  have hgraph := map_block?_modifyBlock (s := s) (b := b) (f := f) Block.shape hshape
  refine ⟨h.congr hgraph ⟨inst?_modifyBlock s b f, versions_modifyBlock s b f,
    timelineOf_modifyBlock_of_eq htime, tableOf_modifyBlock_of_eq htable, fun b' e he hop => .inl
    ?_, fun e he hop => ?_, fun b' p hp => ?_, fun d hd => .inl ?_⟩, hgraph,
    fun {id i} hi => ⟨i, (inst?_modifyBlock s b f id).trans hi, .refl i⟩,
    fun {_ a} ha => ⟨a, (versions_modifyBlock s b f).symm ▸ ha, rfl, rfl, rfl, rfl⟩⟩
  · rw [entriesOf, block?_modifyBlock] at he
    split at he
    · rename_i hb
      subst hb
      cases hblk : s.block? b' with
      | none =>
        rw [hblk] at he
        cases he
      | some blk =>
        rw [hblk] at he
        rw [entriesOf, hblk]
        exact hentries blk hblk e he hop
    · exact he
  · rw [entriesOf, block?_modifyBlock]
    split
    · rename_i hb
      subst hb
      cases hblk : s.block? entryBlock with
      | none =>
        rw [entriesOf, hblk] at he
        cases he
      | some blk =>
        rw [entriesOf, hblk] at he
        exact hconsts blk hblk e he hop
    · exact he
  · rw [holderOf, block?_modifyBlock] at hp
    split at hp
    · rename_i hb
      subst hb
      cases hblk : s.block? b' with
      | none =>
        rw [hblk] at hp
        cases hp
      | some blk =>
        rw [hblk] at hp
        rw [holderOf, hblk]
        exact hholder blk hblk p hp
    · exact .inl hp
  · rwa [deferrals_modifyBlock] at hd

/-- Steps for the elements of a list, each of which needs something of its element that work in the
blocks does not take away. -/
theorem WellFormed.foldl {α : Type} {f : State → α → State} {P : α → State → Prop}
    (h : WellFormed s) (hkeep : ∀ {a s t}, Advances s t → P a s → P a t)
    (hf : ∀ {s a}, WellFormed s → P a s → Advances s (f s a)) (l : List α) (hl : ∀ a ∈ l, P a s) :
    Advances s (l.foldl f s) := by
  induction l generalizing s with
  | nil => exact .refl h
  | cons a l ih =>
    have hone := hf h (hl a (mem_cons_self ..))
    exact hone.trans (ih hone.wellFormed fun a ha => hkeep hone (hl a (mem_cons_of_mem _ ha)))

theorem Edits.addDep (i : Instruction) (r : VersionRef) : Edits i (i.addDep r) := by
  unfold Instruction.addDep
  split
  · exact .refl i
  · exact .note i _ i.memory

theorem WellFormed.depend (h : WellFormed s) (v : VersionId) : Advances s (s.depend v) := by
  unfold State.depend
  cases s.versions[v]? with
  | none => exact .refl h
  | some ver =>
    exact h.foldl (P := fun _ _ => True) (fun _ _ => trivial)
      (fun h _ => h.modifyInst fun i _ => .addDep i _) _ fun _ _ => trivial

theorem Advances.depend (h : Advances s t) (v : VersionId) : Advances s (t.depend v) :=
  h.trans (h.wellFormed.depend v)

end Books

/-! ## Values -/

section Values

variable {s : State} {b : BlockId} {blk : Block}

open State

/-- Finding or making a constant leaves the versions alone. -/
theorem WellFormed.const (h : WellFormed s) (n : Int64) : Advances s (s.const n).2 ∧
    (s.const n).2.IsNumber (s.const n).1.id n ∧ (s.const n).2.versions = s.versions := by
  unfold State.const
  cases hk : (s.entriesOf entryBlock).find? fun e =>
      e.op == .const && e.x == .literal n && s.isLive e.id with
  | some e =>
    have hop := find?_some hk
    simp only [Bool.and_eq_true, beq_iff_eq] at hop
    obtain ⟨i, hi, -, hopi, -, hx, -⟩ :=
      h.known.entry (mem_of_find?_eq_some hk) (by rw [hop.1.1]; intro he; cases he)
    exact ⟨.refl h, ⟨i, hi, hopi.trans hop.1.1, hx.trans hop.1.2⟩, rfl⟩
  | none =>
    obtain ⟨blk, hb⟩ := isSome_iff_exists.mp h.wired.entry
    have hp := h.place (d := { op := .const, x := .literal n }) hb
      (Listed.leadingRun_le_endOf entryBlock) (by intro he; cases he)
    generalize s.place entryBlock { op := .const, x := .literal n } (s.endOf entryBlock) = r at hp ⊢
    obtain ⟨id, t⟩ := r
    dsimp only at hp ⊢
    have hadv := hp.advances_record (e := { op := .const, id := id, x := .literal n, y := .none }) h
      hb rfl rfl rfl rfl rfl fun _ => ⟨rfl, ⟨n, rfl⟩, fun id' i hi hop hx => ?_⟩
    · obtain ⟨i, hi, hop, hx, -⟩ := hp.inst
      refine ⟨hadv, ⟨i, ?_, hop, hx⟩, (versions_modifyBlock ..).trans hp.versions⟩
      exact (inst?_modifyBlock ..).trans (by rw [hi, if_pos rfl])
    · -- a constant that is there would have been found
      obtain ⟨-, hactive, -, -, e, he, heop, heid, hex⟩ := h.known.const hi hop
      have := find?_eq_none.mp hk e he
      simp [heop, hex, hx, heid, isLive, hi, hactive] at this

theorem WellFormed.placeNumbered (h : WellFormed s) (hb : (s.block? b).isSome) {d : Draft}
    {tag : MemoryTag} {pos : Nat} (hnum : d.op.isNumbered = true) (hconst : d.op ≠ .const)
    (hpos : s.leadingRun b ≤ pos) : Advances s (s.placeNumbered b d tag pos).2 := by
  obtain ⟨blk, hb⟩ := isSome_iff_exists.mp hb
  have hphi : d.op ≠ .phi := by
    intro he
    rw [he] at hnum
    cases hnum
  have hadv := (h.place hb hpos hphi).advances_record
    (e := { op := d.op, id := (s.place b d pos).1, x := d.x, y := d.y, tag := tag }) h hb
    rfl rfl rfl rfl hnum fun he => absurd he hconst
  unfold State.placeNumbered
  dsimp only
  split
  · exact hadv.trans (hadv.wellFormed.modifyInst fun i _ => .note i i.deps _)
  · exact hadv

theorem WellFormed.number (h : WellFormed s) (hb : (s.block? b).isSome) {op : Opcode} (x y : Value)
    (tag : MemoryTag) {pos : Nat} (hnum : op.isNumbered = true) (hconst : op ≠ .const)
    (hpos : s.leadingRun b ≤ pos) : Advances s (s.number b op x y tag pos).2 := by
  unfold State.number
  cases s.find? b op x.operand y.operand tag pos with
  | some found => exact .refl h
  | none => exact h.placeNumbered hb hnum hconst hpos

theorem WellFormed.numberAtEnd (h : WellFormed s) (hb : (s.block? b).isSome)
    (op : Opcode) (x y : Value) (tag : MemoryTag) (hnum : op.isNumbered = true)
    (hconst : op ≠ .const) : Advances s (s.numberAtEnd b op x y tag).2 :=
  h.number hb x y tag hnum hconst (Listed.leadingRun_le_endOf b)

theorem WellFormed.emitEffect (h : WellFormed s) (hb : (s.block? b).isSome)
    (op : Opcode) (x y : Value) (hnum : op.isNumbered = false) (hphi : op ≠ .phi) :
    Advances s (s.emitEffect b op x y).2 ∧ ∃ i, (s.emitEffect b op x y).2.inst?
      (s.emitEffect b op x y).1.id = some i ∧ i.op = op := by
  obtain ⟨blk, hb⟩ := isSome_iff_exists.mp hb
  have hp := h.place (d := ⟨op, x.operand, y.operand, x.src, y.src⟩) hb
    (Listed.leadingRun_le_endOf b) hphi
  refine ⟨hp.advances h ?_, ?_⟩
  · rintro rfl
    cases hnum
  · obtain ⟨i, hi, hop, -⟩ := hp.inst
    exact ⟨i, (hi _).trans (if_pos rfl), hop⟩

theorem WellFormed.emitPhi (h : WellFormed s) (hb : (s.block? b).isSome) (x y : Value) :
    Advances s (s.emitPhi b x y).2 ∧
      (∃ i, (s.emitPhi b x y).2.inst? (s.emitPhi b x y).1.id = some i ∧ i.op = .phi) ∧
      (s.emitPhi b x y).2.versions = s.versions := by
  obtain ⟨blk, hb⟩ := isSome_iff_exists.mp hb
  have hp := h.insertNew (d := ⟨.phi, x.operand, y.operand, x.src, y.src⟩) hb
    (Nat.le_refl _) fun _ => rfl
  have hadv := hp.advances h (by intro he; cases he)
  obtain ⟨i, hi, hop, -⟩ := hp.inst
  refine ⟨hadv.trans (hadv.wellFormed.modifyBlock (fun _ => rfl) (fun _ => rfl) (fun _ => rfl)
    (fun blk _ e he hne => ?_) (fun blk _ e he _ => mem_cons_of_mem _ he) fun blk _ p hp => .inl
    hp), ⟨i, ?_, hop⟩, ?_⟩
  · rcases mem_cons.mp he with rfl | he
    · exact absurd rfl hne
    · exact he
  · exact (inst?_modifyBlock ..).trans ((hi _).trans (if_pos rfl))
  · exact (versions_modifyBlock ..).trans hp.versions

end Values

/-! ## Variables -/

section Variables

variable {s : State} {b : BlockId} {name : String}

open State

/-- The versions of a variable in a block are those that belong there. -/
theorem WellFormed.mem_versionsOf (h : WellFormed s) {v : VersionId} : v ∈ s.versionsOf b name ↔
    ∃ a, s.versions[v]? = some a ∧ a.block = b ∧ a.var = name := by
  rw [h.listed.tabled.mem_versionsOf, h.listed.mem_iff]
  simp only [ownerOf, map_eq_some_iff]
  constructor
  · rintro ⟨⟨a, ha, hb⟩, c, hc, hvar⟩
    cases ha.symm.trans hc
    exact ⟨a, ha, hb, hvar⟩
  · rintro ⟨a, ha, hb, hvar⟩
    exact ⟨⟨a, ha, hb⟩, a, ha, hvar⟩

theorem lt_foldl_succ (l : List Int) (n : Int) :
    n ≤ l.foldl (fun n k => if k ≥ n then k + 1 else n) n ∧
      ∀ k ∈ l, k < l.foldl (fun n k => if k ≥ n then k + 1 else n) n := by
  induction l generalizing n with
  | nil => exact ⟨Int.le_refl _, fun _ hk => by cases hk⟩
  | cons m l ih =>
    have hm := ih (if m ≥ n then m + 1 else n)
    rw [foldl_cons]
    refine ⟨?_, fun k hk => ?_⟩
    · refine Int.le_trans ?_ hm.1
      split <;> omega
    · rcases mem_cons.mp hk with rfl | hk
      · refine Int.lt_of_lt_of_le ?_ hm.1
        split <;> omega
      · exact hm.2 k hk

/-- The number of the next version is positive and beyond all that are there. -/
theorem WellFormed.lt_nextVersion (h : WellFormed s) : 0 < s.nextVersion b name ∧
    ∀ (w : VersionId) c, s.versions[w]? = some c → c.block = b → c.var = name →
      c.number ≠ s.nextVersion b name := by
  have hfold := lt_foldl_succ
    ((s.versionsOf b name).filterMap fun v => (s.versions[v]?).map (·.number)) 0
  unfold State.nextVersion
  dsimp only
  generalize List.foldl (fun n k => if k ≥ n then k + 1 else n) 0
    ((s.versionsOf b name).filterMap fun v => (s.versions[v]?).map (·.number)) = next at hfold
  refine ⟨by split <;> omega, fun w c hc hb hvar => ?_⟩
  have hlt := hfold.2 c.number (mem_filterMap.mpr
    ⟨w, h.mem_versionsOf.mpr ⟨c, hc, hb, hvar⟩, by rw [hc]; rfl⟩)
  split <;> omega

theorem WellFormed.touch (h : WellFormed s) (name : String) : Advances s (s.touch name) :=
  h.of_arenas rfl rfl rfl rfl

theorem WellFormed.assign (h : WellFormed s) (hb : (s.block? b).isSome) (v : Value) :
    Advances s (s.assign b name v).2 := by
  unfold State.assign
  dsimp only
  split
  · refine (h.modifyVersion fun a _ => ?_).depend _
    exact ⟨rfl, rfl, rfl, rfl, fun _ hid => .inl hid, fun _ _ hc => hc⟩
  · obtain ⟨blk, hb⟩ := isSome_iff_exists.mp hb
    obtain ⟨hpos, hfresh⟩ := @WellFormed.lt_nextVersion s b name h
    have hadv :=
      (h.addVersion (a := ⟨name, s.nextVersion b name, v.id, b, v.src, v.src.history, false, none⟩)
      (s.endOf b) hb
      { behind := Listed.leadingRun_le_endOf b
        phi := rfl
        head := fun he => (by cases he)
        number := .inl ⟨hpos, hfresh⟩
        zero := fun _ hz => absurd hz (Int.ne_of_gt hpos) }).depend s.versions.size
    exact hadv.trans (hadv.wellFormed.touch name)

/-- Where no version of a variable is visible in a block with code, there is no version 0 of it as
long as the first such block is entered once. -/
theorem WellFormed.no_zero (h : WellFormed s) (hb : (s.block? b).isSome) (hne : b ≠ entryBlock)
    (hv : s.visible? b name = none) (hf : s.Fenced) (w : VersionId) (c : Version)
    (hc : s.versions[w]? = some c) (hz : c.number = 0) : c.var ≠ name := by
  intro hvar
  obtain ⟨blk, hb⟩ := isSome_iff_exists.mp hb
  obtain ⟨ds, hds⟩ := h.wired.doms hb
  -- version 0 is alive, so it is seen wherever its block is looked into
  obtain ⟨i, hi, hop⟩ := h.versioned.zero hf hc hz
  have hlive : s.isLive c.inst = true := by
    rw [isLive, hi]
    exact (h.known.const hi hop).2.1
  have hmem : w ∈ s.versionsOf startBlock name :=
    h.mem_versionsOf.mpr ⟨c, hc, ((h.versioned.least hc).2 hz).1, hvar⟩
  have hseen : s.lastOf (fun v => s.isLive v.inst) (s.versionsOf startBlock name) ≠ none := by
    intro hnone
    have := find?_eq_none.mp hnone w (mem_reverse.mpr hmem)
    rw [hc, Option.any_some, hlive] at this
    exact this rfl
  have hdom := hf.dominates b blk hb hne
  have hdoms : s.dominatorsOf b = b :: ds := by
    rw [dominatorsOf, hb]
    exact hds
  rw [visible?, visibleWith_endOf hdoms, ← hds] at hv
  exact hseen (findSome?_eq_none_iff.mp hv _ hdom)

theorem WellFormed.implicitZero (h : WellFormed s) (cause : Option ZeroCause)
    (hno : s.Fenced → ∀ (w : VersionId) c, s.versions[w]? = some c → c.number = 0 → c.var ≠ name) :
    Advances s (s.implicitZero b name cause).2 := by
  obtain ⟨hconst, his, hversions⟩ := h.const 0
  unfold State.implicitZero
  dsimp only
  generalize s.const 0 = r at hconst his hversions ⊢
  obtain ⟨z, t⟩ := r
  dsimp only at hconst his hversions ⊢
  obtain ⟨blk, hb⟩ := isSome_iff_exists.mp hconst.wellFormed.wired.start
  have hadv := hconst.trans ((hconst.wellFormed.addVersion
    (a := ⟨name, 0, z.id, startBlock, z.src, [], false, none⟩) (t.endOf startBlock) hb
    { behind := Listed.leadingRun_le_endOf startBlock
      phi := rfl
      head := fun he => (by cases he)
      number := .inr ⟨rfl, rfl, rfl⟩
      zero := fun hf _ => ⟨his.isConst, hversions ▸ hno (.congr hconst.graph hf)⟩ }).depend
        t.versions.size)
  cases cause with
  | none => exact hadv
  | some why => exact hadv.trans (hadv.wellFormed.of_arenas rfl rfl rfl rfl)

/-- Reading a variable may have to make it zero. -/
theorem WellFormed.readAtEnd (h : WellFormed s) (name : String)
    (hb : b ≠ entryBlock → (s.block? b).isSome) (cause : Option ZeroCause) :
    Advances s (s.readAtEnd b name cause).2 := by
  unfold State.readAtEnd
  split
  · exact .refl h
  · rename_i hne
    cases hv : s.visible? b name with
    | some c => exact .refl h
    | none => exact h.implicitZero cause (h.no_zero (hb hne) hne hv)

end Variables

/-! ## Joins -/

section Joins

variable {s t : State} {j : BlockId} {name : String}

open State

/-- A version that is a head. -/
def IsHeadAt (s : State) (v : VersionId) : Prop :=
  ∃ a, s.versions[v]? = some a ∧ a.isHead = true

/-- An instruction that is a phi. -/
def IsPhiAt (s : State) (id : InstId) : Prop :=
  ∃ i, s.inst? id = some i ∧ i.op = .phi

theorem Advances.isHeadAt (h : Advances s t) {v : VersionId} (hv : IsHeadAt s v) :
    IsHeadAt t v := by
  obtain ⟨a, ha, hhead⟩ := hv
  obtain ⟨a', ha', -, -, -, hhead'⟩ := h.version ha
  exact ⟨a', ha', hhead'.trans hhead⟩

theorem Advances.isPhiAt (h : Advances s t) {id : InstId} (hi : IsPhiAt s id) : IsPhiAt t id := by
  obtain ⟨i, hi, hop⟩ := hi
  obtain ⟨i', hi', ho⟩ := h.inst hi
  exact ⟨i', hi', (ho.op_eq (by rw [hop]; intro he; cases he)).trans hop⟩

theorem isHeadAt_of_head? {v : VersionId} (hv : s.head? j name = some v) : IsHeadAt s v := by
  have := find?_some hv
  rwa [Option.any_eq_true] at this

/-- A head may stand for any instruction. -/
theorem WellFormed.modifyHead (h : WellFormed s) {v : VersionId} (hv : IsHeadAt s v)
    {f : Version → Version} (hf : ∀ a, (f a).var = a.var ∧ (f a).number = a.number ∧
      (f a).block = a.block ∧ (f a).isHead = a.isHead)
    (hphi : ∀ a id, (f a).phi = some id → a.phi = some id ∨ IsPhiAt s id) :
    Advances s (s.modifyVersion v f) := by
  refine h.modifyVersion fun a ha => ?_
  obtain ⟨hvar, hnumber, hblock, hhead⟩ := hf a
  refine ⟨hvar, hnumber, hblock, hhead, hphi a, fun _ hz => ?_⟩
  obtain ⟨c, hc, hch⟩ := hv
  cases ha.symm.trans hc
  have hno := ((h.versioned.least ha).2 hz).2
  rw [hch] at hno
  cases hno

/-- The operands of a phi may change, and it may be retired and revived. -/
theorem WellFormed.modifyPhi (h : WellFormed s) {id : InstId} (hid : IsPhiAt s id)
    {f : Instruction → Instruction} (hf : ∀ i, (f i).id = i.id ∧ (f i).op = i.op ∧
      (f i).block = i.block) :
    Advances s (s.modifyInst id f) := by
  refine h.modifyInst fun i hi => ?_
  obtain ⟨c, hc, hop⟩ := hid
  cases hi.symm.trans hc
  obtain ⟨hid, hop', hblock⟩ := hf i
  have hnum : i.op.isNumbered ≠ true := by
    rw [hop]
    exact Bool.false_ne_true
  refine ⟨hid, hop', hblock, fun h => absurd h hnum, fun h => absurd h hnum, fun h => absurd h hnum,
    ?_, fun he => ?_⟩
  · rintro (hc | ⟨-, hne, -⟩)
    · rw [hop] at hc
      cases hc
    · exact absurd hop hne
  · rw [hop] at he
    cases he

theorem WellFormed.no_head (h : WellFormed s) (hno : s.head? j name = none)
    (w : VersionId) (c : Version) (hc : s.versions[w]? = some c) (hhead : c.isHead = true)
    (hb : c.block = j) : c.var ≠ name := by
  intro hvar
  have := find?_eq_none.mp hno w (h.mem_versionsOf.mpr ⟨c, hc, hb, hvar⟩)
  rw [hc, Option.any_some] at this
  exact this hhead

theorem WellFormed.addHead (h : WellFormed s) (hj : (s.block? j).isSome)
    (hno : ∀ (w : VersionId) c, s.versions[w]? = some c → c.isHead = true →
      c.block = j → c.var ≠ name)
    (inst : InstId) (src : Provenance) : Advances s (s.addHead j name inst src).2 ∧
      IsHeadAt (s.addHead j name inst src).2 (s.addHead j name inst src).1 := by
  obtain ⟨blk, hj⟩ := isSome_iff_exists.mp hj
  obtain ⟨hpos, hfresh⟩ := @WellFormed.lt_nextVersion s j name h
  refine ⟨h.addVersion (a := ⟨name, s.nextVersion j name, inst, j, src, [], true, none⟩)
    (s.leadingRun j) hj
    { behind := Nat.le_refl _
      phi := rfl
      head := fun _ => ⟨rfl, hno⟩
      number := .inl ⟨hpos, hfresh⟩
      zero := fun _ hz => absurd hz (Int.ne_of_gt hpos) }, ?_⟩
  exact ⟨_, (s.versions_addVersion _ _ _).trans (if_pos rfl), rfl⟩

theorem WellFormed.refillPhi (h : WellFormed s) {head : VersionId} {phi : InstId}
    (hhead : IsHeadAt s head) (hphi : IsPhiAt s phi) (x y : Value) :
    Advances s (s.refillPhi j name head phi x y).2 := by
  unfold State.refillPhi
  have hinst := h.modifyPhi hphi (f := fun i =>
    { i with x := x.operand, y := y.operand, srcX := x.src, srcY := y.src, active := true })
    fun _ => ⟨rfl, rfl, rfl⟩
  have hadv := hinst.trans (hinst.wellFormed.modifyHead (hinst.isHeadAt hhead)
    (f := fun v => { v with inst := phi, src := .result .phi phi .absent .absent {} })
    (fun _ => ⟨rfl, rfl, rfl, rfl⟩) fun _ _ hid => .inl hid)
  dsimp only
  split
  · exact (hadv.depend head).report _
  · exact hadv

/-- A head stands for a phi that was just made. -/
theorem WellFormed.bindPhi (h : WellFormed s) {head : VersionId} (hhead : IsHeadAt s head)
    {phi : Value} (hphi : IsPhiAt s phi.id) :
    Advances s (s.modifyVersion head fun v =>
      { v with inst := phi.id, src := phi.src, phi := some phi.id }) := by
  refine h.modifyHead hhead (fun _ => ⟨rfl, rfl, rfl, rfl⟩) fun _ _ hid => .inr ?_
  cases hid
  exact hphi

theorem WellFormed.newPhi (h : WellFormed s) (hj : (s.block? j).isSome) {head : Option VersionId}
    (hhead : ∀ v, head = some v → IsHeadAt s v)
    (hno : head = none → ∀ (w : VersionId) c, s.versions[w]? = some c →
      c.isHead = true → c.block = j → c.var ≠ name) (x y : Value) : Advances s
        (s.newPhi j name head x y).2 := by
  obtain ⟨hadv, hphi, hversions⟩ := h.emitPhi hj x y
  unfold State.newPhi
  dsimp only
  generalize s.emitPhi j x y = r at *
  obtain ⟨phi, t⟩ := r
  dsimp only at *
  cases head with
  | some v =>
    have hbind := hadv.wellFormed.bindPhi (hadv.isHeadAt (hhead v rfl)) hphi
    exact ((hadv.trans hbind).depend v).report _
  | none =>
    obtain ⟨hadd, hv⟩ := hadv.wellFormed.addHead (hadv.isSome_block hj) (hversions ▸ hno rfl) 0
      .absent
    have hbind := hadd.wellFormed.bindPhi hv (hadd.isPhiAt hphi)
    exact ((hadv.trans (hadd.trans hbind)).depend _).report _

theorem WellFormed.settleHead (h : WellFormed s) {head : VersionId} (hhead : IsHeadAt s head)
    (x : Value) :
    Advances s (s.settleHead j name head x).2 ∧
      ∀ phi value, (s.settleHead j name head x).1.retired = some (phi, value) → IsPhiAt s phi := by
  obtain ⟨a, ha, hisHead⟩ := hhead
  have hphi : ∀ phi, ((s.versions[head]?).bind (·.phi)).filter s.isLive = some phi →
    IsPhiAt s phi := by
    intro phi hphi
    have hbind := (Option.filter_eq_some_iff.mp hphi).1
    rw [ha] at hbind
    exact h.versioned.phi ha hbind
  unfold State.settleHead
  dsimp only
  generalize ((s.versions[head]?).bind (·.phi)).filter s.isLive = alive at *
  have hbind : ∀ {t : State}, Advances s t →
      Advances s (t.modifyVersion head fun v => { v with inst := x.id, src := x.src }) := fun h =>
    h.trans (h.wellFormed.modifyHead (h.isHeadAt ⟨a, ha, hisHead⟩) (fun _ => ⟨rfl, rfl, rfl, rfl⟩)
      fun _ _ hid => .inl hid)
  cases alive with
  | none =>
    refine ⟨?_, fun phi value hr => (by cases hr)⟩
    split
    · exact (hbind (.refl h)).depend head
    · exact hbind (.refl h)
  | some phi =>
    have hretire := (h.modifyPhi (hphi phi rfl) (f := fun i => { i with active := false })
      fun _ => ⟨rfl, rfl, rfl⟩).report (.phiRetired j name phi x.id)
    refine ⟨?_, fun phi' value hr => ?_⟩
    · split
      · exact (hbind hretire).depend head
      · exact hbind hretire
    · cases hr
      exact hphi phi rfl

theorem WellFormed.merge (h : WellFormed s) (hj : (s.block? j).isSome) (name : String) (x y : Value)
    (above : Option InstId) :
    Advances s (s.merge j name x y above).2 ∧
      ∀ phi value, (s.merge j name x y above).1.retired = some (phi, value) → IsPhiAt s phi := by
  unfold State.merge
  cases hhead : s.head? j name with
  | some head =>
    have hisHead := isHeadAt_of_head? hhead
    dsimp only
    split
    · exact h.settleHead hisHead x
    · cases hphi : (s.versions[head]?).bind (·.phi) with
      | some phi =>
        obtain ⟨a, ha, -⟩ := hisHead
        rw [ha] at hphi
        refine ⟨h.refillPhi (isHeadAt_of_head? hhead) (h.versioned.phi ha hphi) x y,
          fun phi' value hr => ?_⟩
        unfold State.refillPhi at hr
        dsimp only at hr
        split at hr <;> cases hr
      | none =>
        refine ⟨h.newPhi hj (fun v hv => ?_) (fun he => (by cases he)) x y,
          fun _ _ hr => (by cases hr)⟩
        cases hv
        exact hisHead
  | none =>
    have hno := h.no_head hhead
    dsimp only
    split
    · exact ⟨h.newPhi hj (fun v hv => (by cases hv)) (fun _ => hno) x y,
        fun _ _ hr => (by cases hr)⟩
    · split
      · exact ⟨.refl h, fun _ _ hr => (by cases hr)⟩
      · exact ⟨(h.addHead hj hno x.id x.src).1.depend _, fun _ _ hr => (by cases hr)⟩

theorem WellFormed.addJoinVar (h : WellFormed s) (j : BlockId) (name : String) :
    Advances s (s.addJoinVar j name) :=
  h.modifyBlock (fun _ => rfl) (fun _ => rfl) (fun _ => rfl) (fun _ _ _ he _ => he)
    (fun _ _ _ he _ => he) fun _ _ _ hp => .inl hp

/-- The parents of a join are blocks, where it has two. -/
theorem WellFormed.isSome_joinParents (h : WellFormed s) (j : BlockId) :
    ((s.joinParents j).1 ≠ entryBlock → (s.block? (s.joinParents j).1).isSome) ∧
      ((s.joinParents j).2 ≠ entryBlock → (s.block? (s.joinParents j).2).isSome) := by
  have hget : ∀ k, (((s.block? j).map (·.parents)).getD []).getD k 0 ≠ entryBlock →
      (s.block? ((((s.block? j).map (·.parents)).getD []).getD k 0)).isSome := by
    intro k hne
    cases hj : s.block? j with
    | none =>
      rw [hj] at hne
      exact absurd rfl hne
    | some blk =>
      rw [hj] at hne
      simp only [map_some, getD_some, getD_eq_getElem?_getD] at hne ⊢
      cases hk : blk.parents[k]? with
      | none =>
        rw [hk] at hne
        exact absurd rfl hne
      | some p =>
        obtain ⟨P, hP, -⟩ := h.wired.parent hj (mem_of_getElem? hk)
        rw [getD_some, hP]
        rfl
  exact ⟨hget 0, hget 1⟩

theorem WellFormed.reconcile (h : WellFormed s) (hj : (s.block? j).isSome) (name : String) :
    Advances s (s.reconcile j name) := by
  have hvar := h.addJoinVar j name
  unfold State.reconcile
  dsimp only
  generalize s.addJoinVar j name = t at *
  obtain ⟨hp, hq⟩ := hvar.wellFormed.isSome_joinParents j
  have hx := hvar.wellFormed.readAtEnd name hp (some .partialJoin)
  generalize t.readAtEnd (t.joinParents j).1 name (some .partialJoin) = r at *
  obtain ⟨x, t₁⟩ := r
  dsimp only at *
  have hy := hx.wellFormed.readAtEnd name (fun hne => hx.isSome_block (hq hne)) (some .partialJoin)
  generalize t₁.readAtEnd (t.joinParents j).2 name (some .partialJoin) = r at *
  obtain ⟨y, t₂⟩ := r
  dsimp only at *
  have hall := (hvar.trans hx).trans hy
  exact hall.trans (hy.wellFormed.merge (hall.isSome_block hj) name x y _).1

end Joins

/-! ## Branches -/

section Branches

variable {s t : State} {b : BlockId}

open State

/-- An instruction that is a branch. -/
def IsBranchAt (s : State) (id : InstId) : Prop :=
  ∃ i, s.inst? id = some i ∧ i.op.isBranch = true

theorem Advances.isBranchAt (h : Advances s t) {id : InstId} (hi : IsBranchAt s id) :
    IsBranchAt t id := by
  obtain ⟨i, hi, hop⟩ := hi
  obtain ⟨i', hi', ho⟩ := h.inst hi
  refine ⟨i', hi', ?_⟩
  rw [ho.op_eq]
  · exact hop
  · intro he
    rw [he] at hop
    cases hop

theorem WellFormed.entryPoint (h : WellFormed s) (hb : (s.block? b).isSome) :
    Advances s (s.entryPoint b).2 := by
  unfold State.entryPoint
  cases s.firstActive? b with
  | some id => exact .refl h
  | none =>
    obtain ⟨blk, hb⟩ := isSome_iff_exists.mp hb
    have hp := h.place (d := { op := .empty }) hb (Listed.leadingRun_le_endOf b)
      (by intro he; cases he)
    have hadv := hp.advances h (by intro he; cases he)
    obtain ⟨i, hi, -, hx, hy, hblock, hactive⟩ := hp.inst
    refine hadv.trans (hadv.wellFormed.modifyBlock (fun _ => rfl) (fun _ => rfl) (fun _ => rfl)
      (fun _ _ _ he _ => he) (fun _ _ _ he _ => he) fun _ _ p hp => .inr ?_)
    cases hp
    exact ⟨i, (hi _).trans (if_pos rfl), hblock, fun _ => ⟨hx, hy, hactive⟩⟩

/-- The slots of a branch may change. -/
theorem WellFormed.modifyBranch (h : WellFormed s) {id : InstId} (hid : IsBranchAt s id)
    (side : Side) (o : Operand) : Advances s (s.modifyInst id (·.withSlot side o)) := by
  refine h.modifyInst fun i hi => ?_
  obtain ⟨c, hc, hop⟩ := hid
  cases hi.symm.trans hc
  have hno : ∀ op : Opcode, op.isBranch = false → i.op ≠ op := by
    intro op hf he
    rw [he, hf] at hop
    cases hop
  have hnum : i.op.isNumbered = false := by
    cases hi : i.op <;> simp_all [Opcode.isBranch, Opcode.isConditional, Opcode.isNumbered,
      Opcode.isArithmetic]
  have hnum : i.op.isNumbered ≠ true := Bool.eq_false_iff.mp hnum
  cases side <;> exact ⟨rfl, rfl, rfl, fun h => absurd h hnum, fun h => absurd h hnum,
    fun h => absurd h hnum, fun _ => rfl, fun he => absurd he (hno .empty rfl)⟩

theorem WellFormed.resolveBranch (h : WellFormed s) {d : Deferral} (hb : (s.block? d.target).isSome)
    (hid : IsBranchAt s d.inst) : Advances s (s.resolveBranch d) := by
  have hadv := h.entryPoint hb
  exact (hadv.trans (hadv.wellFormed.modifyBranch (hadv.isBranchAt hid) _ _)).report _

theorem WellFormed.resolveBranches (h : WellFormed s) : Advances s s.resolveBranches :=
  h.foldl (P := fun (d : Deferral) s => (s.block? d.target).isSome ∧ IsBranchAt s d.inst)
    (fun {_ _ _} ha hd => ⟨ha.isSome_block hd.1, ha.isBranchAt hd.2⟩)
    (fun h hd => h.resolveBranch hd.1 hd.2) _ h.known.deferral

/-- A branch is made to wait for a block. -/
theorem WellFormed.defer (h : WellFormed s) {id : InstId} (hid : IsBranchAt s id) (side : Side)
    (hb : (s.block? b).isSome) :
    WellFormed { s.modifyInst id (·.withSlot side (.pending b)) with
      deferrals := (s.modifyInst id (·.withSlot side (.pending b))).deferrals.push
          ⟨id, side, b⟩ } := by
  have hadv := h.modifyBranch hid side (.pending b)
  refine hadv.wellFormed.congr (fun _ => rfl) ⟨fun _ => rfl, rfl, fun _ => rfl, fun _ => rfl,
    fun _ _ he _ => .inl he, fun _ he _ => he, fun _ _ hp => .inl hp, fun d hd => ?_⟩
  rw [Array.toList_push] at hd
  rcases mem_append.mp hd with hd | hd
  · exact .inl hd
  · rw [mem_singleton.mp hd]
    exact .inr ⟨hadv.isSome_block hb, hadv.isBranchAt hid⟩

end Branches

/-! ## Arrays -/

section Arrays

variable {s t : State} {b : BlockId}

open State

theorem WellFormed.consts (h : WellFormed s) (ns : List Int64) : Advances s (s.consts ns).2 := by
  induction ns generalizing s with
  | nil => exact .refl h
  | cons n ns ih => exact (h.const n).1.trans (ih (h.const n).1.wellFormed)

theorem WellFormed.addArray (h : WellFormed s) (name : String) (dims : List Int64) :
    Advances s (s.addArray name dims).2 := by
  unfold State.addArray
  have hstart (n : Int64) : Advances s { s with nextAddress := n } := h.of_arenas rfl rfl rfl rfl
  specialize hstart (s.nextAddress + dims.foldl (· * ·) 1 * s.settings.wordSize)
  have hbase := hstart.trans (hstart.wellFormed.const s.nextAddress).1
  have hall := hbase.trans (hbase.wellFormed.consts (stridesOf dims))
  exact hall.trans (hall.wellFormed.of_arenas rfl rfl rfl rfl)

/-- Any values are computed with in a block that is there. -/
def WellFormed.reckoning (b : BlockId) : Reckoning b where
  Holds s := WellFormed s ∧ (s.block? b).isSome
  Leads := Advances
  Fit _ _ := True
  refl h := .refl h.1
  trans := Advances.trans
  holds h hadv := ⟨hadv.wellFormed, hadv.isSome_block h.2⟩
  fit_mono _ _ _ := trivial
  fit_empty _ := trivial
  const h n := ⟨(h.1.const n).1, trivial⟩
  number op h hop hconst _ _ _ := ⟨h.1.numberAtEnd h.2 op _ _ {} hop hconst, trivial⟩

theorem WellFormed.elementAddress (h : WellFormed s) (hb : (s.block? b).isSome) (a : ArrayInfo)
    (indices : List Value) : Advances s (s.elementAddress b a indices).2 :=
  ((WellFormed.reckoning b).elementAddress ⟨h, hb⟩ trivial fun _ _ => ⟨trivial, trivial⟩).1

theorem WellFormed.forgetLoads (h : WellFormed s) (b : BlockId) (name : String) :
    Advances s (s.forgetLoads b name) := by
  have hgraph := map_block?_forgetLoads Block.shape (fun _ _ => rfl) s b name
  refine ⟨h.congr hgraph ⟨fun _ => rfl, rfl, timelineOf_forgetLoads s b name,
    fun b' => congrArg (Option.getD · []) (map_block?_forgetLoads (·.table)
    (fun _ _ => rfl) s b name b'), fun b' e he _ => .inl ((entriesOf_forgetLoads s b name b' e).1
    he), fun e he hop =>
      (entriesOf_forgetLoads s b name _ e).2 he (by rw [hop]; intro hl; cases hl),
        fun b' p hp => .inl ?_,
    fun d hd => .inl hd⟩, hgraph, fun {_ i} hi => ⟨i, hi, .refl i⟩,
    fun {_ a} ha => ⟨a, ha, rfl, rfl, rfl, rfl⟩⟩
  obtain ⟨blk, hb, hp⟩ := bind_eq_some_iff.mp hp
  have := map_block?_forgetLoads (·.placeholder) (fun _ _ => rfl) s b name b'
  rw [hb, map_some, hp] at this
  obtain ⟨blk₀, hb₀, hp₀⟩ := map_eq_some_iff.mp this.symm
  exact bind_eq_some_iff.mpr ⟨blk₀, hb₀, hp₀⟩

theorem WellFormed.storeAt (h : WellFormed s) (hb : (s.block? b).isSome)
    (name : String) (epoch : Int) (v addr : Value) :
    Advances s (s.storeAt b name epoch v addr) := by
  unfold State.storeAt
  obtain ⟨hadv, -⟩ := h.emitEffect hb .store v addr rfl (by intro he; cases he)
  dsimp only
  generalize s.emitEffect b .store v addr = r at *
  obtain ⟨store, t⟩ := r
  dsimp only at *
  have hmem : Advances s (t.modifyInst store.id fun i => { i with memory := some ⟨name, epoch⟩ }) :=
    hadv.trans (hadv.wellFormed.modifyInst fun i _ => .note i i.deps _)
  have hbump := hmem.trans (hmem.wellFormed.of_arenas
    (t := (t.modifyInst store.id fun i => { i with memory := some ⟨name, epoch⟩ }).bumpEpoch name)
    rfl rfl rfl rfl)
  exact hbump.trans (hbump.wellFormed.forgetLoads b name)

end Arrays

end SingleAssignment.Builder
