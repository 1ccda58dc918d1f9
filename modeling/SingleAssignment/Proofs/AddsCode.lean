import SingleAssignment.Proofs.Layout
import SingleAssignment.Proofs.Reckoning

/-!
# What the builder keeps

Every operation of the builder that adds values, versions and phis keeps the layout of the code
(`AddsCode`): it inserts slots where they may stand and revises what is known about others, and it
leaves the blocks, the arrays, the open joins and the deferred branches alone. `AddsCode` says this
of two states; each lemma below says it of one operation, from the smallest to the largest.
-/

namespace SingleAssignment.Builder

open Code List State

namespace State

/-- What adding code leaves alone. -/
def frame (s : State) : Setup × List ArrayInfo × Array Deferral × List JoinKind :=
  (s.settings, s.arrays, s.deferrals, s.contexts.map (·.kind))

variable (s : State) (b : BlockId) (d : Draft) (pos : Nat)

@[simp] theorem frame_modifyInst (id : InstId) (f : Instruction → Instruction) :
    (s.modifyInst id f).frame = s.frame := by
  unfold modifyInst
  split <;> rfl

@[simp] theorem frame_modifyBlock (f : Block → Block) : (s.modifyBlock b f).frame = s.frame := by
  unfold modifyBlock
  split <;> rfl

@[simp] theorem frame_modifyVersion (v : VersionId) (f : Version → Version) :
    (s.modifyVersion v f).frame = s.frame :=
  rfl

@[simp] theorem frame_report (e : Event) : (s.report e).frame = s.frame :=
  rfl

@[simp] theorem frame_insertNew : (s.insertNew b d pos).2.frame = s.frame :=
  frame_modifyBlock (s.alloc b d).2 b _

@[simp] theorem frame_place : (s.place b d pos).2.frame = s.frame := by
  unfold place
  split
  · simp
  · split
    · simp
    · dsimp only
      split <;> simp [overwrite]

@[simp] theorem frame_record (e : Entry) : (s.record b e).frame = s.frame :=
  frame_modifyBlock s b _

@[simp] theorem frame_addVersion (ver : Version) : (s.addVersion ver pos).2.frame = s.frame :=
  frame_modifyBlock { s with versions := s.versions.push ver } ver.block _

@[simp] theorem frame_depend (v : VersionId) : (s.depend v).frame = s.frame := by
  unfold depend
  split
  · rfl
  · rename_i ver hver
    clear hver
    generalize ver.history ++ [ver.inst] = ids
    induction ids generalizing s with
    | nil => rfl
    | cons id ids ih => rw [foldl_cons, ih, frame_modifyInst]

@[simp] theorem frame_touch (name : String) : (s.touch name).frame = s.frame := by
  simp [touch, frame, Function.comp_def]

theorem frame_resolveBranch (d : Deferral) : (s.resolveBranch d).frame = s.frame := by
  unfold resolveBranch entryPoint
  dsimp only
  split <;> simp

theorem frame_resolveBranches : s.resolveBranches.frame = s.frame := by
  unfold resolveBranches
  induction s.deferrals.toList generalizing s with
  | nil => rfl
  | cons d ds ih => rw [foldl_cons, ih, frame_resolveBranch]

theorem isSome_view_graph {s : State} {b : BlockId} : (s.view.graph b).isSome ↔
    ∃ blk, s.block? b = some blk := by
  simp [view, Option.isSome_iff_exists]

theorem arrays_of_frame {s t : State} (h : t.frame = s.frame) : t.arrays = s.arrays :=
  congrArg (·.2.1) h

end State

/-- Nothing but the arenas matters. -/
theorem Timelines.of_arenas {s t : State} (h : Timelines s) (hi : t.insts = s.insts)
    (hb : t.blocks = s.blocks) (hv : t.versions = s.versions) : Timelines t := by
  have hinst : t.inst? = s.inst? := by
    unfold State.inst?
    rw [hi]
  have hblock : t.block? = s.block? := by
    unfold State.block?
    rw [hb]
  have htime : t.timelineOf = s.timelineOf := by
    unfold State.timelineOf
    rw [hblock]
  have htabled : t.Tabled :=
    h.tabled.congr (fun b => by rw [State.filing, State.tableOf, hblock, htime]; rfl)
      fun v => by rw [hv]
  refine ⟨?_, ?_, ?_, ?_, ?_, htabled, ?_⟩ <;> simp only [hinst, hblock, htime, hv]
  exacts [h.id_eq, h.blank, h.nodup, h.owner, h.mark, h.holder]

/-- A state whose view is meaningful and laid out well. -/
structure Laid (floor : BlockId) (s : State) : Prop where
  timelines : Timelines s
  layout : s.view.Layout floor

/-- Code was added to a state, and no store to an array. -/
structure AddsCode (floor : BlockId) (s t : State) : Prop where
  laid : Laid floor t
  grows : ∀ b₀, View.Grows b₀ s.view t.view
  size : t.view.size = s.view.size
  graph : t.view.graph = s.view.graph
  keeps : View.Keeps floor s.view t.view
  frame : t.frame = s.frame

namespace AddsCode

variable {floor b : BlockId} {s t u : State}

theorem refl (h : Laid floor s) : AddsCode floor s s :=
  ⟨h, fun b₀ => .refl b₀ _, rfl, rfl, .of_eq rfl rfl, rfl⟩

theorem trans (h : AddsCode floor s t) (h' : AddsCode floor t u) : AddsCode floor s u :=
  ⟨h'.laid, fun b₀ => (h.grows b₀).trans (h'.grows b₀) (Int.le_refl _), h'.size.trans h.size,
    h'.graph.trans h.graph, h.keeps.trans (h.grows 0) h'.keeps, h'.frame.trans h.frame⟩

/-- Nothing that the view shows has changed. -/
theorem of_view (h : Laid floor s) (ht : Timelines t) (hv : t.view = s.view)
    (hf : t.frame = s.frame) : AddsCode floor s t :=
  ⟨⟨ht, hv ▸ h.layout⟩, fun b₀ => hv ▸ .refl b₀ _, by rw [hv], by rw [hv],
    .of_eq (by rw [hv]) (by rw [hv]), hf⟩

theorem of_revises (h : Laid floor s) (ht : Timelines t)
    (hr : View.Revises s.view t.view floor floor) (hf : t.frame = s.frame) : AddsCode floor s t :=
  ⟨⟨ht, h.layout.revise hr⟩, hr.grows, hr.size, hr.graph, hr.keeps, hf⟩

theorem of_inserts (h : Laid floor s) (ht : Timelines t) {before after : List Slot} {x : Slot}
    (hi : View.Inserts s.view t.view floor b before after x)
    (hx : ∀ a, ¬ t.view.IsStore a x) (hf : t.frame = s.frame) : AddsCode floor s t :=
  ⟨⟨ht, h.layout.insert hi⟩, fun _ => hi.grows fun a ha => absurd ha (hx a), hi.size, hi.graph,
    hi.keeps, hf⟩

theorem of_inserts_revises (h : Laid floor s) (ht : Timelines t) {V : View}
    {before after : List Slot} {x : Slot} (hi : View.Inserts s.view V floor b before after x)
    (hx : ∀ a, ¬ V.IsStore a x) (hr : View.Revises V t.view floor floor) (hf : t.frame = s.frame) :
    AddsCode floor s t :=
  have g : ∀ b₀, View.Grows b₀ s.view V := fun _ => hi.grows fun a ha => absurd ha (hx a)
  ⟨⟨ht, (h.layout.insert hi).revise hr⟩, fun b₀ => (g b₀).trans (hr.grows b₀) (Int.le_refl _),
    hr.size.trans hi.size, hr.graph.trans hi.graph, hi.keeps.trans (g 0) hr.keeps, hf⟩

theorem isSome (h : AddsCode floor s t) (hb : (s.view.graph b).isSome) :
    (t.view.graph b).isSome := by
  rw [h.graph]
  exact hb

theorem bounded (h : AddsCode floor s t) {m : MemoryTag} (hm : s.view.Bounded m) :
    t.view.Bounded m :=
  (h.grows 0).bounded hm

end AddsCode

namespace View

variable {V : View} {floor b : BlockId}

/-- A value that a block knows is recorded. -/
theorem Revises.record {e : Entry} (he : V.Known b e) : Revises V (V.record b e) floor floor := by
  refine ⟨rfl, rfl, rfl, fun _ => rfl, fun _ => rfl, fun {b' e'} he' => ?_,
    fun hv hphi => .inl ⟨_, hv, hphi⟩, fun {a} ha => .inl ⟨a.epoch, ha⟩,
    fun he' => ⟨_, he', Int.le_refl _⟩, fun ht => ht, .of_eq rfl rfl⟩
  simp only [View.record, Function.update_apply] at he'
  split at he'
  · rename_i hb
    subst hb
    rcases mem_cons.mp he' with rfl | he'
    · exact .inr he
    · exact .inl he'
  · exact .inl he'

/-- An instruction changes in what its order does not depend on. -/
theorem Revises.setInst {id : InstId} {i i' : Instruction} (hi : V.insts id = some i)
    (hk : essence i' = essence i) (ht : ∀ t ∈ instTags i', t ∈ instTags i)
    (hsrc : i.op ≠ .phi → i'.srcX = i.srcX ∧ i'.srcY = i.srcY) :
    Revises V (V.setInst id i') floor floor := by
  have hinst : ∀ id', (V.setInst id i').insts id' = if id' = id then some i' else V.insts id' :=
    fun id' => Function.update_apply ..
  refine ⟨rfl, rfl, rfl, fun id' => ?_, fun _ => rfl, fun he => .inl he,
    fun hv hphi => .inl ⟨_, hv, hphi⟩, fun {a} ha => .inl ⟨a.epoch, ha⟩,
    fun he => ⟨_, he, Int.le_refl _⟩, fun {x t} hx => ?_, fun {id' i₀} hi₀ hop => ?_,
    fun hv _ _ => ⟨_, hv, rfl⟩⟩
  · rw [hinst]
    split
    · rename_i h
      rw [h, hi, Option.map_some, Option.map_some, hk]
    · rfl
  · cases x with
    | mark v => exact hx
    | inst id' =>
      simp only [tagsAt, hinst] at hx ⊢
      split at hx
      · rename_i h
        rw [h, hi]
        exact ht t hx
      · exact hx
  · rw [hinst]
    split
    · rename_i h
      cases (h ▸ hi₀).symm.trans hi
      exact ⟨i', rfl, hsrc hop⟩
    · exact ⟨i₀, hi₀, rfl, rfl⟩

/-- A version changes in what its order does not depend on. -/
theorem Revises.setVersion {v : VersionId} {ver ver' : Version} (hv : V.versions v = some ver)
    (hvar : ver'.var = ver.var) (hblock : ver'.block = ver.block) (hhead : ver'.isHead = ver.isHead)
    (hphi : ver'.phi = ver.phi ∨ ∀ id, ver'.phi = some id → V.IsPhi ver.block id)
    (ht : ver.isHead ∨ ver.block < floor ∨ ver'.src = ver.src) :
    Revises V (V.setVersion v ver') floor floor := by
  have hver : ∀ v', (V.setVersion v ver').versions v' = if v' = v then some ver' else
    V.versions v' :=
    fun v' => Function.update_apply ..
  refine ⟨rfl, rfl, rfl, fun _ => rfl, fun v' => ?_, fun he => .inl he,
    fun {v' ver₀ id} hv' hid => ?_, fun {a} ha => .inl ⟨a.epoch, ha⟩,
    fun he => ⟨_, he, Int.le_refl _⟩, fun {x t} hx => ?_, fun hi _ => ⟨_, hi, rfl, rfl⟩,
    fun {v' ver₀} hv' hh hb => ?_⟩
  · rw [hver]
    split
    · rename_i h
      rw [h, hv, Option.map_some, Option.map_some, hvar, hblock, hhead]
    · rfl
  · rw [hver] at hv'
    split at hv'
    · rename_i h
      cases hv'
      rcases hphi with hphi | hphi
      · exact .inl ⟨ver, h ▸ hv, hphi ▸ hid⟩
      · exact .inr (hblock ▸ hphi id hid)
    · exact .inl ⟨ver₀, hv', hid⟩
  · cases x with
    | inst id => exact hx
    | mark v' =>
      simp only [tagsAt, hver] at hx ⊢
      split at hx
      · rename_i h
        rw [h, hv]
        simp only [Option.map_some, Option.getD_some, hblock, hhead] at hx ⊢
        split at hx
        · rename_i hcond
          simp only [Bool.and_eq_true, decide_eq_true_eq, Bool.not_eq_true'] at hcond
          rcases ht with ht | ht | ht
          · rw [ht] at hcond
            cases hcond.2
          · exact absurd hcond.1 (Int.not_le.mpr ht)
          · rw [if_pos (by simp [hcond])]
            rwa [ht] at hx
        · cases hx
      · exact hx
  · rw [hver]
    split
    · rename_i h
      cases (h ▸ hv').symm.trans hv
      rcases ht with ht | ht | ht
      · rw [ht] at hh
        cases hh
      · exact absurd hb (Int.not_le.mpr ht)
      · exact ⟨ver', rfl, ht⟩
    · exact ⟨ver₀, hv', rfl⟩

end View

/-! ## Values -/

theorem isBranch_of_isNumbered {op : Opcode} (h : op.isNumbered = true) : op.isBranch = false := by
  cases op <;> first | rfl | cases h

/-- The tags that a drafted instruction carries. -/
def State.Draft.tags (d : State.Draft) (tag : MemoryTag) : List MemoryTag :=
  tagsOf d.srcX ++ tagsOf d.srcY ++ if d.op = .load then [tag] else []

theorem numbered_fields {d : State.Draft} {b : BlockId} {id : InstId} {tag : MemoryTag}
    (hop : d.op.isNumbered = true) : (d.numbered b id tag).id = id ∧
      (d.numbered b id tag).op = d.op ∧ (d.numbered b id tag).block = b ∧
      (d.numbered b id tag).x = d.x ∧ (d.numbered b id tag).y = d.y ∧
      (d.numbered b id tag).memory = (if d.op = .load then some tag else none) ∧
      instTags (d.numbered b id tag) = d.tags tag := by
  have hbr := isBranch_of_isNumbered hop
  unfold State.Draft.numbered State.Draft.instruction face State.Draft.tags instTags
  split <;> simp_all [Instruction.isTarget]

theorem ne_empty_of_isNumbered {op : Opcode} (h : op.isNumbered = true) : op ≠ .empty := by
  rintro rfl
  cases h

/-- The tags of a provenance are not from the future. -/
def View.BoundedSource (V : View) (src : Provenance) : Prop :=
  ∀ t ∈ tagsOf src, V.Bounded t

namespace Laid

variable {floor b : BlockId} {s : State} {d : State.Draft} {tag : MemoryTag} {pos : Nat}
  {op : Opcode} {x y : Value}

theorem placeNumbered (h : Laid floor s) (hb : (s.view.graph b).isSome)
    (hop : d.op.isNumbered = true)
    (hput : s.view.Admits b (s.codeBefore b pos) (s.codeFrom b pos) (d.tags tag)) :
    AddsCode floor s (s.placeNumbered b d tag pos).2 := by
  obtain ⟨blk, hblk⟩ := isSome_view_graph.mp hb
  obtain ⟨hfresh, hview, ht⟩ :=
    @Timelines.placeNumbered s b blk d pos h.timelines hblk (ne_empty_of_isNumbered hop) tag
  obtain ⟨hid, hop', hblock, hx, hy, hmem, htags⟩ :=
    @numbered_fields d b (s.placeNumbered b d tag pos).1 tag hop
  generalize d.numbered b (s.placeNumbered b d tag pos).1 tag = i at *
  have hframe : (s.placeNumbered b d tag pos).2.frame = s.frame := by
    unfold State.placeNumbered
    dsimp only
    split <;> simp
  generalize (s.placeNumbered b d tag pos).1 = id at *
  subst hid
  have hphi : i.op ≠ .phi := by
    rintro hi
    rw [← hop', hi] at hop
    cases hop
  have hstore : i.op ≠ .store := by
    rintro hi
    rw [← hop', hi] at hop
    cases hop
  have hins : View.Inserts s.view (s.view.addInst b (s.codeBefore b pos) (s.codeFrom b pos) i)
      floor b (s.codeBefore b pos) (s.codeFrom b pos) (.inst i.id) := by
    refine .addInst hb hfresh hblock (s.codeBefore_append_codeFrom b pos).symm (fun hl => ?_)
      (fun _ hs => absurd hs hstore) ?_
    · rw [hmem, if_pos (hop' ▸ hl)]
      rfl
    · rw [if_neg hphi, htags]
      exact hput
  have hself : (s.view.addInst b (s.codeBefore b pos) (s.codeFrom b pos) i).insts i.id = some i :=
    Function.update_self ..
  have hrec : View.Revises _ _ floor floor := View.Revises.record (b := b)
    (e := ⟨d.op, i.id, d.x, d.y, tag⟩)
    ⟨i, hself, hblock, hop', fun _ => ⟨hop, hx, hy⟩, fun hl => by rw [hmem, if_pos hl]⟩
  refine .of_inserts_revises h ht hins (fun a ha => ?_) (hview ▸ hrec) hframe
  obtain ⟨id, i', hid, hi', hst, -⟩ := ha
  cases hid
  cases hself.symm.trans hi'
  exact absurd hst hstore

theorem valid_entry (h : Laid floor s) : (s.view.graph entryBlock).isSome := by
  have := h.layout.graph.start
  exact (h.layout.graph.valid _).mpr ⟨Int.le_refl _, by simp only [entryBlock]; lia⟩

theorem valid_start (h : Laid floor s) : (s.view.graph startBlock).isSome := by
  have := h.layout.graph.start
  exact (h.layout.graph.valid _).mpr ⟨by decide, by simp only [startBlock]; lia⟩

/-- The newest block is there. -/
theorem valid_newest (h : Laid floor s) (hb : b + 1 = s.view.size) : (s.view.graph b).isSome := by
  have := h.layout.graph.start
  exact (h.layout.graph.valid b).mpr ⟨by lia, by lia⟩

theorem const (h : Laid floor s) (n : Int64) : AddsCode floor s (s.const n).2 := by
  unfold State.const
  dsimp only
  split
  · exact .refl h
  · show AddsCode floor s
      (s.placeNumbered entryBlock { op := .const, x := .literal n } {} (s.endOf entryBlock)).2
    refine h.placeNumbered h.valid_entry rfl ?_
    rw [codeBefore_endOf, codeFrom_endOf]
    exact s.view.admits_nil entryBlock

theorem isConst_const (h : Laid floor s) (n : Int64) :
    (s.const n).2.view.IsConst (s.const n).1 n := by
  unfold State.const
  dsimp only
  split
  · rename_i e he
    have hcond := find?_some he
    simp only [Bool.and_eq_true, beq_iff_eq] at hcond
    obtain ⟨i, hi, -, hop, hxy, -⟩ := h.layout.entries (mem_of_find?_eq_some he)
    refine ⟨rfl, i, hi, hop.trans hcond.1.1, ?_⟩
    rw [← hcond.1.2]
    exact (hxy (by rw [hcond.1.1]; nofun)).2.1
  · obtain ⟨blk, hblk⟩ := isSome_view_graph.mp h.valid_entry
    obtain ⟨-, hview, -⟩ := @Timelines.placeNumbered s entryBlock blk
      { op := .const, x := .literal n } (s.endOf entryBlock) h.timelines hblk nofun {}
    refine ⟨rfl, _, (congrFun (congrArg View.insts hview) _).trans (Function.update_self ..), rfl,
      rfl⟩

theorem tagsOf_const (n : Int64) : tagsOf (s.const n).1.src = [] := by
  unfold State.const
  dsimp only
  split <;> rfl

theorem number (h : Laid floor s) (hb : (s.view.graph b).isSome) (hop : op.isNumbered = true)
    (hput : s.view.Admits b (s.codeBefore b pos) (s.codeFrom b pos)
      (tagsOf x.src ++ tagsOf y.src ++ if op = .load then [tag] else [])) :
    AddsCode floor s (s.number b op x y tag pos).2 := by
  unfold State.number
  split
  · exact .refl h
  · exact h.placeNumbered (d := ⟨op, x.operand, y.operand, x.src, y.src⟩) hb hop hput

/-- What an entry matches. -/
theorem matches?_spec {e : Entry} {x y : Operand} {swapped : Bool}
    (h : e.matches? op x y tag = some swapped) : e.op = op ∧ (op = .load → e.tag = tag) ∧
      (e.x = x ∧ e.y = y ∨ op.isCommutative = true ∧ e.x = y ∧ e.y = x) := by
  unfold Entry.matches? at h
  split at h
  · cases h
  · rename_i hkey
    simp only [ne_eq, Bool.or_eq_true, decide_eq_true_eq, Bool.and_eq_true, beq_iff_eq, not_or,
      not_and, Decidable.not_not] at hkey
    refine ⟨hkey.1, hkey.2, ?_⟩
    split at h
    · rename_i hsame
      exact .inl (by simpa using hsame)
    · split at h
      · rename_i hswap
        exact .inr (by simpa [and_assoc] using hswap)
      · cases h

/-- A value is found, or an instruction is placed for it. -/
theorem numberAtEnd_cases (s : State) (b : BlockId) (op : Opcode) (x y : Value) (tag : MemoryTag) :
    (∃ swapped, s.find? b op x.operand y.operand tag (s.endOf b) =
        some ((s.numberAtEnd b op x y tag).1.id, swapped) ∧ (s.numberAtEnd b op x y tag).2 = s) ∨
    (s.find? b op x.operand y.operand tag (s.endOf b) = none ∧
      ((s.numberAtEnd b op x y tag).1.id, (s.numberAtEnd b op x y tag).2) =
        s.placeNumbered b ⟨op, x.operand, y.operand, x.src, y.src⟩ tag (s.endOf b)) := by
  unfold State.numberAtEnd State.number
  cases s.find? b op x.operand y.operand tag (s.endOf b) with
  | some found => exact .inl ⟨found.2, rfl, rfl⟩
  | none => exact .inr ⟨rfl, rfl⟩

/-- What is found for a value is recorded in a dominator of the block, and active. -/
theorem mem_of_find? {x y : Operand} {id : InstId} {swapped : Bool}
    (hf : s.find? b op x y tag pos = some (id, swapped)) : ∃ d ∈ s.dominatorsOf b,
    ∃ e ∈ s.entriesOf d, e.id = id ∧ s.isLive id = true ∧ e.matches? op x y tag = some swapped := by
  have key : ∀ {d later}, s.findEntry later op x y tag (s.entriesOf d) = some (id, swapped) →
      ∃ e ∈ s.entriesOf d, e.id = id ∧ s.isLive id = true ∧ e.matches? op x y
      tag = some swapped := by
    intro d later he
    obtain ⟨e, hmem, he⟩ := exists_of_findSome?_eq_some he
    split at he
    · rename_i hlive
      obtain ⟨sw, hmatch, hpair⟩ := Option.map_eq_some_iff.mp he
      cases hpair
      exact ⟨e, hmem, rfl, (Bool.and_eq_true_iff.mp hlive).1, hmatch⟩
    · cases he
  unfold State.find? at hf
  split at hf
  · cases hf
  · rename_i d ds hd
    rw [hd]
    rcases Option.or_eq_some_iff.mp hf with hf | ⟨-, hf⟩
    · exact ⟨d, mem_cons_self .., key hf⟩
    · obtain ⟨d', hmem, hf⟩ := exists_of_findSome?_eq_some hf
      exact ⟨d', mem_cons_of_mem _ hmem, key hf⟩

/-- What is found for a value is known in a dominator of the block, and active. -/
theorem find?_spec {x y : Operand} {id : InstId} {swapped : Bool} (h : Laid floor s)
    (hf : s.find? b op x y tag pos = some (id, swapped)) : ∃ d ∈ s.dominatorsOf b, ∃ e : Entry,
      e.id = id ∧ s.isLive id = true ∧ e.matches? op x y tag = some swapped ∧ s.view.Known d e := by
  obtain ⟨d, hd, e, he, hid, hlive, hmatch⟩ := mem_of_find? hf
  exact ⟨d, hd, e, hid, hlive, hmatch, h.layout.entries he⟩

theorem number_holds (h : Laid floor s) (hb : (s.view.graph b).isSome)
    (hop : op.isNumbered = true) :
    ∃ i, (s.number b op x y tag pos).2.view.insts (s.number b op x y tag pos).1.1.id = some i := by
  unfold State.number
  split
  · rename_i id swapped hf
    obtain ⟨d, -, e, rfl, -, -, i, hi, -⟩ := h.find?_spec hf
    exact ⟨i, hi⟩
  · obtain ⟨blk, hblk⟩ := isSome_view_graph.mp hb
    let d : State.Draft := ⟨op, x.operand, y.operand, x.src, y.src⟩
    obtain ⟨-, hview, -⟩ :=
      @Timelines.placeNumbered s b blk d pos h.timelines hblk (ne_empty_of_isNumbered hop) tag
    refine ⟨d.numbered b (s.placeNumbered b d tag pos).1 tag, ?_⟩
    show (s.placeNumbered b d tag pos).2.view.insts (s.placeNumbered b d tag pos).1 = _
    rw [hview]
    show Function.update _ _ _ _ = _
    rw [(numbered_fields hop).1]
    exact Function.update_self ..

theorem number_src : (s.number b op x y tag pos).1.1.src =
    .result op (s.number b op x y tag pos).1.1.id x.src y.src tag := by
  unfold State.number
  split <;> rfl

theorem numberAtEnd (h : Laid floor s) (hb : b + 1 = s.view.size) (op : Opcode) (tag : MemoryTag)
    (hop : op.isNumbered = true) (hx : s.view.BoundedSource x.src) (hy : s.view.BoundedSource y.src)
    (htag : op = .load → s.view.Bounded tag) :
    AddsCode floor s (s.numberAtEnd b op x y tag).2 ∧
      (s.numberAtEnd b op x y tag).2.view.BoundedSource (s.numberAtEnd b op x y tag).1.src := by
  have hts : ∀ t ∈ tagsOf x.src ++ tagsOf y.src ++ (if op = .load then [tag] else []),
      s.view.Bounded t := by
    intro t ht
    rcases mem_append.mp ht with ht | ht
    · rcases mem_append.mp ht with ht | ht
      · exact hx t ht
      · exact hy t ht
    · split at ht
      · rw [mem_singleton.mp ht]
        exact htag ‹_›
      · cases ht
  have hw : AddsCode floor s (s.numberAtEnd b op x y tag).2 := by
    refine h.number (h.valid_newest hb) hop ?_
    rw [codeBefore_endOf, codeFrom_endOf]
    exact h.layout.admits_end hb hts
  refine ⟨hw, ?_⟩
  rw [show (s.numberAtEnd b op x y tag).1.src = _ from number_src]
  exact fun t ht => hw.bounded (hts t ht)

/-- An operation with an effect is new at the end of the block. -/
theorem emitEffect_exact (h : Laid floor s) (hb : (s.view.graph b).isSome) (op : Opcode)
    (hempty : op ≠ .empty) :
    s.view.insts (s.emitEffect b op x y).1.id = none ∧
      (s.emitEffect b op x y).2.view = s.view.addInst b (s.view.code b) []
        (State.Draft.instruction ⟨op, x.operand, y.operand, x.src, y.src⟩ b
          (s.emitEffect b op x y).1.id) ∧
      Timelines (s.emitEffect b op x y).2 := by
  obtain ⟨blk, hblk⟩ := isSome_view_graph.mp hb
  let d : State.Draft := ⟨op, x.operand, y.operand, x.src, y.src⟩
  obtain ⟨hfresh, hview, ht⟩ := @Timelines.place s b blk d (s.endOf b) h.timelines hblk hempty
  rw [codeBefore_endOf, codeFrom_endOf] at hview
  exact ⟨hfresh, hview, ht⟩

/-- The instruction that an operation with an effect places at the end of a block. -/
theorem emitEffect_view (h : Laid floor s) (hb : (s.view.graph b).isSome) (op : Opcode)
    (hempty : op ≠ .empty) (hx : s.view.BoundedSource x.src) (hy : s.view.BoundedSource y.src) :
    ∃ i, i.id = (s.emitEffect b op x y).1.id ∧ i.op = op ∧ i.memory = none ∧ i.block = b ∧
      s.view.insts i.id = none ∧ (∀ t ∈ instTags i, s.view.Bounded t) ∧
      Timelines (s.emitEffect b op x y).2 ∧
      (s.emitEffect b op x y).2.view = s.view.addInst b (s.view.code b) [] i := by
  obtain ⟨hfresh, hview, ht⟩ := h.emitEffect_exact (x := x) (y := y) hb op hempty
  refine ⟨_, rfl, rfl, rfl, rfl, hfresh, fun t ht => ?_, ht, hview⟩
  rcases mem_append.mp ht with ht | ht
  · rcases mem_append.mp ht with ht | ht
    · exact hx t ht
    · exact hy t ht
  · split at ht <;> cases ht

theorem emitEffect (h : Laid floor s) (hb : b + 1 = s.view.size) (op : Opcode)
    (hop : op.isNumbered = false) (hphi : op ≠ .phi) (hempty : op ≠ .empty)
    (hx : s.view.BoundedSource x.src) (hy : s.view.BoundedSource y.src) :
    AddsCode floor s (s.emitEffect b op x y).2 ∧
      (s.emitEffect b op x y).2.view.BoundedSource (s.emitEffect b op x y).1.src ∧
      ∃ i, (s.emitEffect b op x y).2.view.insts (s.emitEffect b op x y).1.id = some i ∧
        i.op = op := by
  have hvalid := h.valid_newest hb
  have hload : op ≠ .load := by
    rintro rfl
    cases hop
  obtain ⟨i, hid, hiop, hmem, hblock, hfresh, htags, ht, hview⟩ :=
    h.emitEffect_view hvalid op hempty hx hy
  have hins : View.Inserts s.view (s.emitEffect b op x y).2.view floor b (s.view.code b) []
      (.inst i.id) := by
    rw [hview]
    refine .addInst hvalid hfresh hblock (append_nil _).symm
      (fun hl => absurd (hiop.symm.trans hl) hload) (fun _ _ hm => ?_) ?_
    · rw [hmem] at hm
      cases hm
    · rw [if_neg (hiop ▸ hphi)]
      exact h.layout.admits_end hb htags
  have hself : (s.emitEffect b op x y).2.view.insts i.id = some i := by
    rw [hview]
    exact Function.update_self ..
  have hw : AddsCode floor s (s.emitEffect b op x y).2 := by
    refine .of_inserts h ht hins (fun a ha => ?_) (frame_place ..)
    obtain ⟨id, i', hid', hi', -, hm⟩ := ha
    cases hid'
    cases hself.symm.trans hi'
    rw [hmem] at hm
    cases hm
  refine ⟨hw, fun t ht => hw.bounded ?_, i, hid ▸ hself, hiop⟩
  have ht : t ∈ tagsOf x.src ++ tagsOf y.src ++ if op = .load then [({} : MemoryTag)] else [] := ht
  rw [if_neg hload, append_nil] at ht
  exact (mem_append.mp ht).elim (hx t) (hy t)

theorem emitPhi (h : Laid floor s) (hb : (s.view.graph b).isSome) (hx : tagsOf x.src = [])
    (hy : tagsOf y.src = []) :
    AddsCode floor s (s.emitPhi b x y).2 ∧ (s.emitPhi b x y).2.view.IsPhi b (s.emitPhi b x y).1.id ∧
      (s.emitPhi b x y).1.src = .result .phi (s.emitPhi b x y).1.id .absent .absent {} := by
  obtain ⟨blk, hblk⟩ := isSome_view_graph.mp hb
  obtain ⟨before, after, id, hlead, hcode, hfresh, hv, hview, ht⟩ :=
    h.timelines.emitPhi hblk x y
  let i : Instruction := State.Draft.instruction ⟨.phi, x.operand, y.operand, x.src, y.src⟩ b id
  have hins : View.Inserts s.view (s.view.addInst b before after i) floor b before after
      (.inst i.id) := by
    refine .addInst hb hfresh rfl hcode nofun (fun _ hs => (nomatch hs)) ?_
    rw [if_pos (show i.op = .phi from rfl)]
    refine ⟨hlead, ?_⟩
    show tagsOf x.src ++ tagsOf y.src ++ _ = _
    rw [hx, hy]
    rfl
  have hself : (s.view.addInst b before after i).insts id = some i := Function.update_self ..
  have hrec : View.Revises _ _ floor floor := View.Revises.record (b := b)
    (e := ⟨.phi, id, x.operand, y.operand, {}⟩)
    ⟨i, hself, rfl, rfl, fun hne => absurd rfl hne, nofun⟩
  have hframe : (s.emitPhi b x y).2.frame = s.frame := by
    unfold State.emitPhi
    simp
  refine ⟨.of_inserts_revises h ht hins (fun a ha => ?_) (hview ▸ hrec) hframe, ?_, by rw [hv]⟩
  · obtain ⟨id', i', hid, hi', hst, -⟩ := ha
    cases hid
    cases hself.symm.trans hi'
    cases hst
  · rw [hv, hview]
    exact ⟨i, hself, rfl, rfl⟩

/-! ## Versions -/

theorem essence_face (i : Instruction) : View.essence (face i) = View.essence i := by
  by_cases h : i.op.isNumbered = true
  · have hbr := isBranch_of_isNumbered h
    simp [View.essence, face, Instruction.isTarget, hbr]
  · simp [View.essence, face, h]

theorem modifyInst (h : Laid floor s) {id : InstId} {f : Instruction → Instruction}
    (hid : ∀ i, (f i).id = i.id) (hop : ∀ i, (f i).op = i.op) (hblock : ∀ i, (f i).block = i.block)
    (hmem : ∀ i, (f i).memory = i.memory)
    (hxy : ∀ i, s.inst? id = some i → i.op.isNumbered ∨ i.op = .empty →
      (f i).x = i.x ∧ (f i).y = i.y)
    (htags : ∀ i, ∀ t ∈ instTags (f i), t ∈ instTags i)
    (hsrc : ∀ i, s.inst? id = some i → i.op ≠ .phi → (f i).srcX = i.srcX ∧ (f i).srcY = i.srcY) :
    AddsCode floor s (s.modifyInst id f) := by
  have ht : Timelines (s.modifyInst id f) :=
    h.timelines.modifyInst hid hblock fun i hi he => by
      have he : i.op = .empty := hop i ▸ he
      obtain ⟨hx, hy⟩ := hxy i hi (.inr he)
      exact ⟨he, by simp only [content, hmem, hx, hy]⟩
  have hframe : (s.modifyInst id f).frame = s.frame := frame_modifyInst ..
  by_cases hi : ∃ i, s.inst? id = some i ∧ i.op ≠ .empty
  · obtain ⟨i, hi, hne⟩ := hi
    refine .of_revises h ht ?_ hframe
    rw [view_modifyInst hi hne (hop i ▸ hne)]
    refine .setInst (view_of_inst? hi hne) ?_ (htags i) (hsrc i hi)
    rw [essence_face, essence_face]
    simp only [View.essence, hid, hop, hblock, hmem]
    split
    · rename_i hn
      rw [(hxy i hi (.inl hn)).1, (hxy i hi (.inl hn)).2]
    · rfl
  · refine .of_view h ht (view_modifyInst_of_face (fun i _ => hop i) fun i hi' hne => ?_) hframe
    exact absurd ⟨i, hi', hne⟩ hi

theorem modifyVersion (h : Laid floor s) {v : VersionId} {f : Version → Version}
    (hvar : ∀ ver, (f ver).var = ver.var) (hblock : ∀ ver, (f ver).block = ver.block)
    (hhead : ∀ ver, (f ver).isHead = ver.isHead) (hf : ∀ ver, s.versions[v]? = some ver →
      ((f ver).phi = ver.phi ∨ ∀ id, (f ver).phi = some id → s.view.IsPhi ver.block id) ∧
      (ver.isHead ∨ ver.block < floor ∨ (f ver).src = ver.src)) :
    AddsCode floor s (s.modifyVersion v f) := by
  have ht : Timelines (s.modifyVersion v f) := h.timelines.modifyVersion hvar hblock
  cases hv : s.versions[v]? with
  | none =>
    refine .of_view h ht ?_ rfl
    refine View.ext rfl rfl rfl (funext fun v' => ?_) rfl rfl rfl rfl
    simp only [State.view, State.modifyVersion, Array.getElem?_modify]
    split
    · rename_i he
      rw [← he, hv]
      rfl
    · rfl
  | some ver =>
    refine .of_revises h ht ?_ rfl
    rw [view_modifyVersion hv]
    obtain ⟨hphi, hsrc⟩ := hf ver hv
    have hver : s.view.versions v = some { ver with history := [] } := by
      simp [State.view, hv]
    exact .setVersion hver (hvar ver) (hblock ver) (hhead ver) hphi hsrc

theorem depend (h : Laid floor s) (v : VersionId) : AddsCode floor s (s.depend v) := by
  obtain ⟨hview, ht⟩ := h.timelines.depend v
  exact .of_view h ht hview (frame_depend s v)

theorem report (h : Laid floor s) (e : Event) : AddsCode floor s (s.report e) :=
  .of_view h (h.timelines.report e) rfl rfl

theorem addVersion (h : Laid floor s) {ver : Version} (hb : (s.view.graph ver.block).isSome)
    (hphi : ver.phi = none)
    (hput : if ver.isHead then ∀ y ∈ s.codeBefore ver.block pos, s.view.isLead y = true
      else s.view.Admits ver.block (s.codeBefore ver.block pos) (s.codeFrom ver.block pos)
        (if floor ≤ ver.block then tagsOf ver.src else [])) :
    AddsCode floor s (s.addVersion ver pos).2 ∧
      (s.addVersion ver pos).2.view.versions (s.addVersion ver pos).1 =
        some { ver with history := [] } := by
  obtain ⟨blk, hblk⟩ := isSome_view_graph.mp hb
  obtain ⟨hid, hfresh, hview, ht⟩ := @Timelines.addVersion s blk pos h.timelines ver hblk
  have hins : View.Inserts s.view (s.addVersion ver pos).2.view floor ver.block
      (s.codeBefore ver.block pos) (s.codeFrom ver.block pos) (.mark s.versions.size) := by
    rw [hview]
    exact .addMark hb hfresh rfl hphi (s.codeBefore_append_codeFrom _ _).symm hput
  refine ⟨.of_inserts h ht hins ?_ (frame_addVersion ..), ?_⟩
  · rintro a ⟨id, i, hid, -⟩
    cases hid
  · rw [hid, hview]
    exact Function.update_self ..

theorem addHead (h : Laid floor s) (hb : (s.view.graph b).isSome) (name : String) (inst : InstId)
    (src : Provenance) : AddsCode floor s (s.addHead b name inst src).2 ∧
      ∃ ver, (s.addHead b name inst src).2.view.versions (s.addHead b name inst src).1 = some ver ∧
        ver.isHead = true ∧ ver.block = b := by
  let ver : Version :=
    { var := name, number := s.nextVersion b name, inst := inst, block := b, src := src,
      isHead := true }
  have hlead : ∀ y ∈ s.codeBefore b (s.leadingRun b), s.view.isLead y = true :=
    fun y hy => Timelines.isLead_of_mem_codeBefore hy
  obtain ⟨hw, hver⟩ := @addVersion floor s (s.leadingRun b) h ver hb rfl (if_pos rfl ▸ hlead)
  exact ⟨hw, _, hver, rfl, rfl⟩

theorem assign (h : Laid floor s) (hb : b + 1 = s.view.size) {name : String}
    (hx : s.view.BoundedSource x.src) (hfloor : s.contexts = [] → b < floor) :
    AddsCode floor s (s.assign b name x).2 := by
  unfold State.assign
  dsimp only
  split
  · rename_i c hc
    obtain ⟨-, hc⟩ := Option.filter_eq_some_iff.mp hc
    have hw : AddsCode floor s (s.modifyVersion c fun ver =>
        { ver with src := x.src, history := x.src.history }) := by
      refine h.modifyVersion (fun _ => rfl) (fun _ => rfl) (fun _ => rfl) fun ver hver =>
        ⟨.inl rfl, ?_⟩
      simp only [hver, Option.any_some, Bool.and_eq_true, List.isEmpty_iff, beq_iff_eq] at hc
      exact .inr (.inl (hc.2.1 ▸ hfloor hc.1))
    exact hw.trans (hw.laid.depend c)
  · let ver : Version :=
      { var := name, number := s.nextVersion b name, inst := x.id, block := b, src := x.src,
        history := x.src.history }
    have hput : s.view.Admits b (s.codeBefore b (s.endOf b)) (s.codeFrom b (s.endOf b))
        (if floor ≤ b then tagsOf x.src else []) := by
      rw [codeBefore_endOf, codeFrom_endOf]
      refine h.layout.admits_end hb fun t ht => ?_
      split at ht
      · exact hx t ht
      · cases ht
    obtain ⟨hw, -⟩ := @addVersion floor s (s.endOf b) h ver (h.valid_newest hb) rfl hput
    have hd := hw.laid.depend (s.addVersion ver (s.endOf b)).1
    exact (hw.trans hd).trans
      (.of_view hd.laid (hd.laid.timelines.of_arenas rfl rfl rfl) rfl (frame_touch ..))

theorem implicitZero (h : Laid floor s) (name : String) (cause : Option ZeroCause) :
    AddsCode floor s (s.implicitZero b name cause).2 := by
  have hz := h.const 0
  have hsrc : tagsOf (s.const 0).1.src = [] := tagsOf_const 0
  unfold State.implicitZero
  generalize s.const 0 = r at *
  obtain ⟨z, s₁⟩ := r
  dsimp only at hz hsrc ⊢
  let ver : Version :=
    { var := name, number := 0, inst := z.id, block := startBlock, src := z.src }
  have hput : s₁.view.Admits startBlock (s₁.codeBefore startBlock (s₁.endOf startBlock))
      (s₁.codeFrom startBlock (s₁.endOf startBlock))
      (if floor ≤ startBlock then tagsOf z.src else []) := by
    rw [codeBefore_endOf, codeFrom_endOf, hsrc, ite_self]
    exact s₁.view.admits_nil startBlock
  obtain ⟨hw, -⟩ := @addVersion floor s₁ (s₁.endOf startBlock) hz.laid ver hz.laid.valid_start rfl
    hput
  have hd := hw.laid.depend (s₁.addVersion ver (s₁.endOf startBlock)).1
  have hall := (hz.trans hw).trans hd
  cases cause with
  | none => exact hall
  | some why =>
    exact hall.trans (.of_view hall.laid (hall.laid.timelines.of_arenas rfl rfl rfl) rfl rfl)

theorem readVersion_src (name : String) (c : VersionId) :
    tagsOf (s.readVersion b name c).src = [] := by
  unfold State.readVersion
  split <;> rfl

theorem readAtEnd (h : Laid floor s) (name : String) (cause : Option ZeroCause) :
    AddsCode floor s (s.readAtEnd b name cause).2 ∧
      tagsOf (s.readAtEnd b name cause).1.src = [] := by
  unfold State.readAtEnd
  split
  · exact ⟨.refl h, rfl⟩
  · split
    · exact ⟨.refl h, readVersion_src ..⟩
    · exact ⟨h.implicitZero name cause, readVersion_src ..⟩

/-! ## Joins -/

/-- Nothing of the layout depends on whether an instruction is active. -/
theorem retire (h : Laid floor s) (id : InstId) :
    AddsCode floor s (s.modifyInst id fun i => { i with active := false }) :=
  h.modifyInst (fun _ => rfl) (fun _ => rfl) (fun _ => rfl) (fun _ => rfl) (fun _ _ _ => ⟨rfl, rfl⟩)
    (fun _ _ ht => ht) fun _ _ _ => ⟨rfl, rfl⟩

/-- A head may be given any value, and the phi that was made for it. -/
theorem modifyHead (h : Laid floor s) {v : VersionId} {f : Version → Version}
    (hvar : ∀ ver, (f ver).var = ver.var) (hblock : ∀ ver, (f ver).block = ver.block)
    (hhead : ∀ ver, (f ver).isHead = ver.isHead)
    (hv : ∀ ver, s.versions[v]? = some ver → ver.isHead = true)
    (hphi : ∀ ver, s.versions[v]? = some ver →
      (f ver).phi = ver.phi ∨ ∀ id, (f ver).phi = some id → s.view.IsPhi ver.block id) :
    AddsCode floor s (s.modifyVersion v f) :=
  h.modifyVersion hvar hblock hhead fun ver hver => ⟨hphi ver hver, .inl (hv ver hver)⟩

theorem settleHead (h : Laid floor s) {name : String} {head : VersionId}
    (hv : ∀ ver, s.versions[head]? = some ver → ver.isHead = true) :
    AddsCode floor s (s.settleHead b name head x).2 := by
  have hrest : ∀ t, AddsCode floor s t → t.versions = s.versions → ∀ c : Bool, AddsCode floor s
      (if c then (t.modifyVersion head fun v => { v with inst := x.id, src := x.src }).depend head
        else t.modifyVersion head fun v => { v with inst := x.id, src := x.src }) := by
    intro t ht hvers c
    have hm : AddsCode floor t (t.modifyVersion head fun v => { v with inst := x.id,
                                                                       src := x.src }) :=
      ht.laid.modifyHead (fun _ => rfl) (fun _ => rfl) (fun _ => rfl) (hvers ▸ hv)
        fun _ _ => .inl rfl
    split
    · exact (ht.trans hm).trans (hm.laid.depend head)
    · exact ht.trans hm
  unfold State.settleHead
  dsimp only
  generalize ((s.versions[head]?).bind (·.phi)).filter s.isLive = o
  cases o with
  | none => exact hrest s (.refl h) rfl _
  | some phi =>
    have hr := h.retire phi
    exact hrest _ (hr.trans (hr.laid.report _)) (versions_modifyInst ..) _

theorem refillPhi (h : Laid floor s) {name : String} {head : VersionId} {phi : InstId}
    (hv : ∀ ver, s.versions[head]? = some ver → ver.isHead = true) (hphi : s.view.IsPhi b phi)
    (hx : tagsOf x.src = []) (hy : tagsOf y.src = []) :
    AddsCode floor s (s.refillPhi b name head phi x y).2 := by
  have hi : AddsCode floor s (s.modifyInst phi fun i =>
      { i with x := x.operand, y := y.operand, srcX := x.src, srcY := y.src, active := true }) := by
    have hop : ∀ i, s.inst? phi = some i → i.op = .phi := by
      intro i hi
      obtain ⟨i', hi', hop, -⟩ := hphi
      obtain ⟨i₀, hi₀, -, rfl⟩ := inst?_of_view hi'
      cases hi.symm.trans hi₀
      exact hop
    refine h.modifyInst (fun _ => rfl) (fun _ => rfl) (fun _ => rfl) (fun _ => rfl)
      (fun i hi hn => ?_) (fun i t ht => ?_) fun i hi hne => absurd (hop i hi) hne
    · rw [hop i hi] at hn
      rcases hn with hn | hn <;> cases hn
    · have ht : t ∈ tagsOf x.src ++ tagsOf y.src ++ if i.op = .load then i.memory.toList else [] :=
        ht
      rw [hx, hy, nil_append] at ht
      exact mem_append_right _ ht
  unfold State.refillPhi
  dsimp only
  generalize hs₁ : (s.modifyInst phi fun i =>
    { i with x := x.operand, y := y.operand, srcX := x.src, srcY := y.src, active := true }) =
      s₁ at *
  have hvers : s₁.versions = s.versions := by
    rw [← hs₁]
    exact versions_modifyInst ..
  have hm : AddsCode floor s₁ (s₁.modifyVersion head fun v =>
      { v with inst := phi, src := .result .phi phi .absent .absent {} }) :=
    hi.laid.modifyHead (fun _ => rfl) (fun _ => rfl) (fun _ => rfl) (hvers ▸ hv) fun _ _ => .inl rfl
  have hd := hm.laid.depend head
  split
  · exact ((hi.trans hm).trans hd).trans (hd.laid.report _)
  · exact hi.trans hm

/-- What a version is in the view. -/
theorem version_of_view {t : State} {v : VersionId} {ver : Version}
    (hv : t.view.versions v = some ver) : ∃ ver₀, t.versions[v]? = some ver₀ ∧
      { ver₀ with history := [] } = ver :=
  Option.map_eq_some_iff.mp hv

theorem newPhi (h : Laid floor s) (hb : (s.view.graph b).isSome) {name : String}
    {head : Option VersionId}
    (hv : ∀ v ∈ head, ∃ ver, s.view.versions v = some ver ∧ ver.isHead = true ∧ ver.block = b)
    (hx : tagsOf x.src = []) (hy : tagsOf y.src = []) :
    AddsCode floor s (s.newPhi b name head x y).2 := by
  obtain ⟨hphi, hisphi, -⟩ := h.emitPhi hb hx hy
  have hrest : ∀ t v, AddsCode floor s t → t.view.IsPhi b (s.emitPhi b x y).1.id →
      (∃ ver, t.view.versions v = some ver ∧ ver.isHead = true ∧ ver.block = b) →
      AddsCode floor s (((t.modifyVersion v fun v =>
        { v with inst := (s.emitPhi b x y).1.id, src := (s.emitPhi b x y).1.src,
                 phi := some (s.emitPhi b x y).1.id }).depend v).report
        (.phiPlaced b name (s.emitPhi b x y).1.id x.id y.id)) := by
    rintro t v ht hisphi ⟨ver, hver, hhead, hblock⟩
    obtain ⟨ver₀, hver₀, rfl⟩ := version_of_view hver
    have hm : AddsCode floor t (t.modifyVersion v fun v =>
        { v with inst := (s.emitPhi b x y).1.id, src := (s.emitPhi b x y).1.src,
                 phi := some (s.emitPhi b x y).1.id }) := by
      refine ht.laid.modifyHead (fun _ => rfl) (fun _ => rfl) (fun _ => rfl) (fun ver hver => ?_)
        fun ver hver => .inr fun id hid => ?_
      · cases hver₀.symm.trans hver
        exact hhead
      · cases hver₀.symm.trans hver
        cases hid
        rw [show ver₀.block = b from hblock]
        exact hisphi
    have hd := hm.laid.depend v
    exact ((ht.trans hm).trans hd).trans (hd.laid.report _)
  unfold State.newPhi
  dsimp only
  cases head with
  | some v =>
    obtain ⟨ver, hver, hhead, hblock⟩ := hv v rfl
    obtain ⟨ver', hver', -, hb', hh'⟩ := (hphi.grows 0).version hver
    exact hrest _ v hphi hisphi ⟨ver', hver', hh'.trans hhead, hb'.trans hblock⟩
  | none =>
    obtain ⟨hw, hver⟩ := hphi.laid.addHead (hphi.isSome hb) name 0 .absent
    exact hrest _ _ (hphi.trans hw) (hisphi.mono (hw.grows 0)) hver

/-- The head that is found is a head of the block. -/
theorem head_of_head? (h : Laid floor s) {name : String} {v : VersionId}
    (hv : s.head? b name = some v) :
    ∃ ver, s.versions[v]? = some ver ∧ ver.isHead = true ∧ ver.block = b ∧ ver.var = name := by
  unfold State.head? at hv
  have hmem := mem_of_find?_eq_some hv
  have hhead := find?_some hv
  obtain ⟨ver, hver, hblock, hvar⟩ := h.timelines.version_of_mem hmem
  rw [hver] at hhead
  exact ⟨ver, hver, hhead, hblock, hvar⟩

theorem merge (h : Laid floor s) (hb : (s.view.graph b).isSome) {name : String}
    {above : Option InstId} (hx : tagsOf x.src = []) (hy : tagsOf y.src = []) :
    AddsCode floor s (s.merge b name x y above).2 := by
  unfold State.merge
  split
  · rename_i head hhead
    obtain ⟨ver, hver, hishead, hblock, -⟩ := h.head_of_head? hhead
    have hall : ∀ ver, s.versions[head]? = some ver → ver.isHead = true := by
      intro ver' hver'
      cases hver.symm.trans hver'
      exact hishead
    have hview : s.view.versions head = some { ver with history := [] } := by
      simp [State.view, hver]
    split
    · exact h.settleHead hall
    · split
      · rename_i phi hphi
        rw [hver] at hphi
        have hisphi := h.layout.phis hview hphi
        exact h.refillPhi hall (hblock ▸ hisphi) hx hy
      · refine h.newPhi hb (fun v hv => ?_) hx hy
        cases hv
        exact ⟨_, hview, hishead, hblock⟩
  · split
    · exact h.newPhi hb (fun v hv => by cases hv) hx hy
    · split
      · exact .refl h
      · have hw := (h.addHead hb name x.id x.src).1
        exact hw.trans (hw.laid.depend _)

theorem addJoinVar (h : Laid floor s) (name : String) : AddsCode floor s (s.addJoinVar b name) := by
  refine .of_revises h (h.timelines.modifyBlock (fun _ => rfl) (fun _ => rfl) fun _ _ hp => .inr hp)
    ?_ (frame_modifyBlock ..)
  have hview := view_modifyBlock_joinVars (s := s) (b := b)
    (f := fun blk => { blk with joinVars := blk.joinVars.insert name })
    (fun _ => rfl) (fun _ => rfl) fun _ => rfl
  unfold State.addJoinVar
  rw [hview]
  exact ⟨rfl, rfl, rfl, fun _ => rfl, fun _ => rfl, fun he => .inl he,
    fun hv hphi => .inl ⟨_, hv, hphi⟩, fun {a} ha => .inl ⟨a.epoch, ha⟩,
    fun he => ⟨_, he, Int.le_refl _⟩, fun ht => ht, .of_eq rfl rfl⟩

theorem reconcile (h : Laid floor s) (hb : (s.view.graph b).isSome) (name : String) :
    AddsCode floor s (s.reconcile b name) := by
  have hv := h.addJoinVar (b := b) name
  unfold State.reconcile
  dsimp only
  generalize s.addJoinVar b name = s₁ at *
  obtain ⟨hp, hx⟩ := hv.laid.readAtEnd (b := (s₁.joinParents b).1) name (some .partialJoin)
  obtain ⟨hq, hy⟩ := hp.laid.readAtEnd (b := (s₁.joinParents b).2) name (some .partialJoin)
  have hall := (hv.trans hp).trans hq
  exact hall.trans (hall.laid.merge (hall.isSome hb) hx hy)

theorem resolveBranches (h : Laid floor s) (hd : Deferrals s) :
    AddsCode floor s s.resolveBranches := by
  obtain ⟨hview, ht⟩ := h.timelines.resolveBranches hd
  exact .of_view h ht hview (frame_resolveBranches s)

/-! ## Arrays -/

theorem BoundedSource.mono {t : State} {src : Provenance} (hw : AddsCode floor s t)
    (hs : s.view.BoundedSource src) : t.view.BoundedSource src :=
  fun m hm => hw.bounded (hs m hm)

theorem boundedSource_const {n : Int64} {v : Value} (hv : s.view.IsConst v n) :
    s.view.BoundedSource v.src := by
  rw [hv.1]
  exact fun t ht => (nomatch ht)

/-- Values whose tags are bounded are computed with at the end of the newest block. -/
def reckoning (floor b : BlockId) : Reckoning b where
  Holds s := Laid floor s ∧ b + 1 = s.view.size
  Leads := AddsCode floor
  Fit s v := s.view.BoundedSource v.src
  refl h := .refl h.1
  trans := AddsCode.trans
  holds h hw := ⟨hw.laid, hw.size ▸ h.2⟩
  fit_mono _ hw hv := BoundedSource.mono hw hv
  fit_empty _ := fun _ ht => by cases ht
  const h n := ⟨h.1.const n, boundedSource_const (h.1.isConst_const n)⟩
  number op h hop _ hload hx hy := h.1.numberAtEnd h.2 op {} hop hx hy fun he => absurd he hload

theorem elementAddress (h : Laid floor s) (hb : b + 1 = s.view.size) {a : ArrayInfo}
    (ha : s.view.Addressed a) {indices : List Value}
    (hindices : ∀ v ∈ indices, s.view.BoundedSource v.src) :
    AddsCode floor s (s.elementAddress b a indices).2 ∧
      (s.elementAddress b a indices).2.view.BoundedSource (s.elementAddress b a indices).1.src ∧
      ∃ i, (s.elementAddress b a indices).2.view.insts (s.elementAddress b a indices).1.id =
        some i := by
  have hterms : ∀ t ∈ indices.zip (a.strides.zip a.strideValues),
      s.view.BoundedSource t.1.src ∧ s.view.BoundedSource t.2.2.src := by
    rintro ⟨v, p⟩ ht
    obtain ⟨hv, hp⟩ := of_mem_zip ht
    exact ⟨hindices v hv, boundedSource_const (ha.2.2 p hp)⟩
  obtain ⟨t, x, he, hw, hbase, hx⟩ :=
    (reckoning floor b).elementAddress_eq ⟨h, hb⟩ (boundedSource_const ha.1) hterms
  rw [he]
  obtain ⟨hadda, hsum⟩ := hw.laid.numberAtEnd (hw.size ▸ hb) .adda {} rfl hbase hx nofun
  exact ⟨hw.trans hadda, hsum, number_holds hw.laid (hw.laid.valid_newest (hw.size ▸ hb)) rfl⟩

end Laid

end SingleAssignment.Builder
